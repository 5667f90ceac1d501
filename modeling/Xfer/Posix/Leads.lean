import Xfer.Posix.Path

/-! # Leading parts of paths

The names of a leading part are the first names of the path, whichever way the
part was cut off: at a separator, as the parent, or at a NUL byte.
-/

namespace Xfer.Posix

variable {p q r rest b : Bytes}

/-- A name may end here: nothing has been read yet, or a separator has. -/
def AtName (p : Bytes) : Prop := p = [] ∨ endsWithSlash p

theorem names_append_of_atName (h : AtName p) (q : Bytes) : names (p ++ q) = names p ++ names q := by
  rcases h with rfl | h
  · rfl
  · obtain ⟨p', rfl⟩ := endsWithSlash_iff.mp h
    rw [List.append_assoc, List.singleton_append, names_append_slash, names_append_slash_nil]

theorem atName_rdropWhile (p : Bytes) : AtName (p.rdropWhile (· ≠ slash)) := by
  by_cases h : p.rdropWhile (· ≠ slash) = []
  · exact Or.inl h
  · right
    have hl := List.rdropWhile_last_not (· ≠ slash) p h
    rw [endsWithSlash, List.getLast?_eq_some_getLast h]
    simpa using hl

theorem exists_lastName (p : Bytes) : ∃ u v, p = u ++ v ∧ AtName u ∧ slash ∉ v := by
  refine ⟨p.rdropWhile (· ≠ slash), p.rtakeWhile (· ≠ slash), ?_, atName_rdropWhile p, ?_⟩
  · exact (List.rdropWhile_append_rtakeWhile (p := _) (l := p)).symm
  · intro h
    simpa using List.mem_rtakeWhile_imp h

/-- `q` is a leading part of `p` that does not end within a name. -/
def IsPart (p q : Bytes) : Prop :=
  ∃ rest, p = q ++ rest ∧ (AtName q ∨ rest = [] ∨ rest.head? = some slash)

theorem IsPart.prefix (h : IsPart p q) : q <+: p := by
  obtain ⟨rest, rfl, _⟩ := h
  exact List.prefix_append _ _

theorem IsPart.names (h : IsPart p q) : names q <+: names p := by
  obtain ⟨rest, rfl, h | rfl | h⟩ := h
  · exact names_append_of_atName h rest ▸ List.prefix_append _ _
  · exact (List.append_nil q).symm ▸ List.prefix_rfl
  · obtain ⟨t, rfl⟩ := List.head?_eq_some_iff.mp h
    exact names_append_slash q t ▸ List.prefix_append _ _

theorem IsPart.refl (p : Bytes) : IsPart p p := ⟨[], (List.append_nil p).symm, Or.inr (Or.inl rfl)⟩

theorem IsPart.trans (h : IsPart p q) (h' : IsPart q r) : IsPart p r := by
  obtain ⟨t, rfl, ht⟩ := h
  obtain ⟨u, rfl, hu⟩ := h'
  refine ⟨u ++ t, List.append_assoc .., ?_⟩
  rcases hu with hu | rfl | hu
  · exact Or.inl hu
  · simpa using ht
  · right
    right
    rw [List.head?_append, hu]
    rfl

theorem IsPart.of_between (h : IsPart p r) (hr : r <+: q) (hq : q <+: p) : IsPart q r := by
  obtain ⟨t, rfl⟩ := hr
  obtain ⟨u, rfl, hu⟩ := h
  refine ⟨t, rfl, ?_⟩
  rcases hu with hu | rfl | hu
  · exact Or.inl hu
  · rw [List.append_nil] at hq
    have := hq.length_le
    simp only [List.length_append] at this
    exact Or.inr (Or.inl (List.length_eq_zero_iff.mp (by omega)))
  · obtain ⟨v, hv⟩ := (List.prefix_append_right_inj _).mp hq
    cases t with
    | nil => exact Or.inr (Or.inl rfl)
    | cons c t =>
      rw [← hv] at hu
      exact Or.inr (Or.inr hu)

theorem IsPart.cstr (h : IsPart p q) : IsPart (cstr p) (cstr q) := by
  obtain ⟨rest, rfl, h⟩ := h
  by_cases h0 : 0 ∈ q
  · rw [cstr_append_of_mem rest h0]
    exact .refl _
  · rw [cstr_append rest h0, cstr_eq_self h0]
    refine ⟨_, rfl, h.imp_right (Or.imp ?_ ?_)⟩
    · rintro rfl
      rfl
    · intro hr
      obtain ⟨t, rfl⟩ := List.head?_eq_some_iff.mp hr
      rfl

theorem isPart_of_mem_leads (h : q ∈ leads p) : IsPart p q := by
  unfold leads at h
  obtain ⟨i, hi, rfl⟩ := List.mem_map.mp h
  refine ⟨p.drop i, (List.take_append_drop i p).symm, ?_⟩
  have hl := (List.mem_filter.mp hi).2
  simp only [isLead, decide_eq_true_eq, Bool.decide_and, Bool.decide_or, Bool.and_eq_true,
    Bool.or_eq_true] at hl
  rcases hl.2 with h | h | ⟨_, h⟩
  · rw [h]
    exact Or.inl (Or.inr rfl)
  · exact Or.inr (Or.inl h)
  · exact Or.inr (Or.inr h)

theorem ne_nil_of_mem_leads (h : q ∈ leads p) : q ≠ [] := by
  unfold leads at h
  obtain ⟨i, hi, rfl⟩ := List.mem_map.mp h
  have hl := (List.mem_filter.mp hi).2
  simp only [isLead, decide_eq_true_eq, Bool.decide_and, Bool.and_eq_true] at hl
  exact hl.1

theorem isPart_parentPath (p : Bytes) : IsPart p (parentPath p) := by
  unfold parentPath
  split
  · exact .refl p
  · -- `q` is the path up to its last name, and it loses its trailing separators
    generalize hq : (if endsWithSlash p = true then p else p.rdropWhile (· ≠ slash)) = q
    obtain ⟨t, ht, hat⟩ : ∃ t, p = q ++ t ∧ AtName q := by
      split at hq
      · rename_i h
        exact ⟨[], by rw [← hq, List.append_nil], Or.inr (hq ▸ h)⟩
      · refine ⟨p.rtakeWhile (· ≠ slash), ?_, ?_⟩
        · rw [← hq]
          exact (List.rdropWhile_append_rtakeWhile (p := _) (l := p)).symm
        · exact hq ▸ atName_rdropWhile p
    have hqq : q = q.rdropWhile (· = slash) ++ q.rtakeWhile (· = slash) :=
      (List.rdropWhile_append_rtakeWhile (p := _) (l := q)).symm
    simp only
    split
    · rename_i h
      obtain ⟨t', ht'⟩ := List.head?_eq_some_iff.mp (of_decide_eq_true h.2)
      exact ⟨t', by rw [ht']; rfl, Or.inl (Or.inr rfl)⟩
    · refine ⟨q.rtakeWhile (· = slash) ++ t, by rw [← List.append_assoc, ← hqq, ← ht], ?_⟩
      by_cases hs : q.rtakeWhile (· = slash) = []
      · rw [hs, List.append_nil] at hqq
        exact Or.inl (hqq ▸ hat)
      · obtain ⟨c, cs, hc⟩ := List.exists_cons_of_ne_nil hs
        have hm : c ∈ q.rtakeWhile (· = slash) := hc ▸ List.mem_cons_self
        have : c = slash := by simpa using List.mem_rtakeWhile_imp hm
        rw [hc, this]
        exact Or.inr (Or.inr rfl)

theorem atName_of_names_eq_nil (h : names p = []) : AtName p := by
  obtain ⟨u, v, rfl, hu, hv⟩ := exists_lastName p
  by_cases hn : v = []
  · rw [hn, List.append_nil]
    exact hu
  · rw [names_append_of_atName hu, names_of_notMem hn hv] at h
    simp at h

theorem dropLast_pieces_isPrefix (h : p <+: r) : (pieces p).dropLast <+: names r := by
  obtain ⟨rest, rfl⟩ := h
  unfold pieces
  split
  · rename_i hs
    rw [List.dropLast_concat]
    exact IsPart.names ⟨rest, rfl, Or.inl (Or.inr hs.1)⟩
  · obtain ⟨u, v, rfl, hu, hv⟩ := exists_lastName p
    rw [List.append_nil, List.append_assoc, names_append_of_atName hu, names_append_of_atName hu]
    by_cases hn : v = []
    · subst hn
      rw [names_nil, List.append_nil]
      exact (List.dropLast_prefix _).trans (List.prefix_append _ _)
    · rw [names_of_notMem hn hv, List.dropLast_concat]
      exact List.prefix_append _ _

theorem isAbsolute_of_isPrefix (h : p <+: r) (hr : isAbsolute r = false) : isAbsolute p = false := by
  obtain ⟨rest, rfl⟩ := h
  cases p with
  | nil => rfl
  | cons c p => simpa [isAbsolute] using hr

theorem join_eq (b : Bytes) (hr : isAbsolute r = false) :
    join b r = (if hasFilename b then b ++ [slash] else b) ++ r := by
  unfold join
  rw [if_neg (by simp [hr])]
  split
  · rw [List.append_assoc, List.singleton_append]
  · rfl

theorem prefix_join (hr : isAbsolute r = false) (h : q <+: join b r) :
    q <+: b ∨ ∃ r', r' <+: r ∧ q = join b r' := by
  rw [join_eq b hr] at h
  rcases List.prefix_or_prefix_of_prefix h (List.prefix_append _ r) with h | ⟨r', rfl⟩
  · by_cases hb : hasFilename b
    · rw [if_pos hb] at h
      rcases List.prefix_concat_iff.mp h with rfl | h
      · refine Or.inr ⟨[], List.nil_prefix, ?_⟩
        rw [join_eq b rfl, if_pos hb, List.append_nil]
      · exact Or.inl h
    · rw [if_neg hb] at h
      exact Or.inl h
  · have hr' := (List.prefix_append_right_inj _).mp h
    exact Or.inr ⟨r', hr', (join_eq b (isAbsolute_of_isPrefix hr' hr)).symm⟩

theorem cstr_join (hb : 0 ∉ b) (hr : isAbsolute r = false) : cstr (join b r) = join b (cstr r) := by
  rw [join_eq b hr, join_eq b (isAbsolute_of_isPrefix (cstr_isPrefix r) hr), cstr_append]
  split
  · simp only [List.mem_append, List.mem_singleton, not_or]
    exact ⟨hb, by decide⟩
  · exact hb

theorem pieces_join (b : Bytes) (hr : isAbsolute r = false) (hne : r ≠ []) :
    pieces (join b r) = names b ++ pieces r := by
  unfold pieces
  rw [names_join b hr, endsWithSlash_join b hne hr, List.append_assoc]
  have := names_ne_nil hne hr
  simp [this]

theorem pieces_join_nil (b : Bytes) : pieces (join b []) = names b ∨
    pieces (join b []) = names b ++ [dot] := by
  unfold pieces
  rw [names_join b rfl, names_nil, List.append_nil]
  split
  · exact Or.inr rfl
  · exact Or.inl (List.append_nil _)

/-- A leading part with the same names is the whole path, unless that ends in a separator. -/
theorem eq_of_isPart_names (h : IsPart p q) (hn : names q = names p)
    (hs : endsWithSlash p = false) : q = p := by
  obtain ⟨rest, rfl, hcut⟩ := h
  have hrest : rest = [] ∨ names (q ++ rest) = names q ++ names rest := by
    rcases hcut with hq | hr | hr
    · exact Or.inr (names_append_of_atName hq rest)
    · exact Or.inl hr
    · obtain ⟨t, rfl⟩ := List.head?_eq_some_iff.mp hr
      exact Or.inr (by rw [names_append_slash, names_slash_cons])
  rcases hrest with rfl | hr
  · rw [List.append_nil]
  · rw [hr] at hn
    rcases atName_of_names_eq_nil (List.append_right_eq_self.mp hn.symm) with rfl | he
    · rw [List.append_nil]
    · have hne : rest ≠ [] := by rintro rfl; cases he
      rw [endsWithSlash_append q hne, he] at hs
      cases hs

end Xfer.Posix
