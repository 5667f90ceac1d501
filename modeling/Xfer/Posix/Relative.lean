import Xfer.Posix.Locate

/-! # Relative paths

A path put together from names has these names. The relative path from one
existing place to another, taken from the former, leads to the latter.
-/

namespace Xfer.Posix

variable {p : Bytes} {ns : List Bytes}

/-- What may stand between two separators. -/
def Plain (n : Bytes) : Prop := n ≠ [] ∧ slash ∉ n

instance : DecidablePred Plain := fun n => inferInstanceAs (Decidable (n ≠ [] ∧ slash ∉ n))

theorem ValidName.plain {n : Bytes} (h : ValidName n) : Plain n := ⟨h.1, h.2.2.2.1⟩

theorem names_foldl_join (h : ∀ n ∈ ns, Plain n) (p : Bytes) :
    names (ns.foldl join p) = names p ++ ns := by
  induction ns generalizing p with
  | nil => simp
  | cons n ns ih =>
    obtain ⟨hn, hns⟩ := List.forall_mem_cons.mp h
    rw [List.foldl_cons, ih hns, names_join p (isAbsolute_of_slash_notMem hn.2),
      names_of_notMem hn.1 hn.2, List.append_assoc, List.singleton_append]

theorem isAbsolute_foldl_join (h : ∀ n ∈ ns, Plain n) (p : Bytes) :
    isAbsolute (ns.foldl join p) = isAbsolute p := by
  induction ns generalizing p with
  | nil => rfl
  | cons n ns ih =>
    obtain ⟨hn, hns⟩ := List.forall_mem_cons.mp h
    rw [List.foldl_cons, ih hns, isAbsolute_join p (isAbsolute_of_slash_notMem hn.2)]

theorem endsWithSlash_foldl_join (h : ∀ n ∈ ns, Plain n) (hne : ns ≠ []) (p : Bytes) :
    endsWithSlash (ns.foldl join p) = false := by
  induction ns using List.reverseRecOn with
  | nil => exact absurd rfl hne
  | append_singleton ns n =>
    have hn := h n (by simp)
    rw [List.foldl_append, List.foldl_cons, List.foldl_nil,
      endsWithSlash_join _ hn.1 (isAbsolute_of_slash_notMem hn.2),
      endsWithSlash_of_slash_notMem hn.2]

theorem zero_notMem_foldl_join (h : ∀ n ∈ ns, Plain n ∧ 0 ∉ n) (hp : 0 ∉ p) :
    0 ∉ ns.foldl join p := by
  induction ns generalizing p with
  | nil => exact hp
  | cons n ns ih =>
    obtain ⟨hn, hns⟩ := List.forall_mem_cons.mp h
    refine ih hns ?_
    rw [join_eq p (isAbsolute_of_slash_notMem hn.1.2)]
    split
    · simpa [hp, hn.2] using (by decide : (0 : UInt8) ≠ slash)
    · simp [hp, hn.2]

theorem zero_notMem_joinAll (h : ∀ n ∈ ns, Plain n ∧ 0 ∉ n) : 0 ∉ joinAll ns :=
  zero_notMem_foldl_join h (List.not_mem_nil)

theorem names_joinAll (h : ∀ n ∈ ns, Plain n) : names (joinAll ns) = ns := names_foldl_join h []

theorem isAbsolute_joinAll (h : ∀ n ∈ ns, Plain n) : isAbsolute (joinAll ns) = false :=
  isAbsolute_foldl_join h []

theorem joinAll_ne_nil (h : ∀ n ∈ ns, Plain n) (hne : ns ≠ []) : joinAll ns ≠ [] := by
  intro he
  have hn := names_joinAll h
  rw [he, names_nil] at hn
  exact hne hn.symm

theorem pieces_joinAll (h : ∀ n ∈ ns, Plain n) : pieces (joinAll ns) = ns := by
  unfold pieces
  rw [names_joinAll h]
  by_cases hne : ns = []
  · simp [hne]
  · rw [joinAll, endsWithSlash_foldl_join h hne]
    simp

theorem keyPath_eq (k : Key) : FileSystem.keyPath k = k.foldl join rootName := rfl

theorem names_keyPath {k : Key} (h : ∀ n ∈ k, Plain n) : names (FileSystem.keyPath k) = k :=
  names_foldl_join h rootName

theorem elements_keyPath {k : Key} (h : ∀ n ∈ k, Plain n) :
    elements (FileSystem.keyPath k) = rootName :: k := by
  unfold elements
  rw [names_keyPath h, keyPath_eq, isAbsolute_foldl_join h]
  by_cases hne : k = []
  · subst hne
    rfl
  · rw [endsWithSlash_foldl_join h hne]
    simp [isAbsolute, rootName]

section DropCommon

variable {α : Type} [DecidableEq α]

theorem dropCommon_spec (as bs : List α) :
    ∃ cs, as = cs ++ (dropCommon as bs).1 ∧ bs = cs ++ (dropCommon as bs).2 := by
  induction as generalizing bs with
  | nil => exact ⟨[], rfl, by cases bs <;> rfl⟩
  | cons a as ih =>
    cases bs with
    | nil => exact ⟨[], rfl, rfl⟩
    | cons b bs =>
      unfold dropCommon
      split
      · rename_i hab
        subst hab
        obtain ⟨cs, h₁, h₂⟩ := ih bs
        exact ⟨a :: cs, congrArg (a :: ·) h₁, congrArg (a :: ·) h₂⟩
      · exact ⟨[], rfl, rfl⟩

@[simp] theorem dropCommon_cons (a : α) (as bs : List α) :
    dropCommon (a :: as) (a :: bs) = dropCommon as bs := by
  rw [dropCommon, if_pos rfl]

theorem dropCommon_append_left (as bs : List α) : dropCommon (as ++ bs) as = (bs, []) := by
  induction as with
  | nil => cases bs <;> rfl
  | cons a as ih => rw [List.cons_append, dropCommon_cons, ih]

theorem dropCommon_self (as : List α) : dropCommon as as = ([], []) := by
  simpa using dropCommon_append_left as []

end DropCommon

/-- The way from `b` to `k`: up to where they part, then down. -/
def route (b k : Key) : List Bytes :=
  if k = b then [dot]
  else List.replicate (dropCommon k b).2.length dotdot ++ (dropCommon k b).1

theorem route_below (o : Key) (hne : ns ≠ []) : route o (o ++ ns) = ns := by
  unfold route
  rw [if_neg (by simpa using hne), dropCommon_append_left]
  rfl

theorem route_ne_nil (b k : Key) : route b k ≠ [] := by
  unfold route
  split
  · simp
  · rename_i hne
    obtain ⟨cs, hk, hb⟩ := dropCommon_spec k b
    intro h
    obtain ⟨h₁, h₂⟩ := List.append_eq_nil_iff.mp h
    rw [List.replicate_eq_nil_iff, List.length_eq_zero_iff] at h₁
    rw [h₂] at hk
    rw [h₁] at hb
    exact hne (hk.trans hb.symm)

theorem mem_route {b k : Key} {n : Bytes} (h : n ∈ route b k) : n = dot ∨ n = dotdot ∨ n ∈ k := by
  unfold route at h
  split at h
  · exact Or.inl (List.mem_singleton.mp h)
  · obtain ⟨cs, hk, -⟩ := dropCommon_spec k b
    rcases List.mem_append.mp h with h | h
    · exact Or.inr (Or.inl (List.eq_of_mem_replicate h))
    · rw [hk]
      exact Or.inr (Or.inr (List.mem_append_right _ h))

theorem plain_of_mem_route {b k : Key} (hk : ∀ n ∈ k, ValidName n) :
    ∀ n ∈ route b k, Plain n ∧ 0 ∉ n := by
  intro n hn
  rcases mem_route hn with rfl | rfl | hn
  · decide
  · decide
  · exact ⟨(hk n hn).plain, (hk n hn).2.2.2.2⟩

namespace FileSystem

variable {fs : FileSystem} {b k o : Key} {v : Node} {q : Bytes}

theorem validName_of_lookup_ne_none (h : fs.lookup k ≠ none) : ∀ n ∈ k, ValidName n :=
  validName_of_mem (k := []) h

/-- The key of what a path names, if that exists. -/
def find (fs : FileSystem) (p : Bytes) : Option Key := (fs.locate p).filter (fs.lookup · ≠ none)

theorem find_eq_some : fs.find p = some k ↔ fs.locate p = some k ∧ fs.lookup k ≠ none := by
  simp [find, Option.filter_eq_some_iff]

theorem pathExists_iff_find : fs.pathExists p ↔ ∃ k, fs.find p = some k := by
  simp only [pathExists_iff, find_eq_some]

/-- The canonical path of what exists is the path of its key. -/
theorem weaklyCanonical_eq (h : fs.locate p = some k) (hk : fs.lookup k ≠ none) :
    fs.weaklyCanonical p = keyPath k := by
  unfold weaklyCanonical
  rw [h, Option.filter_some, if_pos (by simpa using hk)]

theorem lexicallyRelative_keyPath (hk : ∀ n ∈ k, ValidName n) (hb : ∀ n ∈ b, ValidName n) :
    lexicallyRelative (keyPath k) (keyPath b) = joinAll (route b k) := by
  have hk' : ∀ n ∈ k, Plain n := fun n hn => (hk n hn).plain
  have hb' : ∀ n ∈ b, Plain n := fun n hn => (hb n hn).plain
  unfold lexicallyRelative route
  rw [keyPath_eq, keyPath_eq, isAbsolute_foldl_join hk', isAbsolute_foldl_join hb',
    if_neg (by simp), ← keyPath_eq, ← keyPath_eq, elements_keyPath hk', elements_keyPath hb',
    dropCommon_cons]
  obtain ⟨cs, hkc, hbc⟩ := dropCommon_spec k b
  have heq : k = b ↔ (dropCommon k b).1 = [] ∧ (dropCommon k b).2 = [] := by
    constructor
    · rintro rfl
      rw [dropCommon_self]
      exact ⟨rfl, rfl⟩
    · rintro ⟨h₁, h₂⟩
      rw [h₁] at hkc
      rw [h₂] at hbc
      exact hkc.trans hbc.symm
  generalize dropCommon k b = d at *
  obtain ⟨down, up⟩ := d
  simp only at hkc hbc heq ⊢
  by_cases he : k = b
  · rw [if_pos (heq.mp he), if_pos he]
    rfl
  · have hup : ∀ n ∈ up, ValidName n := fun n hn => hb n (hbc ▸ List.mem_append_right _ hn)
    have hdown : ∀ n ∈ down, ValidName n := fun n hn => hk n (hkc ▸ List.mem_append_right _ hn)
    have hups : up.filter (fun n => n ≠ [] ∧ n ≠ dot ∧ n ≠ dotdot) = up := by
      rw [List.filter_eq_self]
      intro n hn
      obtain ⟨h₁, h₂, h₃, -⟩ := hup n hn
      simp [h₁, h₂, h₃]
    have hdowns : up.filter (· = dotdot) = [] := by
      rw [List.filter_eq_nil_iff]
      intro n hn
      simpa using (hup n hn).2.2.1
    rw [if_neg (heq.not.mp he), if_neg he, hups, hdowns, List.length_nil, if_neg (Nat.not_lt_zero _),
      if_neg, Nat.sub_zero]
    rintro ⟨hl, hd | hd⟩
    · exact he (heq.mpr ⟨hd, List.length_eq_zero_iff.mp hl⟩)
    · exact (hdown [] (List.mem_of_mem_head? hd)).1 rfl

theorem walk_route {m : ℕ} (hd : fs.lookup o = some .dir) (hk : fs.lookup k = some v)
    (hv : ∀ t, v ≠ .symlink t) : fs.walk m o (route o k) = some k := by
  unfold route
  split
  · rename_i he
    rw [walk_dot hd, walk_nil, he]
  · obtain ⟨cs, hkc, hoc⟩ := dropCommon_spec k o
    generalize dropCommon k o = d at *
    obtain ⟨down, up⟩ := d
    simp only at hkc hoc ⊢
    have htake : o.take (o.length - up.length) = cs := by
      rw [hoc, List.length_append, Nat.add_sub_cancel, List.take_left]
    rw [hkc] at hk ⊢
    rw [walk_up hd, htake, ← List.append_nil down, walk_down hk hv, walk_nil, List.append_nil]

theorem locate_join_joinAll {d : Bytes} (h : fs.locate d = some o) (hd : fs.lookup o = some .dir)
    (h0 : 0 ∉ d) : ∃ m, ∀ ns : List Bytes, (∀ n ∈ ns, Plain n ∧ 0 ∉ n) →
      fs.locate (join d (joinAll ns)) = fs.walk m o ns := by
  obtain ⟨m, hm⟩ := locate_join h hd h0
  refine ⟨m, fun ns hns => ?_⟩
  have hplain : ∀ n ∈ ns, Plain n := fun n hn => (hns n hn).1
  rw [hm _ (isAbsolute_joinAll hplain), cstr_eq_self (zero_notMem_joinAll hns),
    pieces_joinAll hplain]

theorem walk_validNames {m : ℕ} (hl : fs.NoLinks o) (hns : ∀ n ∈ ns, ValidName n)
    (h : fs.walk m o ns = some k) : k = o ++ ns := by
  induction ns generalizing o with
  | nil =>
    rw [walk_nil, Option.some.injEq] at h
    rw [List.append_nil, h]
  | cons n ns ih =>
    obtain ⟨hn, hns⟩ := List.forall_mem_cons.mp hns
    have hd := lookup_of_walk_cons h
    rw [List.append_cons]
    rcases hv : fs.lookup (o ++ [n]) with _ | v
    · rw [walk_absent hd hn.2.1 hn.2.2.1 hv] at h
      split at h
      · rename_i he
        rw [he, List.append_nil]
        exact (Option.some.inj h).symm
      · cases h
    · rw [walk_name hd hn.2.1 hn.2.2.1 hv fun t ht => hl [n] t (ht ▸ hv)] at h
      exact ih (hl.append [n]) hns h

section Names

variable {d c : Bytes} (h : fs.locate d = some o) (h0 : 0 ∉ d) (hl : fs.NoLinks o)
include h h0 hl

theorem locate_join_name (hd : fs.lookup o = some .dir) (hc : ValidName c) :
    fs.locate (join d c) = some (o ++ [c]) ∧ 0 ∉ join d c := by
  have hn : ∀ n ∈ [c], Plain n ∧ 0 ∉ n := by simpa using ⟨hc.plain, hc.2.2.2.2⟩
  obtain ⟨m, hm⟩ := locate_join_joinAll h hd h0
  constructor
  · have hj := hm [c] hn
    rw [joinAll, List.foldl_cons, List.foldl_nil, join_nil_left] at hj
    rw [hj]
    cases hv : fs.lookup (o ++ [c]) with
    | none => rw [walk_absent hd hc.2.1 hc.2.2.1 hv, if_pos rfl]
    | some v => rw [walk_name hd hc.2.1 hc.2.2.1 hv (fun t ht => hl [c] t (ht ▸ hv)), walk_nil]
  · exact zero_notMem_foldl_join hn h0

theorem locate_foldl_join (hk : fs.lookup (o ++ ns) ≠ none) :
    fs.locate (ns.foldl join d) = some (o ++ ns) := by
  induction ns generalizing d o with
  | nil => simpa using h
  | cons c ns ih =>
    rw [List.append_cons] at hk ⊢
    have hc := lookup_ne_none_of_append hk
    obtain ⟨hj, hj0⟩ := locate_join_name h h0 hl (lookup_parent hc) (validName_of_lookup hc)
    exact ih hj hj0 (hl.append [c]) hk

end Names

/-- The relative path from a directory to a node, taken from there, leads to the node. -/
theorem locate_join_route {d : Bytes} (h : fs.locate d = some o) (hd : fs.lookup o = some .dir)
    (h0 : 0 ∉ d) (hk : fs.lookup k = some v) (hv : ∀ t, v ≠ .symlink t) :
    fs.locate (join d (joinAll (route o k))) = some k := by
  obtain ⟨m, hm⟩ := locate_join_joinAll h hd h0
  have hne : fs.lookup k ≠ none := by simp [hk]
  rw [hm _ (plain_of_mem_route (validName_of_lookup_ne_none hne)), walk_route hd hk hv]

/-- `relative(p, base)` where both exist. -/
theorem relative_eq {base : Bytes} (h : fs.locate p = some k) (hk : fs.lookup k ≠ none)
    (h' : fs.locate base = some b) (hb : fs.lookup b ≠ none) :
    fs.relative p base = joinAll (route b k) := by
  rw [relative, weaklyCanonical_eq h hk, weaklyCanonical_eq h' hb,
    lexicallyRelative_keyPath (validName_of_lookup_ne_none hk) (validName_of_lookup_ne_none hb)]

end FileSystem

end Xfer.Posix
