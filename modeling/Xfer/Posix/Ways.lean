import Xfer.Posix.Alike
import Xfer.Posix.Relative

/-! # The way to a file

What `create_directories` makes of the way to a file below a directory: each
directory that is missing there, and nothing else, as long as no file is in the
way.
-/

namespace Xfer.Posix

variable {p q u v d n : Bytes} {ns : List Bytes}

section Leads

theorem not_isLead_within (hv : slash ∉ v) {i : ℕ} (hi : u.length < i) (hi' : i < (u ++ v).length) :
    isLead (u ++ v) i = false := by
  have hdrop : (u ++ v).drop i = v.drop (i - u.length) := by
    rw [List.drop_append, List.drop_of_length_le hi.le, List.nil_append]
  have htake : (u ++ v).take i = u ++ v.take (i - u.length) := by
    rw [List.take_append, List.take_of_length_le hi.le]
  have hlen : i - u.length < v.length := by
    rw [List.length_append] at hi'
    omega
  have hroot : (u ++ v).take i ≠ rootName := by
    intro he
    have hne : v.take (i - u.length) ≠ [] := by
      rw [ne_eq, List.take_eq_nil_iff]
      rintro (h0 | rfl)
      · omega
      · exact absurd hlen (Nat.not_lt_zero _)
    obtain ⟨c, hc⟩ := List.exists_mem_of_ne_nil _ hne
    have hmem : c ∈ (u ++ v).take i := htake ▸ List.mem_append_right _ hc
    rw [he, rootName, List.mem_singleton] at hmem
    exact hv (hmem ▸ List.mem_of_mem_take hc)
  have hne : (u ++ v).drop i ≠ [] := by
    rw [ne_eq, List.drop_eq_nil_iff]
    omega
  have hhead : ((u ++ v).drop i).head? ≠ some slash := by
    intro hh
    rw [hdrop] at hh
    exact hv (List.mem_of_mem_drop (List.mem_of_mem_head? hh))
  simp only [isLead, hroot, hne, hhead, and_false, or_self, decide_false]

theorem isLead_append_slash (hp : p ≠ []) (hs : endsWithSlash p = false) (q : Bytes) {i : ℕ}
    (hi : i ≤ p.length) : isLead (p ++ slash :: q) i = isLead p i := by
  have htake : (p ++ slash :: q).take i = p.take i := List.take_append_of_le_length hi
  have hdrop : (p ++ slash :: q).drop i = p.drop i ++ slash :: q := List.drop_append_of_le_length hi
  unfold isLead
  rw [htake, hdrop]
  by_cases he : i = p.length
  · subst he
    simp [hs, hp]
  · have hd : p.drop i ≠ [] := by
      rw [ne_eq, List.drop_eq_nil_iff]
      omega
    obtain ⟨c, cs, hc⟩ := List.exists_cons_of_ne_nil hd
    simp [hc]

theorem not_isLead_after_slash (hp : p ≠ []) (hn : Plain n) {j : ℕ} (hj : j < n.length) :
    isLead (p ++ slash :: n) (p.length + 1 + j) = false := by
  have happ : p ++ slash :: n = (p ++ [slash]) ++ n := by simp
  cases j with
  | zero =>
    have ht : (p ++ slash :: n).take (p.length + 1 + 0) = p ++ [slash] := by
      rw [happ]
      exact List.take_left' (by simp)
    have hd : (p ++ slash :: n).drop (p.length + 1 + 0) = n := by
      rw [happ]
      exact List.drop_left' (by simp)
    have hroot : p ++ [slash] ≠ rootName := by simp [rootName, hp]
    have he : endsWithSlash (p ++ [slash]) := endsWithSlash_iff.mpr ⟨p, rfl⟩
    rw [isLead, ht, hd]
    simp [hroot, he, hn.1]
  | succ j =>
    rw [happ]
    exact not_isLead_within hn.2 (by simp) (by simp; omega)

theorem leads_append_name (hp : p ≠ []) (hs : endsWithSlash p = false) (hn : Plain n) :
    leads (p ++ slash :: n) = leads p ++ [p ++ slash :: n] := by
  have hlen : (p ++ slash :: n).length = p.length + 1 + n.length := by simp; omega
  have hbefore : ((List.range (p.length + 1)).filter (isLead (p ++ slash :: n))).map
      (p ++ slash :: n).take = leads p := by
    have hle : ∀ {i}, i ∈ List.range (p.length + 1) → i ≤ p.length := fun hi =>
      Nat.le_of_lt_succ (List.mem_range.mp hi)
    rw [leads, List.filter_congr fun i hi => isLead_append_slash hp hs n (hle hi)]
    exact List.map_congr_left fun i hi =>
      List.take_append_of_le_length (hle (List.mem_of_mem_filter hi))
  have hlast : isLead (p ++ slash :: n) (p.length + 1 + n.length) = true := by
    rw [isLead, ← hlen]
    simp
  have hafter : ((List.range (n.length + 1)).map (p.length + 1 + ·)).filter
      (isLead (p ++ slash :: n)) = [p.length + 1 + n.length] := by
    rw [List.range_succ, List.map_append, List.filter_append, List.map_singleton,
      List.filter_singleton, hlast, List.filter_eq_nil_iff.mpr]
    · rfl
    · intro i hi
      obtain ⟨j, hj, rfl⟩ := List.mem_map.mp hi
      simp [not_isLead_after_slash hp hn (List.mem_range.mp hj)]
  rw [leads, hlen, Nat.add_assoc (p.length + 1), List.range_add, List.filter_append, List.map_append,
    hbefore, hafter, List.map_singleton, ← hlen, List.take_length]

theorem exists_leads (hp : p ≠ []) :
    ∃ qs, leads p = qs ++ [p] ∧ ∀ q ∈ qs, ∃ i < p.length, isLead p i ∧ q = p.take i := by
  have hlast : isLead p p.length = true := by simp [isLead, hp]
  refine ⟨((List.range p.length).filter (isLead p)).map p.take, ?_, fun q hq => ?_⟩
  · rw [leads, List.range_succ, List.filter_append, List.map_append, List.filter_singleton, hlast,
      cond_true, List.map_singleton, List.take_length]
  · obtain ⟨i, hi, rfl⟩ := List.mem_map.mp hq
    obtain ⟨hi, hl⟩ := List.mem_filter.mp hi
    exact ⟨i, List.mem_range.mp hi, hl, rfl⟩

theorem join_name_ne_nil (hn : Plain n) : join d n ≠ [] := by
  intro he
  have := names_join d (isAbsolute_of_slash_notMem hn.2)
  rw [he, names_nil, names_of_notMem hn.1 hn.2] at this
  simp at this

/-- The leading parts of a directory's path that goes on with a name are parts of that path, and the
whole. -/
theorem leads_join_name (hn : Plain n) :
    ∃ qs, leads (join d n) = qs ++ [join d n] ∧ ∀ q ∈ qs, IsPart d q ∧ q ≠ [] := by
  have habs := isAbsolute_of_slash_notMem hn.2
  by_cases hd : hasFilename d
  · obtain ⟨hne, hs⟩ : d ≠ [] ∧ endsWithSlash d = false := by simpa [hasFilename] using hd
    rw [join, if_neg (by simp [habs]), if_pos hd]
    exact ⟨leads d, leads_append_name hne hs hn, fun q hq =>
      ⟨isPart_of_mem_leads hq, ne_nil_of_mem_leads hq⟩⟩
  · obtain ⟨qs, hqs, hall⟩ := exists_leads (join_name_ne_nil (d := d) hn)
    refine ⟨qs, hqs, fun q hq => ?_⟩
    have hm : q ∈ leads (join d n) := hqs ▸ List.mem_append_left _ hq
    obtain ⟨i, hi, hl, rfl⟩ := hall q hq
    refine ⟨?_, ne_nil_of_mem_leads hm⟩
    have hj : join d n = d ++ n := by rw [join, if_neg (by simp [habs]), if_neg hd]
    rw [hj] at hi hl hm ⊢
    have hle : i ≤ d.length := by
      by_contra hlt
      rw [not_isLead_within hn.2 (Nat.lt_of_not_le hlt) hi] at hl
      cases hl
    refine (isPart_of_mem_leads hm).of_between ?_ (List.prefix_append d n)
    rw [List.take_append_of_le_length hle]
    exact List.take_prefix i d

end Leads

section Parent

theorem rdropWhile_append_name (hn : Plain n) (p : Bytes) :
    (p ++ n).rdropWhile (· ≠ slash) = p.rdropWhile (· ≠ slash) := by
  rw [List.rdropWhile, List.reverse_append, List.dropWhile_append_of_pos, List.rdropWhile]
  intro c hc
  simp only [ne_eq, decide_eq_true_eq]
  rintro rfl
  exact hn.2 (List.mem_reverse.mp hc)

theorem parentPath_join_name (hn : Plain n) (d : Bytes) : parentPath (join d n) =
    if d.rdropWhile (· = slash) = [] ∧ isAbsolute d then rootName
    else d.rdropWhile (· = slash) := by
  have habs := isAbsolute_of_slash_notMem hn.2
  have hnames : names (join d n) ≠ [] := by
    rw [names_join d habs, names_of_notMem hn.1 hn.2]
    simp
  have hslash : endsWithSlash (join d n) = false := by
    rw [endsWithSlash_join d hn.1 habs, endsWithSlash_of_slash_notMem hn.2]
  have hq : ((join d n).rdropWhile (· ≠ slash)).rdropWhile (· = slash) =
      d.rdropWhile (· = slash) := by
    rw [join_eq d habs, rdropWhile_append_name hn]
    by_cases hd : hasFilename d
    · rw [if_pos hd, List.rdropWhile_concat_neg _ _ _ (by simp),
        List.rdropWhile_concat_pos _ _ _ (by simp)]
    · rw [if_neg hd]
      rcases not_hasFilename_iff.mp (Bool.eq_false_iff.mpr hd) with rfl | ⟨d', rfl⟩
      · rfl
      · rw [List.rdropWhile_concat_neg _ _ _ (by simp)]
  unfold parentPath
  rw [if_neg hnames]
  simp only [hslash, Bool.false_eq_true, if_false, hq, isAbsolute_join d habs]

theorem parentPath_join_name_of_hasFilename (hn : Plain n) (hd : hasFilename d) :
    parentPath (join d n) = d := by
  obtain ⟨hne, hs⟩ : d ≠ [] ∧ endsWithSlash d = false := by simpa [hasFilename] using hd
  have hself : d.rdropWhile (· = slash) = d := by
    rw [List.rdropWhile_eq_self_iff]
    intro hl
    simpa [endsWithSlash, List.getLast?_eq_some_getLast hl] using hs
  rw [parentPath_join_name hn, hself, if_neg (by simp [hne])]

theorem parentPath_join_name_isPart (hn : Plain n) (hd : d ≠ []) :
    IsPart d (parentPath (join d n)) ∧ parentPath (join d n) ≠ [] := by
  have hj : d <+: join d n := by
    rw [join_eq d (isAbsolute_of_slash_notMem hn.2)]
    split
    · exact (List.prefix_append _ _).trans (List.prefix_append _ _)
    · exact List.prefix_append _ _
  have hpre := List.rdropWhile_prefix (p := (· = slash)) (l := d)
  refine ⟨(isPart_parentPath _).of_between ?_ hj, ?_⟩
  · rw [parentPath_join_name hn]
    split
    · rename_i h
      obtain ⟨t, rfl⟩ := List.head?_eq_some_iff.mp (of_decide_eq_true h.2)
      exact ⟨t, rfl⟩
    · exact hpre
  · rw [parentPath_join_name hn]
    split
    · simp [rootName]
    · rename_i h
      intro he
      refine h ⟨he, ?_⟩
      rw [List.rdropWhile_eq_nil_iff] at he
      obtain ⟨c, cs, rfl⟩ := List.exists_cons_of_ne_nil hd
      have hc : c = slash := by simpa using he c List.mem_cons_self
      rw [hc]
      rfl

theorem hasFilename_foldl_join (h : ∀ n ∈ ns, Plain n) (hne : ns ≠ []) (d : Bytes) :
    hasFilename (ns.foldl join d) := by
  have hs := endsWithSlash_foldl_join h hne d
  have hnil : ns.foldl join d ≠ [] := by
    intro he
    have := names_foldl_join h d
    rw [he, names_nil] at this
    exact hne (List.append_eq_nil_iff.mp this.symm).2
  simp [hasFilename, hs, hnil]

theorem join_joinAll (h : ∀ n ∈ ns, Plain n) (hne : ns ≠ []) (d : Bytes) :
    join d (joinAll ns) = ns.foldl join d := by
  induction ns using List.reverseRecOn with
  | nil => exact absurd rfl hne
  | append_singleton ns n ih =>
    have hn := h n (by simp)
    have hns : ∀ n ∈ ns, Plain n := fun n hn => h n (by simp [hn])
    have habs := isAbsolute_of_slash_notMem hn.2
    have hsnoc : ∀ p, (ns ++ [n]).foldl join p = join (ns.foldl join p) n := fun p => by
      rw [List.foldl_append, List.foldl_cons, List.foldl_nil]
    by_cases he : ns = []
    · rw [hsnoc, he]
      exact congrArg (join d) (join_nil_left n)
    · have hlong : ∀ p, join (ns.foldl join p) n = ns.foldl join p ++ [slash] ++ n := fun p => by
        rw [join_eq _ habs, if_pos (hasFilename_foldl_join hns he p)]
      have hwhole : joinAll (ns ++ [n]) = joinAll ns ++ [slash] ++ n := (hsnoc []).trans (hlong [])
      rw [hsnoc, hlong, ← ih hns he, join_eq d (isAbsolute_joinAll h), join_eq d (isAbsolute_joinAll hns),
        hwhole]
      simp only [List.append_assoc]

end Parent

namespace FileSystem

variable {fs fs' : FileSystem} {o k : Key} {ps qs ms : List Bytes} {b : Bytes}

theorem mkdirs_append_of_exist (h : ∀ p ∈ ps, (fs.mkdirs ps).pathExists p) (qs : List Bytes) :
    fs.mkdirs (ps ++ qs) = (fs.mkdirs ps).mkdirs qs := by
  induction ps generalizing fs with
  | nil => rfl
  | cons p ps ih =>
    obtain ⟨hp, hps⟩ := List.forall_mem_cons.mp h
    rw [mkdirs_cons] at hp hps
    rw [List.cons_append, mkdirs_cons, mkdirs_cons]
    split
    · rename_i he
      rw [if_pos he] at hps
      exact ih hps
    · rename_i he
      rw [if_neg he] at hp hps
      cases hm : fs.mkdir p with
      | none =>
        rw [hm] at hp
        exact absurd hp he
      | some fs' =>
        rw [hm] at hps
        exact ih hps

theorem createDirectories_eq_mkdirs (hps : ps <+: leads b) (h : (fs.mkdirs ps).isDirectory b) :
    fs.createDirectories b = fs.mkdirs ps := by
  have hall : ∀ p ∈ leads b, (fs.mkdirs ps).pathExists p := fun _ => pathExists_of_mem_leads h
  obtain ⟨qs, hqs⟩ := hps
  rw [← hqs] at hall
  rw [createDirectories, ← hqs,
    mkdirs_append_of_exist fun p hp => hall p (List.mem_append_left qs hp)]
  exact (settled_of_pathExists fun p hp => hall p (List.mem_append_right ps hp)).mkdirs_eq

section Name

variable (h : fs.locate d = some o) (hd : fs.lookup o = some .dir) (h0 : 0 ∉ d) (hn : ValidName n)
include h hd h0 hn

theorem mkdir_join (hk : fs.lookup (o ++ [n]) = none) :
    fs.mkdir (join d n) = some (fs.place (o ++ [n]) .dir) := by
  have habs := isAbsolute_of_slash_notMem hn.plain.2
  have hz : 0 ∉ join d n := by
    have hall : ∀ m ∈ [n], Plain m ∧ 0 ∉ m := by simpa using ⟨hn.plain, hn.2.2.2.2⟩
    exact zero_notMem_foldl_join hall h0
  have hpieces : pieces (join d n) = names d ++ [n] := by
    rw [pieces_join d habs hn.1, pieces, names_of_notMem hn.1 hn.plain.2,
      endsWithSlash_of_slash_notMem hn.plain.2]
    simp
  obtain ⟨m, hm⟩ := walk_names h hd
  have hw := hm []
  rw [cstr_eq_self h0, List.append_nil, walk_nil] at hw
  have hp : fs.CanPlace (o ++ [n]) :=
    ⟨by simp, by simpa using hd, by simpa using hn, by simp [hk]⟩
  unfold mkdir
  rw [cstr_eq_self hz, start_eq_of_isAbsolute (isAbsolute_join d habs), hpieces, List.dropLast_concat,
    hw]
  simp only [List.getLastD_concat, if_pos (And.intro hk hp)]

theorem mkdirs_join (hl : fs.NoLinks o)
    (hk : fs.lookup (o ++ [n]) = none ∨ fs.lookup (o ++ [n]) = some .dir) :
    (fs.mkdirs [join d n]).lookup (o ++ [n]) = some .dir ∧
      ∀ k, k ≠ o ++ [n] → (fs.mkdirs [join d n]).lookup k = fs.lookup k := by
  have hloc := (locate_join_name h h0 hl hd hn).1
  rw [mkdirs_cons]
  rcases hk with hk | hk
  · have hno : ¬ fs.pathExists (join d n) := by
      rw [pathExists_iff]
      rintro ⟨k, hl', hne⟩
      obtain ⟨⟩ := hloc.symm.trans hl'
      exact hne hk
    have hp : fs.CanPlace (o ++ [n]) :=
      ⟨by simp, by simpa using hd, by simpa using hn, by simp [hk]⟩
    rw [if_neg hno, mkdir_join h hd h0 hn hk]
    refine ⟨?_, fun k hne => lookup_place_ne fs .dir hne⟩
    exact (lookup_place hp .dir _).trans (if_pos rfl)
  · rw [if_pos (pathExists_iff.mpr ⟨_, hloc, by simp [hk]⟩)]
    exact ⟨hk, fun _ _ => rfl⟩

end Name

/-- What is there of the way from `o` along the names are directories. -/
def Passable (fs : FileSystem) (o : Key) (ns : List Bytes) : Prop :=
  ∀ ms, ms <+: ns → fs.lookup (o ++ ms) = none ∨ fs.lookup (o ++ ms) = some .dir

/-- The way along the names is free for a file at its end. -/
structure Room (fs : FileSystem) (o : Key) (ns : List Bytes) : Prop where
  way : fs.Passable o ns.dropLast
  target : fs.lookup (o ++ ns) ≠ some .dir

theorem pathExists_of_part (h : fs.locate d = some o) (hd : fs.lookup o = some .dir)
    (hq : IsPart d q) (hne : q ≠ []) : fs.pathExists q := by
  obtain ⟨k, hk, hdir⟩ := exists_locate_of_isPart h hd hq hne
  exact pathExists_iff.mpr ⟨k, hk, by simp [hdir]⟩

theorem createDirectories_join (hn : Plain n) (hp : fs.isDirectory d ∨ hasFilename d)
    (h : (fs.createDirectories d).isDirectory d) :
    fs.createDirectories (join d n) = (fs.createDirectories d).mkdirs [join d n] := by
  have hpart : ∀ {fs : FileSystem} {q : Bytes}, fs.isDirectory d → IsPart d q → q ≠ [] →
      fs.pathExists q := by
    intro fs q hdir hq hne
    obtain ⟨o, hl, ho⟩ := isDirectory_iff.mp hdir
    exact pathExists_of_part hl ho hq hne
  rcases hp with hp | hp
  · obtain ⟨qs, hqs, hall⟩ := leads_join_name (d := d) hn
    have hsame : fs.mkdirs qs = fs :=
      (settled_of_pathExists fun q hq => hpart hp (hall q hq).1 (hall q hq).2).mkdirs_eq
    rw [createDirectories_of_isDirectory hp, createDirectories, hqs, mkdirs_append_of_exist, hsame]
    intro q hq
    rw [hsame]
    exact hpart hp (hall q hq).1 (hall q hq).2
  · obtain ⟨hne, hs⟩ : d ≠ [] ∧ endsWithSlash d = false := by simpa [hasFilename] using hp
    have hj : join d n = d ++ slash :: n := by
      rw [join, if_neg (by simp [isAbsolute_of_slash_notMem hn.2]), if_pos hp]
    have hleads : leads (join d n) = leads d ++ [join d n] := by rw [hj, leads_append_name hne hs hn]
    rw [createDirectories, hleads, mkdirs_append_of_exist]
    · rfl
    · exact fun q hq => hpart h (isPart_of_mem_leads hq) (ne_nil_of_mem_leads hq)

/-- Nothing but directories along the names has been added. -/
def Along (fs : FileSystem) (o : Key) (ns : List Bytes) (fs₁ : FileSystem) : Prop :=
  ∀ k, fs₁.lookup k = fs.lookup k ∨ (∃ ms, ms <+: ns ∧ k = o ++ ms) ∧ fs₁.lookup k = some .dir

theorem Room.place {fs₁ : FileSystem} {ns' : List Bytes} (h : fs.Room o ns')
    (ha : fs.Along o ns.dropLast fs₁) (hp : fs₁.CanPlace (o ++ ns)) (hne : ns ≠ [])
    (hto : ns <+: ns' → ns = ns') (hfrom : ns' <+: ns → ns' = ns) (c : Bytes) :
    (fs₁.place (o ++ ns) (.file c)).Room o ns' := by
  constructor
  · intro ms hms
    rw [lookup_place hp]
    split
    · rename_i he
      obtain rfl := List.append_cancel_left he
      obtain rfl := hto (hms.trans (List.dropLast_prefix _))
      have hlen := hms.length_le
      have hpos := List.length_pos_iff.mpr hne
      rw [List.length_dropLast] at hlen
      omega
    · rcases ha (o ++ ms) with he | ⟨-, he⟩
      · rw [he]
        exact h.way ms hms
      · exact Or.inr he
  · rw [lookup_place hp]
    split
    · simp
    · rename_i hno
      rcases ha (o ++ ns') with he | ⟨⟨ms, hms, he⟩, -⟩
      · rw [he]
        exact h.target
      · obtain rfl := List.append_cancel_left he
        exact absurd (congrArg (o ++ ·) (hfrom (hms.trans (List.dropLast_prefix _)))) hno

section Names

variable (h : fs.locate d = some o) (hd : fs.lookup o = some .dir) (h0 : 0 ∉ d)
  (hl : fs.NoLinks o) (hns : ∀ n ∈ ns, ValidName n) {fs₁ : FileSystem}
include h hd h0 hl hns

/-- The directories along the names, where they were missing, are all that is created. -/
theorem Passable.createDirectories (hfree : fs.Passable o ns)
    (h₁ : fs₁ = fs.createDirectories (ns.foldl join d)) :
    fs₁.locate (ns.foldl join d) = some (o ++ ns) ∧ fs₁.lookup (o ++ ns) = some .dir ∧
      fs.Along o ns fs₁ := by
  have hdir : fs.isDirectory d := isDirectory_iff.mpr ⟨o, h, hd⟩
  induction ns using List.reverseRecOn generalizing fs₁ with
  | nil =>
    rw [List.foldl_nil, createDirectories_of_isDirectory hdir] at h₁
    subst h₁
    rw [List.foldl_nil, List.append_nil]
    exact ⟨h, hd, fun _ => Or.inl rfl⟩
  | append_singleton ns n ih =>
    have hn := hns n (by simp)
    have hns' : ∀ n ∈ ns, ValidName n := fun n hn => hns n (by simp [hn])
    have hplain : ∀ n ∈ ns, Plain n := fun n hn => (hns' n hn).plain
    obtain ⟨hloc, hlook, hsame⟩ :=
      ih hns' (fun ms hms => hfree ms (hms.trans (List.prefix_append _ _))) rfl
    have hg := mkdirs_grows fs (leads (ns.foldl join d))
    have hlinks : (fs.createDirectories (ns.foldl join d)).NoLinks (o ++ ns) :=
      (hg.noLinks hl).append ns
    have hz : 0 ∉ ns.foldl join d :=
      zero_notMem_foldl_join (fun n hn => ⟨hplain n hn, (hns' n hn).2.2.2.2⟩) h0
    have hbase : fs.isDirectory (ns.foldl join d) ∨ hasFilename (ns.foldl join d) := by
      by_cases he : ns = []
      · subst he
        exact Or.inl hdir
      · exact Or.inr (hasFilename_foldl_join hplain he d)
    have hstep := createDirectories_join hn.plain hbase (isDirectory_iff.mpr ⟨_, hloc, hlook⟩)
    rw [List.foldl_append, List.foldl_cons, List.foldl_nil] at h₁ ⊢
    rw [hstep] at h₁
    subst h₁
    rw [← List.append_assoc]
    generalize fs.createDirectories (ns.foldl join d) = fs₁ at *
    have hroom : fs₁.lookup (o ++ ns ++ [n]) = none ∨ fs₁.lookup (o ++ ns ++ [n]) = some .dir := by
      rcases hsame (o ++ ns ++ [n]) with he | ⟨-, he⟩
      · rw [he, List.append_assoc]
        exact hfree _ List.prefix_rfl
      · exact Or.inr he
    obtain ⟨hnew, hold⟩ := mkdirs_join hloc hlook hz hn hlinks hroom
    have hg₁ := mkdirs_grows fs₁ [join (ns.foldl join d) n]
    refine ⟨?_, hnew, fun k => ?_⟩
    · exact (locate_join_name (hg₁.extends.locate hloc (by simp [hlook])) hz (hg₁.noLinks hlinks)
        (hg₁.extends.dir hlook) hn).1
    · by_cases hk : k = o ++ ns ++ [n]
      · subst hk
        exact Or.inr ⟨⟨ns ++ [n], List.prefix_rfl, List.append_assoc ..⟩, hnew⟩
      · rw [hold k hk]
        refine (hsame k).imp_right ?_
        rintro ⟨⟨ms, hms, rfl⟩, hk⟩
        exact ⟨⟨ms, hms.trans (List.prefix_append _ _), rfl⟩, hk⟩

theorem Room.opens (hroom : fs.Room o ns) (hne : ns ≠ [])
    (h₁ : fs₁ = fs.createDirectories (parentPath (join d (joinAll ns)))) :
    fs₁.locate (join d (joinAll ns)) = some (o ++ ns) ∧ fs₁.CanPlace (o ++ ns) ∧
      fs.Along o ns.dropLast fs₁ := by
  obtain ⟨ms, n, rfl⟩ := (List.eq_nil_or_concat' ns).resolve_left hne
  have hn := hns n (by simp)
  have hms : ∀ n ∈ ms, ValidName n := fun n hn => hns n (by simp [hn])
  have hplain : ∀ n ∈ ms, Plain n := fun n hn => (hms n hn).plain
  have htarget : join d (joinAll (ms ++ [n])) = join (ms.foldl join d) n := by
    rw [join_joinAll (fun n hn => (hns n hn).plain) hne, List.foldl_append]
    rfl
  have hway := hroom.way
  rw [List.dropLast_concat] at hway ⊢
  rw [htarget] at h₁ ⊢
  have hg : fs.Grows fs₁ := h₁ ▸ mkdirs_grows fs _
  obtain ⟨hloc, hdir, hsame⟩ : fs₁.locate (ms.foldl join d) = some (o ++ ms) ∧
      fs₁.lookup (o ++ ms) = some .dir ∧ fs.Along o ms fs₁ := by
    by_cases he : ms = []
    · subst he
      rw [List.foldl_nil] at h₁
      have hd₀ : d ≠ [] := by
        rintro rfl
        exact (locate_eq_walk h).1 rfl
      obtain ⟨hpart, hp⟩ := parentPath_join_name_isPart hn.plain hd₀
      have hex : fs.isDirectory (parentPath (join d n)) :=
        isDirectory_iff.mpr (exists_locate_of_isPart h hd hpart hp)
      rw [createDirectories_of_isDirectory hex] at h₁
      subst h₁
      rw [List.foldl_nil, List.append_nil]
      exact ⟨h, hd, fun _ => Or.inl rfl⟩
    · rw [parentPath_join_name_of_hasFilename hn.plain (hasFilename_foldl_join hplain he d)] at h₁
      exact hway.createDirectories h hd h0 hl hms h₁
  have hz : 0 ∉ ms.foldl join d :=
    zero_notMem_foldl_join (fun n hn => ⟨hplain n hn, (hms n hn).2.2.2.2⟩) h0
  rw [← List.append_assoc]
  refine ⟨?_, ⟨by simp, by simpa using hdir, by simpa using hn, fun hk => hroom.target ?_⟩, hsame⟩
  · exact (locate_join_name hloc hz ((hg.noLinks hl).append ms) hdir hn).1
  · rw [← List.append_assoc]
    refine ((hsame _).resolve_right ?_).symm.trans hk
    rintro ⟨⟨ls, hls, he⟩, -⟩
    rw [List.append_assoc] at he
    have hlen := hls.length_le
    rw [← List.append_cancel_left he] at hlen
    simp at hlen

end Names

end FileSystem

end Xfer.Posix
