import Xfer.Posix.Relative

/-! # Lexical normal forms

The normal form of a path has the names that are left when `.` and `..` have
been resolved. Joining a path that does not climb only adds names to it.
-/

namespace Xfer.Posix

variable {p q n : Bytes} {ns acc : List Bytes} {abs : Bool}

/-- `q` lies at `p` or below it: it goes on where `p` ends, and a name `.` leads nowhere. -/
def Below (p q : Bytes) : Prop :=
  isAbsolute q = isAbsolute p ∧ (names p).filter (· ≠ dot) <+: (names q).filter (· ≠ dot)

/-- A name of a normal form other than `.`. -/
def Normal (n : Bytes) : Prop := Plain n ∧ n ≠ dot

theorem normalStep_normal (ha : ∀ m ∈ acc, Normal m) (hn : Plain n) :
    ∀ m ∈ normalStep abs acc n, Normal m := by
  have hdd : Normal dotdot := by unfold Normal; decide
  unfold normalStep
  split
  · exact ha
  · rename_i hdot
    split
    · split
      · split
        · simp
        · simpa using hdd
      · split
        · simp only [List.mem_append, List.mem_singleton]
          rintro m (hm | rfl)
          · exact ha m hm
          · exact hdd
        · exact fun m hm => ha m (List.dropLast_subset acc hm)
    · simp only [List.mem_append, List.mem_singleton]
      rintro m (hm | rfl)
      · exact ha m hm
      · exact ⟨hn, hdot⟩

theorem foldl_normalStep_normal (ha : ∀ m ∈ acc, Normal m) (hn : ∀ n ∈ ns, Plain n) :
    ∀ m ∈ ns.foldl (normalStep abs) acc, Normal m := by
  induction ns generalizing acc with
  | nil => exact ha
  | cons n ns ih =>
    obtain ⟨hn, hns⟩ := List.forall_mem_cons.mp hn
    exact ih (normalStep_normal ha hn) hns

theorem foldl_normalStep (h : dotdot ∉ ns) (acc : List Bytes) :
    ns.foldl (normalStep abs) acc = acc ++ ns.filter (· ≠ dot) := by
  induction ns generalizing acc with
  | nil => simp
  | cons n ns ih =>
    obtain ⟨hn, hns⟩ : dotdot ≠ n ∧ dotdot ∉ ns := by simpa using h
    rw [List.foldl_cons, ih hns, normalStep, if_neg (Ne.symm hn)]
    by_cases hdot : n = dot
    · simp [hdot]
    · simp [hdot]

theorem plain_of_mem_names (h : n ∈ names p) : Plain n :=
  ⟨ne_nil_of_mem_names h, slash_notMem_of_mem_names h⟩

/-- The names that are left of a path in its normal form. -/
def normalNames (p : Bytes) : List Bytes := (names p).foldl (normalStep (isAbsolute p)) []

theorem normalNames_normal (p : Bytes) : ∀ n ∈ normalNames p, Normal n :=
  foldl_normalStep_normal (by simp) fun _ => plain_of_mem_names

theorem joinAll_normal (hns : ∀ n ∈ ns, Plain n) (abs isOpen : Bool) :
    names (joinAll ((if abs then [rootName] else []) ++ ns ++ if isOpen then [[]] else [])) = ns ∧
    isAbsolute (joinAll ((if abs then [rootName] else []) ++ ns ++ if isOpen then [[]] else [])) =
      abs := by
  have hroot : names (List.foldl join [] (if abs then [rootName] else [])) = [] ∧
      isAbsolute (List.foldl join [] (if abs then [rootName] else [])) = abs := by
    cases abs <;> decide
  unfold joinAll
  rw [List.foldl_append, List.foldl_append]
  generalize List.foldl join [] (if abs then [rootName] else []) = p at hroot ⊢
  have hn : names (ns.foldl join p) = ns := by rw [names_foldl_join hns, hroot.1, List.nil_append]
  have ha : isAbsolute (ns.foldl join p) = abs := by rw [isAbsolute_foldl_join hns, hroot.2]
  cases isOpen with
  | false => exact ⟨hn, ha⟩
  | true =>
    have hnil : isAbsolute [] = false := rfl
    constructor
    · exact (names_join _ hnil).trans (by rw [hn, names_nil, List.append_nil])
    · exact (isAbsolute_join _ hnil).trans ha

theorem lexicallyNormal_spec (p : Bytes) :
    (names (lexicallyNormal p)).filter (· ≠ dot) = normalNames p ∧
      isAbsolute (lexicallyNormal p) = isAbsolute p := by
  have hnormal := normalNames_normal p
  have hself : (normalNames p).filter (· ≠ dot) = normalNames p :=
    List.filter_eq_self.mpr fun n hn => by simpa using (hnormal n hn).2
  unfold lexicallyNormal
  rw [← normalNames]
  simp only
  split
  · rename_i hp
    subst hp
    exact ⟨rfl, rfl⟩
  · split
    · rename_i hns
      rw [hns]
      cases isAbsolute p <;> decide
    · obtain ⟨hj, ha⟩ := joinAll_normal (fun n hn => (hnormal n hn).1) (isAbsolute p)
        (decide ((endsWithSlash p ∨ (names p).getLast? = some dot ∨
          (names p).getLast? = some dotdot) ∧ (normalNames p).getLast? ≠ some dotdot))
      simp only [decide_eq_true_eq] at hj ha
      exact ⟨(congrArg (List.filter _) hj).trans hself, ha⟩

/-- Joining a path that does not climb leads to or below where the normal form was. -/
theorem below_join (d : Bytes) {r : Bytes} (ha : isAbsolute r = false) (hr : dotdot ∉ names r) :
    Below (lexicallyNormal d) (lexicallyNormal (join d r)) := by
  obtain ⟨hd, hda⟩ := lexicallyNormal_spec d
  obtain ⟨hj, hja⟩ := lexicallyNormal_spec (join d r)
  have habs : isAbsolute (join d r) = isAbsolute d := isAbsolute_join d ha
  refine ⟨hja.trans (habs.trans hda.symm), ?_⟩
  rw [hd, hj, normalNames, normalNames, habs, names_join d ha, List.foldl_append,
    foldl_normalStep hr]
  exact List.prefix_append _ _

end Xfer.Posix
