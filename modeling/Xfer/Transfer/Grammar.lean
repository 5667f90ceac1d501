import Xfer.Posix.Normal
import Xfer.Transfer.Records

/-! # The path check and the documented grammar

The documentation promises that a path with a backslash is rejected. The check
compares whole components, so it finds a backslash only where that is all there
is between two separators.
-/

namespace Xfer.Transfer

open Posix

variable {dir rel safe : Bytes}

/-- The parts between separators, empty ones included. -/
def components (rel : Bytes) : List Bytes := rel.splitOn slash

/-- The paths that the documentation lets through. -/
structure Documented (rel : Bytes) : Prop where
  relative : isAbsolute rel = false
  dotdot : dotdot ∉ components rel
  backslash : 0x5C ∉ rel

/-- The check accepts what is documented, and then joins, and stays below the output directory. -/
structure AsDocumented (dir rel : Bytes) : Prop where
  accepts : (∃ safe, validateAndJoin dir rel = .ok safe) ↔ Documented rel
  joins : ∀ safe, validateAndJoin dir rel = .ok safe → safe = join dir rel
  below : ∀ safe, validateAndJoin dir rel = .ok safe →
    Below (lexicallyNormal dir) (lexicallyNormal safe)

theorem mem_names_iff {n : Bytes} (hn : n ≠ []) : n ∈ names rel ↔ n ∈ components rel := by
  simp [names, components, hn]

theorem mem_elements_iff (ha : isAbsolute rel = false) {n : Bytes} (hn : n ≠ []) :
    n ∈ elements rel ↔ n ∈ names rel := by
  unfold elements
  rw [ha, if_neg Bool.false_ne_true]
  split <;> simp [hn]

/-- What the check really lets through. -/
theorem validateAndJoin_iff : validateAndJoin dir rel = .ok safe ↔
    isAbsolute rel = false ∧ dotdot ∉ components rel ∧ backslash ∉ components rel ∧
      safe = join dir rel := by
  constructor
  · intro h
    obtain ⟨ha, hdd, hj⟩ := validateAndJoin_eq_ok h
    rw [mem_names_iff (by decide)] at hdd
    refine ⟨ha, hdd, fun hb => ?_, hj⟩
    rw [← mem_names_iff (by decide), ← mem_elements_iff ha (by decide)] at hb
    unfold validateAndJoin at h
    rw [if_pos (List.any_eq_true.mpr ⟨backslash, hb, by decide⟩)] at h
    cases h
  · rintro ⟨ha, hdd, hb, rfl⟩
    unfold validateAndJoin
    rw [if_neg, if_neg (by simp [ha])]
    simp only [List.any_eq_true, decide_eq_true_eq, not_exists, not_and, not_or]
    intro n hn
    by_cases hnil : n = []
    · subst hnil
      decide
    · rw [mem_elements_iff ha hnil] at hn
      refine ⟨?_, ?_, ?_⟩
      · rintro rfl
        exact hdd ((mem_names_iff hnil).mp hn)
      · rintro rfl
        exact slash_notMem_of_mem_names hn List.mem_cons_self
      · rintro rfl
        exact hb ((mem_names_iff hnil).mp hn)

theorem mem_of_backslash_mem (h : backslash ∈ components rel) : 0x5C ∈ rel :=
  mem_of_mem_splitOn h List.mem_cons_self

/-- The check is as documented if and only if the path has no backslash, or is rejected for another
reason, or has a backslash as a whole component. -/
theorem validateAndJoin_documented_iff (dir rel : Bytes) : AsDocumented dir rel ↔
    (0x5C ∈ rel → isAbsolute rel = true ∨ dotdot ∈ components rel ∨
      backslash ∈ components rel) := by
  constructor
  · intro h hb
    by_contra! hno
    obtain ⟨ha, hdd, hbs⟩ := hno
    have hok : validateAndJoin dir rel = .ok (join dir rel) :=
      validateAndJoin_iff.mpr ⟨by simpa using ha, hdd, hbs, rfl⟩
    exact (h.accepts.mp ⟨_, hok⟩).backslash hb
  · intro h
    constructor
    · constructor
      · rintro ⟨safe, hok⟩
        obtain ⟨ha, hdd, hbs, -⟩ := validateAndJoin_iff.mp hok
        refine ⟨ha, hdd, fun hb => ?_⟩
        rcases h hb with hc | hc | hc
        · rw [ha] at hc
          cases hc
        · exact hdd hc
        · exact hbs hc
      · rintro ⟨ha, hdd, hb⟩
        exact ⟨_, validateAndJoin_iff.mpr ⟨ha, hdd, fun hbs => hb (mem_of_backslash_mem hbs), rfl⟩⟩
    · exact fun safe hok => (validateAndJoin_iff.mp hok).2.2.2
    · intro safe hok
      obtain ⟨ha, hdd, rfl⟩ := validateAndJoin_eq_ok hok
      exact below_join dir ha hdd

/-- A path with a backslash in a name. -/
def windowsPath : Bytes := [0x61, 0x5C, 0x62]

/-- It is accepted below the root directory. -/
theorem windowsPath_not_documented : ¬ AsDocumented rootName windowsPath := by
  intro h
  have hok : validateAndJoin rootName windowsPath = .ok (join rootName windowsPath) :=
    validateAndJoin_iff.mpr (by decide)
  exact (h.accepts.mp ⟨_, hok⟩).backslash (by decide)

end Xfer.Transfer
