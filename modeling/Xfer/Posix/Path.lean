import Xfer.Data.Bytes
import Mathlib.Data.List.DropRight
import Mathlib.Tactic.Linarith

/-! # Path names

The lexical part of `std::filesystem::path` in the POSIX grammar: a path is a
byte string, `/` separates names, repeated separators count once, and a
trailing separator stands for one more, empty, element.
-/

namespace Xfer.Posix

def slash : UInt8 := 0x2F
def dot : Bytes := [0x2E]
def dotdot : Bytes := [0x2E, 0x2E]
def backslash : Bytes := [0x5C]

/-- The nonempty names of a path, in order. -/
def names (p : Bytes) : List Bytes := (p.splitOn slash).filter (· ≠ [])

def isAbsolute (p : Bytes) : Bool := p.head? = some slash

def endsWithSlash (p : Bytes) : Bool := p.getLast? = some slash

def rootName : Bytes := [slash]

/-- The elements that iterating over a path yields. -/
def elements (p : Bytes) : List Bytes :=
  (if isAbsolute p then [rootName] else []) ++ names p ++
    if endsWithSlash p ∧ names p ≠ [] then [[]] else []

def hasFilename (p : Bytes) : Bool := p ≠ [] ∧ ¬ endsWithSlash p

/-- `p / q`. -/
def join (p q : Bytes) : Bytes :=
  if isAbsolute q then q else if hasFilename p then p ++ slash :: q else p ++ q

def joinAll (ps : List Bytes) : Bytes := ps.foldl join []

def filename (p : Bytes) : Bytes :=
  if endsWithSlash p then [] else (names p).getLastD []

/-- The longest leading part with one element less; a path without names is its own parent. -/
def parentPath (p : Bytes) : Bytes :=
  if names p = [] then p else
    let q := if endsWithSlash p then p else p.rdropWhile (· ≠ slash)
    let q' := q.rdropWhile (· = slash)
    if q' = [] ∧ isAbsolute p then rootName else q'

/-- What is left of two lists after their longest common prefix. -/
def dropCommon {α : Type} [DecidableEq α] : List α → List α → List α × List α
  | a :: as, b :: bs => if a = b then dropCommon as bs else (a :: as, b :: bs)
  | as, bs => (as, bs)

/-- `p.lexically_relative(base)`. -/
def lexicallyRelative (p base : Bytes) : Bytes :=
  if isAbsolute p ≠ isAbsolute base then [] else
    let (a, b) := dropCommon (elements p) (elements base)
    if a = [] ∧ b = [] then dot else
      let ups := (b.filter fun n => n ≠ [] ∧ n ≠ dot ∧ n ≠ dotdot).length
      let downs := (b.filter (· = dotdot)).length
      if ups < downs then []
      else if ups = downs ∧ (a = [] ∨ a.head? = some []) then dot
      else joinAll (List.replicate (ups - downs) dotdot ++ a)

/-- One name of a path that is being brought into normal form, after the names before it. -/
def normalStep (abs : Bool) (acc : List Bytes) (n : Bytes) : List Bytes :=
  if n = dot then acc
  else if n = dotdot then
    match acc.getLast? with
    | none => if abs then [] else [dotdot]
    | some m => if m = dotdot then acc ++ [dotdot] else acc.dropLast
  else acc ++ [n]

/-- `p.lexically_normal()`. -/
def lexicallyNormal (p : Bytes) : Bytes :=
  let ns := (names p).foldl (normalStep (isAbsolute p)) []
  let open_ := endsWithSlash p ∨ (names p).getLast? = some dot ∨ (names p).getLast? = some dotdot
  if p = [] then []
  else if ns = [] then if isAbsolute p then rootName else dot
  else joinAll ((if isAbsolute p then [rootName] else []) ++ ns ++
    if open_ ∧ ns.getLast? ≠ some dotdot then [[]] else [])

/-- The steps of a path lookup. A trailing separator asks for a directory, as a final `.` does. -/
def pieces (p : Bytes) : List Bytes :=
  names p ++ if endsWithSlash p ∧ names p ≠ [] then [dot] else []

/-- The path ends an element after its first `i` bytes. -/
def isLead (p : Bytes) (i : ℕ) : Bool :=
  p.take i ≠ [] ∧ (p.take i = rootName ∨ p.drop i = [] ∨
    endsWithSlash (p.take i) = false ∧ (p.drop i).head? = some slash)

/-- The leading parts of a path, shortest first. -/
def leads (p : Bytes) : List Bytes := ((List.range (p.length + 1)).filter (isLead p)).map p.take

theorem names_append_slash (p q : Bytes) : names (p ++ slash :: q) = names p ++ names q := by
  simp only [names, List.splitOn_append_cons_self, List.filter_append]

@[simp] theorem names_nil : names [] = [] := rfl

theorem names_slash_cons (p : Bytes) : names (slash :: p) = names p :=
  names_append_slash [] p

theorem names_append_slash_nil (p : Bytes) : names (p ++ [slash]) = names p := by
  simpa using names_append_slash p []

theorem names_of_notMem {n : Bytes} (hn : n ≠ []) (hs : slash ∉ n) : names n = [n] := by
  simp [names, List.splitOn_eq_singleton hs, hn]

theorem ne_nil_of_mem_names {p n : Bytes} (h : n ∈ names p) : n ≠ [] := by
  simpa [names] using (List.mem_filter.mp h).2

theorem slash_notMem_of_mem_splitOn {p n : Bytes} (h : n ∈ p.splitOn slash) : slash ∉ n := by
  induction p generalizing n with
  | nil => simp_all
  | cons b p ih =>
    rw [List.splitOn_cons_eq_if_modifyHead] at h
    split at h
    · rcases List.mem_cons.mp h with rfl | h
      · simp
      · exact ih h
    · rename_i hb
      obtain ⟨m, ms, hm⟩ := List.exists_cons_of_ne_nil (List.splitOn_ne_nil slash p)
      rw [hm, List.modifyHead_cons] at h
      rcases List.mem_cons.mp h with rfl | h
      · have hm' := ih (hm ▸ List.mem_cons_self)
        simp only [beq_iff_eq] at hb
        simp [hm', Ne.symm hb]
      · exact ih (hm ▸ List.mem_cons_of_mem _ h)

theorem slash_notMem_of_mem_names {p n : Bytes} (h : n ∈ names p) : slash ∉ n :=
  slash_notMem_of_mem_splitOn (List.mem_filter.mp h).1

theorem mem_of_mem_splitOn {p n : Bytes} {c : UInt8} (h : n ∈ p.splitOn slash) (hc : c ∈ n) :
    c ∈ p := by
  induction p generalizing n with
  | nil => simp_all
  | cons b p ih =>
    rw [List.splitOn_cons_eq_if_modifyHead] at h
    split at h
    · rcases List.mem_cons.mp h with rfl | h
      · cases hc
      · exact List.mem_cons_of_mem _ (ih h hc)
    · obtain ⟨m, ms, hm⟩ := List.exists_cons_of_ne_nil (List.splitOn_ne_nil slash p)
      rw [hm, List.modifyHead_cons] at h
      rcases List.mem_cons.mp h with rfl | h
      · rcases List.mem_cons.mp hc with rfl | hc
        · exact List.mem_cons_self
        · exact List.mem_cons_of_mem _ (ih (hm ▸ List.mem_cons_self) hc)
      · exact List.mem_cons_of_mem _ (ih (hm ▸ List.mem_cons_of_mem _ h) hc)

theorem mem_of_mem_names {p n : Bytes} {c : UInt8} (h : n ∈ names p) (hc : c ∈ n) : c ∈ p :=
  mem_of_mem_splitOn (List.mem_filter.mp h).1 hc

theorem endsWithSlash_iff {p : Bytes} : endsWithSlash p ↔ ∃ q, p = q ++ [slash] := by
  simp [endsWithSlash, List.getLast?_eq_some_iff]

theorem not_hasFilename_iff {p : Bytes} :
    hasFilename p = false ↔ p = [] ∨ ∃ q, p = q ++ [slash] := by
  rw [← endsWithSlash_iff]
  simp [hasFilename]
  tauto

/-- Joining a relative path to a path puts the names one after the other. -/
theorem names_join (p : Bytes) {q : Bytes} (hq : isAbsolute q = false) :
    names (join p q) = names p ++ names q := by
  unfold join
  rw [if_neg (by simp [hq])]
  split
  · exact names_append_slash p q
  · rename_i h
    rcases not_hasFilename_iff.mp (Bool.eq_false_iff.mpr h) with rfl | ⟨p', rfl⟩
    · rfl
    · rw [List.append_assoc, List.singleton_append, names_append_slash, names_append_slash_nil]

@[simp] theorem join_nil_left (q : Bytes) : join [] q = q := by
  unfold join
  split <;> rfl

theorem isAbsolute_join (p : Bytes) {q : Bytes} (hq : isAbsolute q = false) :
    isAbsolute (join p q) = isAbsolute p := by
  unfold join
  rw [if_neg (by simp [hq])]
  cases p with
  | nil => simpa [hasFilename, isAbsolute] using hq
  | cons b p => split <;> rfl

theorem isAbsolute_of_slash_notMem {n : Bytes} (h : slash ∉ n) : isAbsolute n = false := by
  cases n with
  | nil => rfl
  | cons b n =>
    simp only [isAbsolute, List.head?_cons, Option.some.injEq, decide_eq_false_iff_not]
    rintro rfl
    exact h List.mem_cons_self

theorem endsWithSlash_of_slash_notMem {n : Bytes} (h : slash ∉ n) : endsWithSlash n = false := by
  rw [Bool.eq_false_iff, ne_eq, endsWithSlash_iff]
  rintro ⟨q, rfl⟩
  simp at h

theorem endsWithSlash_append (p : Bytes) {q : Bytes} (hq : q ≠ []) :
    endsWithSlash (p ++ q) = endsWithSlash q := by
  simp [endsWithSlash, List.getLast?_append, List.getLast?_eq_some_getLast hq]

theorem endsWithSlash_join (p : Bytes) {q : Bytes} (hq : q ≠ []) (ha : isAbsolute q = false) :
    endsWithSlash (join p q) = endsWithSlash q := by
  unfold join
  rw [if_neg (by simp [ha])]
  split
  · rw [endsWithSlash_append p (by simp), ← List.singleton_append, endsWithSlash_append _ hq]
  · exact endsWithSlash_append p hq

theorem names_ne_nil {p : Bytes} (hp : p ≠ []) (ha : isAbsolute p = false) : names p ≠ [] := by
  cases p with
  | nil => exact absurd rfl hp
  | cons b p =>
    have hb : b ≠ slash := by simpa [isAbsolute] using ha
    obtain ⟨m, ms, hm⟩ := List.exists_cons_of_ne_nil (List.splitOn_ne_nil slash p)
    simp [names, List.splitOn_cons_eq_if_modifyHead, hb, hm]

end Xfer.Posix
