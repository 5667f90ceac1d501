import Mathlib.Order.BooleanAlgebra.Set
import Mathlib.Logic.Function.Basic

/-! # Exclusive owners

Handles that are acquired, passed on and released by any number of owners. While
each of them has one owner, a log shows every handle acquired and released in turn.
-/

namespace Xfer.Process

variable {ι H : Type} {own : ι → Option H} {held : Set H} {i j : ι} {n : H}

/-- What is held is what the owners own, and no two of them own the same. -/
structure Exclusive (own : ι → Option H) (held : Set H) : Prop where
  held_iff : ∀ n, n ∈ held ↔ ∃ i, own i = some n
  unique : ∀ {i j n}, own i = some n → own j = some n → i = j

namespace Exclusive

theorem empty (h : ∀ i, own i = none) : Exclusive own ∅ where
  held_iff n := by simp [h]
  unique hi _ := by simp [h] at hi

variable (h : Exclusive own held)
include h

theorem mem (hi : own i = some n) : n ∈ held := (h.held_iff n).mpr ⟨i, hi⟩

theorem existsUnique (hn : n ∈ held) : ∃! i, own i = some n := by
  obtain ⟨i, hi⟩ := (h.held_iff n).mp hn
  exact ⟨i, hi, fun j hj => h.unique hj hi⟩

theorem held_eq_empty (hn : ∀ i, own i = none) : held = ∅ := by
  ext n
  simp [h.held_iff, hn]

variable [DecidableEq ι]

theorem acquire (hi : own i = none) (hn : n ∉ held) :
    Exclusive (Function.update own i (some n)) (insert n held) where
  held_iff m := by
    rw [Set.mem_insert_iff, h.held_iff]
    constructor
    · rintro (rfl | ⟨j, hj⟩)
      · exact ⟨i, Function.update_self ..⟩
      · have hne : j ≠ i := by
          rintro rfl
          rw [hi] at hj
          cases hj
        exact ⟨j, by rw [Function.update_of_ne hne, hj]⟩
    · rintro ⟨j, hj⟩
      by_cases hji : j = i
      · rw [hji, Function.update_self, Option.some.injEq] at hj
        exact .inl hj.symm
      · rw [Function.update_of_ne hji] at hj
        exact .inr ⟨j, hj⟩
  unique {j k m} hj hk := by
    have other {j : ι} (hji : j ≠ i) (hj : Function.update own i (some n) j = some n) : False := by
      rw [Function.update_of_ne hji] at hj
      exact hn (h.mem hj)
    by_cases hji : j = i <;> by_cases hki : k = i
    · rw [hji, hki]
    · rw [hji, Function.update_self] at hj
      exact (other hki (hk.trans hj.symm)).elim
    · rw [hki, Function.update_self] at hk
      exact (other hji (hj.trans hk.symm)).elim
    · rw [Function.update_of_ne hji] at hj
      rw [Function.update_of_ne hki] at hk
      exact h.unique hj hk

theorem release (hi : own i = some n) :
    Exclusive (Function.update own i none) (held \ {n}) where
  held_iff m := by
    rw [Set.mem_sdiff, Set.mem_singleton_iff, h.held_iff]
    constructor
    · rintro ⟨⟨j, hj⟩, hne⟩
      have hji : j ≠ i := by
        rintro rfl
        exact hne (Option.some.inj (hj.symm.trans hi))
      exact ⟨j, by rw [Function.update_of_ne hji, hj]⟩
    · rintro ⟨j, hj⟩
      have hji : j ≠ i := by
        rintro rfl
        rw [Function.update_self] at hj
        cases hj
      rw [Function.update_of_ne hji] at hj
      exact ⟨⟨j, hj⟩, fun he => hji (h.unique hj (he ▸ hi))⟩
  unique {j k m} hj hk := by
    have back {j : ι} {m : H} (hj : Function.update own i none j = some m) : own j = some m := by
      by_cases hji : j = i
      · rw [hji, Function.update_self] at hj
        cases hj
      · rwa [Function.update_of_ne hji] at hj
    exact h.unique (back hj) (back hk)

theorem transfer (hi : own i = none) (hij : i ≠ j) :
    Exclusive (Function.update (Function.update own i (own j)) j none) held := by
  cases hj : own j with
  | none =>
    rwa [← hi, Function.update_eq_self, hi, ← hj, Function.update_eq_self]
  | some n =>
    have hr := h.release hj
    have hi' : Function.update own j none i = none := by rw [Function.update_of_ne hij, hi]
    have ha := hr.acquire hi' (n := n) (by simp)
    rwa [Function.update_comm hij.symm, Set.insert_sdiff_singleton,
      Set.insert_eq_of_mem (h.mem hj)] at ha

end Exclusive

inductive Event (H : Type)
  | acquired (n : H)
  | released (n : H)

def Event.handle : Event H → H
  | acquired n => n
  | released n => n

variable [DecidableEq H] {log : List (Event H)}

def eventsOf (n : H) (log : List (Event H)) : List (Event H) := log.filter (·.handle = n)

/-- Acquired and released, so many times. -/
def rounds (n : H) (k : ℕ) : List (Event H) :=
  (List.replicate k [.acquired n, .released n]).flatten

/-- Every handle is acquired and released in turn, and those that are held remain acquired. -/
def InTurn (log : List (Event H)) (held : Set H) : Prop :=
  ∀ n, ∃ k, (n ∉ held ∧ eventsOf n log = rounds n k) ∨
    (n ∈ held ∧ eventsOf n log = rounds n k ++ [.acquired n])

namespace InTurn

theorem nil : InTurn ([] : List (Event H)) ∅ := fun _ => ⟨0, .inl ⟨nofun, rfl⟩⟩

theorem eventsOf_append_of_ne {e : Event H} (hne : e.handle ≠ n) :
    eventsOf n (log ++ [e]) = eventsOf n log := by
  simp [eventsOf, hne]

theorem eventsOf_append_self (log : List (Event H)) (e : Event H) :
    eventsOf e.handle (log ++ [e]) = eventsOf e.handle log ++ [e] := by
  simp [eventsOf]

theorem acquire (h : InTurn log held) (hn : n ∉ held) :
    InTurn (log ++ [.acquired n]) (insert n held) := by
  intro m
  obtain ⟨k, hk⟩ := h m
  by_cases hm : n = m
  · subst hm
    rcases hk with ⟨-, hk⟩ | ⟨hm, -⟩
    · refine ⟨k, .inr ⟨Set.mem_insert _ _, ?_⟩⟩
      rw [← hk]
      exact eventsOf_append_self log (.acquired n)
    · exact absurd hm hn
  · refine ⟨k, ?_⟩
    rw [eventsOf_append_of_ne (e := .acquired n) hm, Set.mem_insert_iff, or_iff_right (Ne.symm hm)]
    exact hk

theorem release (h : InTurn log held) (hn : n ∈ held) :
    InTurn (log ++ [.released n]) (held \ {n}) := by
  intro m
  obtain ⟨k, hk⟩ := h m
  by_cases hm : n = m
  · subst hm
    rcases hk with ⟨hm, -⟩ | ⟨-, hk⟩
    · exact absurd hn hm
    · refine ⟨k + 1, .inl ⟨fun hd => hd.2 rfl, ?_⟩⟩
      rw [show eventsOf n (log ++ [.released n]) = eventsOf n log ++ [.released n] from
        eventsOf_append_self log (.released n), hk, rounds, rounds, List.replicate_succ',
        List.flatten_append]
      simp
  · refine ⟨k, ?_⟩
    have hd : m ∈ held \ {n} ↔ m ∈ held := and_iff_left fun he => hm he.symm
    rw [eventsOf_append_of_ne (e := .released n) hm, hd]
    exact hk

/-- If nothing is held, everything that has been acquired has been released. -/
theorem of_empty (h : InTurn log ∅) (n : H) : ∃ k, eventsOf n log = rounds n k := by
  obtain ⟨k, ⟨-, hk⟩ | ⟨hn, -⟩⟩ := h n
  · exact ⟨k, hk⟩
  · cases hn

end InTurn

end Xfer.Process
