import Xfer.Net.Socket
import Xfer.Process.Lockstep

/-! # What does not look at the error code

The error code is a variable that most functions only assign to. Run from two
states that differ in nothing else, such a function makes the same calls and
returns the same.
-/

namespace Xfer.Net

open Process Code Program

/-- Everything but the error code is the same. -/
structure SameButEc (s t : Refs) : Prop where
  progress : s.progress = t.progress
  summary : s.summary = t.summary

theorem sameButEc_of_ec (s : Refs) (e e' : ErrorCode) :
    SameButEc { s with ec := e } { s with ec := e' } := ⟨rfl, rfl⟩

/-- Made of such calls and of assignments, none of which takes the error code into account. -/
inductive Oblivious (P : Call → Prop) : {α : Type} → Session α → Prop
  | pure {α : Type} (a : α) : Oblivious P (pure a)
  | perform {c : Call} : P c → Oblivious P (perform c)
  | modify (g : Refs → Refs) : (∀ {s t}, SameButEc s t → SameButEc (g s) (g t)) →
      Oblivious P (modify g)
  | bind {α β : Type} {x : Session α} {f : α → Session β} : Oblivious P x →
      (∀ a, Oblivious P (f a)) → Oblivious P (x >>= f)

variable {P P' : Call → Prop} {α β : Type} {x : Session α}

namespace Oblivious

theorem map {g : α → β} (h : Oblivious P x) : Oblivious P (g <$> x) :=
  .bind h fun a => .pure (g a)

theorem mono (h : Oblivious P x) (hP : ∀ c, P c → P' c) : Oblivious P' x := by
  induction h with
  | pure a => exact .pure a
  | perform hc => exact .perform (hP _ hc)
  | modify g hg => exact .modify g hg
  | bind _ _ ihx ihf => exact .bind ihx ihf

theorem only (h : Oblivious P x) : Only P x := by
  induction h with
  | pure a => exact only_pure a
  | perform hc => exact only_issue hc
  | modify g _ => exact only_modify g
  | bind _ _ ihx ihf => exact ihx.bind ihf

theorem setEc (e : Errc) : Oblivious P (setEc e) := .modify _ fun h => ⟨h.1, h.2⟩

theorem addProgress (n : UInt64) : Oblivious P (addProgress n) :=
  .modify _ fun h => ⟨congrArg (· + n) h.1, h.2⟩

theorem startProgress : Oblivious P startProgress := .modify _ fun h => ⟨rfl, h.2⟩

/-- The same calls, and results that are the same but for the error code. -/
theorem lockstep (h : Oblivious P x) {s t : Refs} (hst : SameButEc s t) :
    Lockstep (fun _ => False) (fun _ => False) (fun r r' => r.1 = r'.1 ∧ SameButEc r.2 r'.2)
      (x.run s) (x.run t) := by
  induction h generalizing s t with
  | pure a => exact .ret ⟨rfl, hst⟩
  | perform hc => exact .call fun r => .ret ⟨rfl, hst⟩
  | modify g hg => exact .ret ⟨rfl, hg hst⟩
  | bind _ _ ihx ihf =>
    rw [StateT.run_bind, StateT.run_bind]
    apply (ihx hst).bind
    · rintro ⟨a, s₁⟩ ⟨_, t₁⟩ ⟨rfl, h₁⟩
      exact ihf a h₁
    · exact fun _ hs => hs.elim

end Oblivious

section Loops

theorem oblivious_sendAll (hs : ∀ bs, P (.send bs)) (data : Bytes) : Oblivious P (sendAll data) := by
  fun_induction sendAll data with
  | case1 => exact .pure _
  | case2 data h ih =>
    refine .bind ?_ fun n => ?_
    · refine .bind (.perform (hs _)) fun r => ?_
      split
      · exact .pure _
      · exact .bind (.setEc _) fun _ => .pure _
    · split
      · exact .pure _
      · exact ih n ‹_›

theorem oblivious_recvAll (hr : ∀ n, P (.recv n)) (len : ℕ) : Oblivious P (recvAll len) := by
  fun_induction recvAll len with
  | case1 => exact .pure _
  | case2 len h ih =>
    refine .bind ?_ fun r => ?_
    · refine .bind (.perform (hr _)) fun r => ?_
      split
      · exact .pure _
      · exact .bind (.setEc _) fun _ => .pure _
    · simp only
      split
      · split
        · exact .bind (.setEc _) fun _ => .pure _
        · exact .pure _
      · exact .bind (ih _ ‹_›) fun _ => .pure _

theorem oblivious_sendfileLoop (hs : ∀ n k i j, P (.sendfile n k i j)) (k : Fd) (signals : ℕ)
    (off remaining : UInt64) : Oblivious P (sendfileLoop k signals off remaining) := by
  fun_induction sendfileLoop k signals off remaining with
  | case1 => exact .pure _
  | case2 signals off remaining h want ih₁ ih₂ =>
    refine .bind (.perform (hs _ _ _ _)) fun r => ?_
    split
    · exact ih₁ ‹_›
    · exact .bind (.setEc _) fun _ => .pure _
    · split
      · exact .bind (.setEc _) fun _ => .pure _
      · exact (ih₂ _ ‹_› ‹_›).map

theorem oblivious_sendFromFd (hs : ∀ n k i j, P (.sendfile n k i j)) (sock : Socket) (signals : ℕ)
    (k : Fd) (off length : UInt64) : Oblivious P (sendFromFd sock signals k off length) := by
  unfold sendFromFd
  split
  · exact .bind (.setEc _) fun _ => .pure _
  · split
    · exact .pure _
    · exact oblivious_sendfileLoop hs _ _ _ _

end Loops

end Xfer.Net
