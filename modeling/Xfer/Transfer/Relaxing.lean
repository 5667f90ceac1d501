import Xfer.Process.Lockstep
import Xfer.Transfer.Receiver

/-! # Receiving with and without verification

In the same surroundings, a receiver that verifies checksums and one that does
not issue the same calls until a checksum is wrong. Then the first one has just
closed the file, and it fails.
-/

namespace Xfer.Transfer

open Net Common Posix Process Program

/-- A session has failed because a checksum was wrong. -/
def Mismatched (r : Bool × Refs) : Prop := r.1 = false ∧ r.2.ec = some .badMessage

/-- The second session does what the first one does, unless a checksum that the first one finds
wrong when it closes a file makes it fail. -/
def Relaxes (x y : Session Bool) : Prop :=
  ∀ s, Lockstep (· = .closeStream) Mismatched Eq (x.run s) (y.run s)

variable {α : Type} {x y : Session Bool}

theorem Relaxes.refl (x : Session Bool) : Relaxes x x := fun _ => .refl (fun _ => rfl) _

theorem Relaxes.after {z : Session α} {f g : α → Session Bool} (h : ∀ a, Relaxes (f a) (g a)) :
    Relaxes (z >>= f) (z >>= g) := by
  intro s
  rw [StateT.run_bind, StateT.run_bind]
  have hz : Lockstep (· = Call.closeStream) (fun _ => False) Eq (z.run s) (z.run s) :=
    .refl (fun _ => rfl) _
  apply hz.bind
  · rintro r _ rfl
    exact h r.1 r.2
  · exact fun _ hs => hs.elim

theorem Relaxes.bind {f g : Bool → Session Bool} (hxy : Relaxes x y)
    (h : ∀ ok, Relaxes (f ok) (g ok)) (hf : f false = pure false) :
    Relaxes (x >>= f) (y >>= g) := by
  intro s
  rw [StateT.run_bind, StateT.run_bind]
  apply (hxy s).bind
  · rintro r _ rfl
    exact h r.1 r.2
  · rintro ⟨ok, t⟩ ⟨rfl, ht⟩
    exact ⟨(false, t), congrArg (fun z : Session Bool => z.run t) hf, rfl, ht⟩

/-- The one place at which the two part. -/
theorem relaxes_receivePayloadToFile (target : Bytes) (size : UInt64) (expected : UInt32) :
    Relaxes (receivePayloadToFile target size expected) (receivePayloadToFile target size 0) := by
  apply Relaxes.after
  intro _
  apply Relaxes.after
  intro opened
  split
  · exact .refl _
  · unfold receiveAndCheck
    rw [bind_assoc, bind_assoc]
    apply Relaxes.after
    intro r
    cases r with
    | none => exact .refl _
    | some crc =>
      simp only [ne_eq, not_true, false_and, if_false]
      split
      · exact fun s => .cut rfl fun _ => ⟨_, rfl, rfl, rfl⟩
      · exact .refl _

variable (options : ReceiverOptions) (dir : Bytes)

theorem relaxes_receiveRecord :
    Relaxes (receiveRecord { options with verifyCrc := true } dir)
      (receiveRecord { options with verifyCrc := false } dir) := by
  apply Relaxes.after
  intro r
  cases r with
  | none => exact .refl _
  | some e =>
    simp only
    split
    · exact .refl _
    · unfold storeRecord
      split
      · exact .refl _
      · exact (relaxes_receivePayloadToFile _ _ _).bind (fun _ => .refl _) rfl

theorem relaxes_receiveRecords (n : ℕ) :
    Relaxes (receiveRecords { options with verifyCrc := true } dir n)
      (receiveRecords { options with verifyCrc := false } dir n) := by
  induction n with
  | zero => exact .refl _
  | succ n ih =>
    unfold receiveRecords
    apply (relaxes_receiveRecord options dir).bind
    · intro ok
      cases ok with
      | false => exact .refl (pure false)
      | true => exact ih
    · rfl

theorem relaxes_receiveStream :
    Relaxes (receiveStream { options with verifyCrc := true })
      (receiveStream { options with verifyCrc := false }) := by
  -- nothing before the loop looks at the option
  have hopen : openSession { options with verifyCrc := true } =
    openSession { options with verifyCrc := false } := rfl
  unfold receiveStream
  rw [hopen]
  apply Relaxes.after
  intro r
  cases r with
  | none => exact .refl _
  | some p =>
    exact (relaxes_receiveRecords options p.2 p.1.totalFiles.toNat).bind (fun _ => .refl _) rfl

/-- The receiver in these surroundings: its verdict and the variables it shares, the state in which
it leaves the surroundings, and the log of its calls. -/
def receiveIn {V : Type} (E : Surroundings Call.Result V) (options : ReceiverOptions) (s : Refs)
    (v : V) : (Bool × Refs) × V × List ((c : Call) × c.Result) :=
  ((receiveStream options).run s).eval E.logged (v, [])

/-- Whatever the surroundings are, the receiver that verifies has the result of the one that does
not, or else it fails with `bad_message` when it has closed the file of some record, up to which
point they have made the same calls. -/
theorem verifyCrc_only_relaxes {V : Type} (E : Surroundings Call.Result V)
    (options : ReceiverOptions) (s : Refs) (v : V) :
    let strict := receiveIn E { options with verifyCrc := true } s v
    let lax := receiveIn E { options with verifyCrc := false } s v
    (strict.1.1 = true → lax = strict) ∧
    (strict.1.1 = false → lax = strict ∨ strict.1.2.ec = some .badMessage ∧
      (∃ before, strict.2.2 = before ++ [⟨.closeStream, ()⟩]) ∧ strict.2.2 <+: lax.2.2) := by
  intro strict lax
  have h : (strict.1 = lax.1 ∧ strict.2 = lax.2) ∨ Mismatched strict.1 ∧
      (∃ before c r, c = .closeStream ∧ strict.2.2 = before ++ [⟨c, r⟩]) ∧
      strict.2.2 <+: lax.2.2 := (relaxes_receiveStream options s).eval []
  rcases h with ⟨h₁, h₂⟩ | ⟨⟨hv, hec⟩, ⟨before, c, r, rfl, hb⟩, hpre⟩
  · have heq : lax = strict := Prod.ext h₁.symm h₂.symm
    exact ⟨fun _ => heq, fun _ => Or.inl heq⟩
  · refine ⟨fun ht => ?_, fun _ => Or.inr ⟨hec, ⟨before, hb⟩, hpre⟩⟩
    rw [hv] at ht
    cases ht

end Xfer.Transfer
