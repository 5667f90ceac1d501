import Xfer.Net.Liveness
import Xfer.Process.Record
import Xfer.Transfer.Phases
import Xfer.Transfer.Session

/-! # What a sender can make the receiver do

Whatever the sender announces, every iteration of the record loop but the last
one takes a record header off the stream, and no more bytes are written to files
than have been received.
-/

namespace Xfer.Transfer

open Net Common Posix Process Code Program

variable {f : Faults} {s s' : Refs} {w w' : Side} {options : ReceiverOptions} {dir : Bytes} {n : ℕ}

/-- `receiveRecords`, counting the iterations that are begun. -/
def countRecords (options : ReceiverOptions) (dir : Bytes) : ℕ → Session (Bool × ℕ)
  | 0 => pure (true, 0)
  | n + 1 => do
    if !(← receiveRecord options dir) then pure (false, 1)
    else
      let (ok, k) ← countRecords options dir n
      pure (ok, k + 1)

/-- `receiveStream`, with the number of iterations that its record loop begins. -/
def countStream (options : ReceiverOptions) : Session (Bool × ℕ) := do
  let some (header, dir) ← openSession options | pure (false, 0)
  let (ok, k) ← countRecords options dir header.totalFiles.toNat
  if !ok then pure (false, k)
  else
    finishSession
    pure (true, k)

theorem fst_countRecords (options : ReceiverOptions) (dir : Bytes) (n : ℕ) :
    Prod.fst <$> countRecords options dir n = receiveRecords options dir n := by
  induction n with
  | zero => simp [countRecords, receiveRecords]
  | succ n ih =>
    rw [countRecords, receiveRecords, map_bind]
    congr 1
    funext ok
    cases ok with
    | false => simp
    | true =>
      simp only [Bool.not_true, Bool.false_eq_true, if_false]
      rw [← ih, map_bind]
      exact bind_pure_comp _ _

theorem fst_countStream (options : ReceiverOptions) :
    Prod.fst <$> countStream options = receiveStream options := by
  rw [countStream, receiveStream, map_bind]
  congr 1
  funext r
  cases r with
  | none => simp
  | some p =>
    obtain ⟨header, dir⟩ := p
    simp only
    rw [← fst_countRecords, map_bind, bind_map_left]
    congr 1
    funext r
    obtain ⟨ok, k⟩ := r
    cases ok
    · rfl
    · simp

theorem RecordOutcome.length_incoming_le {ok : Bool} (h : RecordOutcome f options dir s w ok s' w')
    (hok : ok = true) : w'.incoming.length + 18 ≤ w.incoming.length := by
  cases h with
  | skipped e rest he hi =>
    rw [hi, List.length_append, length_encodeFileHeader, World.incoming_reading]
    omega
  | stored e rest safe hne hl hi hv ho =>
    have := ho.suffix.length_le
    rw [World.incoming_reading] at this
    rw [hi, List.length_append, length_encodeFileHeader]
    omega
  | _ => cases hok

theorem OpenOutcome.length_incoming_le {r : Option (SessionHeader × Bytes)}
    (h : OpenOutcome f options s w r s' w') (hr : r.isSome) :
    w'.incoming.length ≤ w.incoming.length := by
  obtain ⟨⟨header, dir⟩, rfl⟩ := Option.isSome_iff_exists.mp hr
  cases h with
  | opened _ _ hh ho =>
    cases hh with
    | done buf rest _ hl hi hp =>
      cases ho with
      | ready =>
        rw [hi, List.length_append]
        exact Nat.le_add_left _ _

theorem always_countRecords : Always f (countRecords options dir n) s w fun r _ _ =>
    r.2 ≤ w.incoming.length / 18 + 1 := by
  induction n generalizing s w with
  | zero => exact Nat.zero_le _
  | succ n ih =>
    rw [countRecords, Always, wp_bind]
    apply wp_mono always_receiveRecord
    intro ok s₁ w₁ ho
    cases ok with
    | false => exact Nat.le_add_left 1 _
    | true =>
      simp only [Bool.not_true, Bool.false_eq_true, if_false]
      rw [wp_bind]
      refine wp_mono ih fun r _ _ hr => ?_
      have := ho.length_incoming_le rfl
      change r.2 + 1 ≤ _
      omega

/-! ## Written bytes are paid for by received ones -/

/-- What a call writes to a file. -/
def writes : Call → ℕ
  | .write data => data.length
  | _ => 0

/-- What an answer takes off the stream. -/
def receives : (c : Call) → c.Result → ℕ
  | .recv _, .ok bs => bs.1.length
  | _, _ => 0

theorem incoming_add_receives {c : Call} {r : c.Result} (h : machine f w c r w') :
    w'.incoming.length + receives c r ≤ w.incoming.length := by
  obtain ⟨h, i, o⟩ := w
  obtain ⟨h', i', o'⟩ := w'
  obtain ⟨a, hk, ha⟩ := h
  have hle : i'.length ≤ i.length := by
    cases a <;> simp only [Action.alone] at ha
    · rw [ha.1]
    · rw [ha.1]
    · rw [ha.1, List.length_append]
      exact Nat.le_add_left _ _
    · rw [ha.1, ha.2.1]
  cases c with
  | recv len =>
    obtain ⟨-, hk⟩ := hk
    cases r with
    | error e => exact hle
    | ok bs =>
      rcases hk with ⟨-, hz, -⟩ | ⟨rfl, -⟩ | ⟨-, hz, -⟩
      · simpa [receives, hz] using hle
      · have hi : i = bs.1 ++ i' := ha.1
        simp only [receives, hi, List.length_append]
        omega
      · simpa [receives, hz] using hle
  | _ => exact hle

theorem solvent_recv {len m : ℕ} :
    Solvent writes receives (recv len) s m fun r _ m' => r.1 < 0 ∨
      ∃ bs, r = (toInt bs.length, bs) ∧ bs.length ≤ len ∧ m' = m + bs.length := by
  unfold recv
  apply Solvent.bind (Q := fun r _ m' => m' = m + receives (.recv len) r)
  · exact ⟨Nat.zero_le _, fun _ _ hm => hm⟩
  · intro r s₁ m₁ hm
    cases r with
    | error e => exact Or.inl (Int.negSucc_lt_zero 0)
    | ok bs => exact solvent_pure.mpr (Or.inr ⟨bs.1, rfl, bs.2, hm⟩)

/-- A buffer that is received whole brings in its length. -/
theorem solvent_recvAll {len m : ℕ} (h : len < 2 ^ 31) :
    Solvent writes receives (recvAll len) s m fun r _ m' =>
      ∀ bs ∈ r, bs.length = len ∧ m' = m + len := by
  fun_induction recvAll len generalizing s m with
  | case1 =>
    rintro _ ⟨⟩
    exact ⟨rfl, rfl⟩
  | case2 len hlen ih =>
    apply Solvent.bind solvent_recv
    rintro ⟨k, buf⟩ s₁ m₁ hr
    simp only at hr ⊢
    split
    · split
      · exact fun _ h => absurd h (Option.not_mem_none _)
      · exact fun _ h => absurd h (Option.not_mem_none _)
    · rename_i hk
      obtain ⟨bs, he, hle, rfl⟩ := hr.resolve_left fun hlt => hk hlt.le
      obtain ⟨hkl, hb⟩ := Prod.mk.inj he
      rw [toInt_of_lt (hle.trans_lt h)] at hkl
      subst hb
      apply Solvent.bind (ih _ hk (by omega))
      intro r s₂ m₂ hr
      cases r with
      | none => exact fun _ h => absurd h (Option.not_mem_none _)
      | some rest =>
        obtain ⟨hl, rfl⟩ := hr rest rfl
        rintro _ ⟨⟩
        rw [List.length_append, List.length_take]
        omega

theorem solvent_receivePayload {remaining : UInt64} {crc : Crc32} {m : ℕ} :
    Solvent writes receives (receivePayload remaining crc) s m fun _ _ _ => True := by
  fun_induction receivePayload remaining crc generalizing s m with
  | case1 => trivial
  | case2 remaining crc h want =>
    rename_i ih
    have hw : want.toNat ≤ 2 ^ 20 := (toNat_chunk remaining).trans_le (Nat.min_le_right _ _)
    apply Solvent.bind (solvent_recvAll (by omega))
    intro r s₁ m₁ hr
    cases r with
    | none => trivial
    | some buf =>
      obtain ⟨hl, rfl⟩ := hr buf rfl
      apply Solvent.bind (Q := fun _ _ _ => True)
      · exact ⟨hl.trans_le (Nat.le_add_left _ _), fun _ _ _ => trivial⟩
      · intro ok s₂ m₂ _
        split
        · trivial
        · exact ih _

theorem solvent_receivePayloadToFile {target : Bytes} {size : UInt64} {expected : UInt32} {m : ℕ} :
    Solvent writes receives (receivePayloadToFile target size expected) s m fun _ _ _ => True := by
  apply (solvent_of_only (only_createParent (fun _ => rfl) target)).bind
  intro _ _ _ _
  apply (solvent_of_only (only_perform rfl)).bind
  intro ok _ _ _
  split
  · trivial
  · apply Solvent.bind (Q := fun _ _ _ => True)
    · apply solvent_receivePayload.bind
      intro r _ _ _
      split
      · split
        · trivial
        · trivial
      · trivial
    · intro ok _ _ _
      apply (solvent_of_only (only_perform rfl)).bind
      exact fun _ _ _ _ => trivial

theorem solvent_receiveRecord {m : ℕ} :
    Solvent writes receives (receiveRecord options dir) s m fun _ _ _ => True := by
  apply (solvent_of_only (only_readFileHeader fun _ => rfl)).bind
  intro r _ _ _
  split
  · split
    · trivial
    · unfold storeRecord
      split
      · trivial
      · apply solvent_receivePayloadToFile.bind
        intro ok _ _ _
        split
        · trivial
        · trivial
  · trivial

theorem solvent_receiveRecords {m : ℕ} :
    Solvent writes receives (receiveRecords options dir n) s m fun _ _ _ => True := by
  induction n generalizing s m with
  | zero => trivial
  | succ n ih =>
    apply solvent_receiveRecord.bind
    intro ok _ _ _
    split
    · trivial
    · exact ih

theorem solvent_receiveStream {m : ℕ} :
    Solvent writes receives (receiveStream options) s m fun _ _ _ => True := by
  have hopen : Only (writes · = 0) (openSession options) :=
    only_openSession (P := (writes · = 0)) (fun _ => rfl) (fun _ => rfl) rfl rfl (fun _ => rfl)
      options
  apply (solvent_of_only hopen).bind
  intro r _ _ _
  split
  · apply solvent_receiveRecords.bind
    intro ok _ _ _
    split
    · trivial
    · apply (solvent_of_only (only_finishSession (fun _ => rfl) rfl)).bind
      exact fun _ _ _ _ => trivial
  · trivial

theorem always_countStream : Always f (countStream options) s w fun r _ _ =>
    r.2 ≤ w.incoming.length / 18 + 1 := by
  rw [countStream, Always, wp_bind]
  apply wp_mono always_openSession
  intro r s₁ w₁ ho
  cases r with
  | none => exact Nat.zero_le _
  | some p =>
    obtain ⟨header, dir⟩ := p
    have hle := ho.length_incoming_le rfl
    simp only
    rw [wp_bind]
    apply wp_mono always_countRecords
    rintro ⟨ok, k⟩ s₂ w₂ hk
    have hk' : k ≤ w.incoming.length / 18 + 1 :=
      hk.trans (Nat.succ_le_succ (Nat.div_le_div_right hle))
    cases ok with
    | false => exact hk'
    | true =>
      simp only [Bool.not_true, Bool.false_eq_true, if_false]
      rw [wp_bind]
      exact wp_mono always_finishSession fun _ _ _ _ => hk'

/-- Whatever the stream announces, the session comes to an end, in which its record loop has begun
no more iterations than the stream has room for headers, and one, and has handed to files no more
bytes than the stream holds; and the payload loop subtracts nothing but what is there. -/
theorem receiveStream_bounded (f : Faults) (options : ReceiverOptions) (s : Refs) (w : Side) :
    (∃ r w', Exec (machine f) ((receiveStream options).run s) w r w') ∧
    Prod.fst <$> countStream options = receiveStream options ∧
    Always f (countStream options) s w (fun r _ _ => r.2 ≤ w.incoming.length / 18 + 1) ∧
    wp (logged (machine f)) (fun _ _ => True) (receiveStream options) s (w, [])
      (fun _ _ x => costs writes x.2 ≤ w.incoming.length) ∧
    ∀ remaining : UInt64, remaining ≠ 0 →
      0 < (chunk remaining).toNat ∧ (chunk remaining).toNat ≤ 2 ^ 20 ∧
        (chunk remaining).toNat ≤ remaining.toNat ∧
        (remaining - chunk remaining).toNat = remaining.toNat - (chunk remaining).toNat := by
  refine ⟨exists_exec (kernel_live f).alone_total _ _, fst_countStream options, always_countStream,
    ?_, fun remaining h => ?_⟩
  · have hs : Solvent writes receives (receiveStream options) s 0 fun _ _ _ => True :=
      solvent_receiveStream
    apply wp_mono (hs.logged (M := machine f) (μ := fun w => w.incoming.length)
      fun h => incoming_add_receives h)
    intro _ _ x hx
    have hx : costs writes x.2 + x.1.incoming.length ≤ 0 + w.incoming.length + 0 := hx
    omega
  · have hpos : remaining.toNat ≠ 0 := fun h0 => h (UInt64.toNat_inj.mp h0)
    have hle := chunk_le remaining
    rw [UInt64.toNat_sub_of_le _ _ hle]
    rw [UInt64.le_iff_toNat_le] at hle
    rw [toNat_chunk] at hle ⊢
    omega

end Xfer.Transfer
