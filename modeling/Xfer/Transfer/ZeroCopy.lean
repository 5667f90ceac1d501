import Xfer.Net.Returning
import Xfer.Transfer.Sending

/-! # The zero-copy path and the plain one

Where no call fails, both loops of `SendFileBytes` send the same part of a file,
return the same verdict, and add the same to the progress counter.
-/

namespace Xfer.Transfer

open Net Common Posix Process Code FileSystem

variable {sock : Socket} {s s' : Refs} {w w' : Side} {k : Key} {b bs content rest : Bytes}
  {size remaining offset : UInt64} {ok : Bool}

/-- The first `remaining` bytes of `content` are sent, or as many as there are, and the verdict is
whether there are enough. -/
structure Delivers (content : Bytes) (remaining : UInt64) (s : Refs) (w : Side) (ok : Bool)
    (s' : Refs) (w' : Side) : Prop where
  sent : w' = w.sent (content.take remaining.toNat)
  ok_iff : ok = true ↔ remaining.toNat ≤ content.length
  progress : ok = true → s'.progress = s.progress + remaining

theorem delivers_zero : Delivers content 0 s w true s w where
  sent := (World.sent_nil w).symm
  ok_iff := iff_of_true rfl (Nat.zero_le _)
  progress _ := (UInt64.add_zero _).symm

theorem delivers_nil (h0 : remaining ≠ 0) : Delivers [] remaining s w false s' w where
  sent := by rw [List.take_nil, World.sent_nil]
  ok_iff := by
    have : remaining.toNat ≠ 0 := fun h => h0 (UInt64.toNat_inj.mp h)
    simp [this]
  progress h := by cases h

theorem Delivers.after (hle : bs.length ≤ remaining.toNat)
    (h : Delivers rest (remaining - UInt64.ofNat bs.length)
      { s with progress := s.progress + UInt64.ofNat bs.length } (w.sent bs) ok s' w') :
    Delivers (bs ++ rest) remaining s w ok s' w' := by
  obtain ⟨rfl, hok, hp⟩ := h
  rw [toNat_sub_ofNat hle] at *
  constructor
  · rw [World.sent_sent, List.take_append, List.take_of_length_le hle]
  · rw [hok, List.length_append]
    omega
  · intro h
    rw [hp h, UInt64.add_assoc, UInt64.add_comm (UInt64.ofNat _), UInt64.sub_add_cancel]

theorem delivers_preadLoop (hk : w.host.fs.lookup k = some (.file b)) (hb : b.length < 2 ^ 63)
    (ho : offset.toNat ≤ b.length) :
    Always .none (preadLoop k offset remaining) s w (Delivers (b.drop offset.toNat) remaining s w) := by
  induction hn : remaining.toNat using Nat.strong_induction_on
    generalizing remaining offset s w with
  | _ n ih =>
    subst hn
    unfold preadLoop
    split
    · rename_i h0
      subst h0
      rw [Always, wp_pure]
      exact delivers_zero
    · rename_i h0
      have hc := toNat_chunk remaining
      have hr0 : remaining.toNat ≠ 0 := fun he => h0 (UInt64.toNat_inj.mp he)
      rw [Always, wp_bind]
      apply wp_mono (always_pread hk (by omega) (by omega))
      rintro r t w ⟨rfl, rfl, hr⟩
      rcases r with e | ⟨bs, hbs⟩
      · exact hr.elim
      · obtain ⟨⟨rest, hrest⟩, hnil⟩ := hr
        simp only at hrest hnil ⊢
        split
        · rename_i hz
          rw [wp_pure, hnil (List.length_eq_zero_iff.mp hz)]
          exact delivers_nil h0
        · rename_i hz
          have hlen := congrArg List.length hrest
          rw [List.length_append, List.length_drop] at hlen
          have hoff : (offset + UInt64.ofNat bs.length).toNat = offset.toNat + bs.length :=
            toNat_add_ofNat (by omega)
          have hrem : (remaining - UInt64.ofNat bs.length).toNat = remaining.toNat - bs.length :=
            toNat_sub_ofNat (by omega)
          rw [wp_bind]
          apply wp_mono (wp_sendAll (by omega) fun _ _ _ _ => trivial)
          rintro _ _ _ (_ | ⟨ec, sent, hs, hf | hf, he⟩)
          · simp only [Bool.not_true, Bool.false_eq_true, if_false]
            rw [wp_bind, wp_addProgress]
            refine wp_mono (ih _ (by omega) (w := w.sent bs) hk (by omega) hrem) ?_
            intro ok s' w' h
            rw [hoff, ← List.drop_drop, ← hrest, List.drop_left] at h
            rw [← hrest]
            exact h.after (by omega)
          · exact hf.elim
          · exact hf.elim

theorem beyond_file (hk : w.host.fs.lookup k = some (.file b)) {o : ℕ} (ho : o < 2 ^ 63) :
    beyond w.host k o = b.drop o := by
  rw [beyond, readable_eq hk ho, Option.getD_some]

theorem delivers_sendFromFd (hv : sock.valid = true) (hk : w.host.fs.lookup k = some (.file b))
    (hb : b.length < 2 ^ 63) (h0 : size ≠ 0) (signals : ℕ) :
    Always .none (sendFromFd sock signals k 0 size) s w fun r s' w' =>
      w' = w.sent (b.take size.toNat) ∧ (r.ok = true ↔ size.toNat ≤ b.length) ∧
        s'.progress = s.progress := by
  unfold sendFromFd
  rw [if_neg (by simp [hv]), dif_neg h0]
  apply wp_mono always_sendfileLoop_accounted
  rintro r s' _ ⟨n, ⟨rfl, hlen, -⟩, hle, hok, hp, hstop⟩
  have hall : beyond w.host k (0 : UInt64).toNat = b := beyond_file hk (by decide)
  rw [hall] at hlen ⊢
  -- the loop has stopped at the end of the file, or with everything sent
  have hend : r.ok = false → n = b.length := by
    intro hf
    rcases hstop hf with h | h | h
    · exact h.elim
    · exact h.elim
    · rw [UInt64.toNat_zero, Nat.zero_add, beyond_file hk (by omega), List.drop_eq_nil_iff] at h
      omega
  refine ⟨?_, ?_, hp⟩
  · cases hr : r.ok with
    | true => rw [hok.mp hr]
    | false =>
      have hn := hend hr
      rw [List.take_of_length_le hn.ge, List.take_of_length_le (by omega)]
  · constructor
    · intro hr
      have hn := hok.mp hr
      omega
    · intro hsize
      by_contra hr
      have hn := hend (by simpa using hr)
      exact hr (hok.mpr (by omega))

/-- The outer loop of the zero-copy path is left after its first round. -/
theorem delivers_zeroCopyLoop (hv : sock.valid = true)
    (hk : w.host.fs.lookup k = some (.file b)) (hb : b.length < 2 ^ 63) (h0 : size ≠ 0)
    (signals : ℕ) :
    Always .none (zeroCopyLoop sock signals k 0 size) s w (Delivers b size s w) := by
  unfold zeroCopyLoop
  rw [dif_neg h0, Always, wp_bind]
  apply wp_mono (delivers_sendFromFd hv hk hb h0 signals)
  rintro ⟨ok, reached, all⟩ s' w' ⟨rfl, hok, hp⟩
  cases ok with
  | false => exact ⟨rfl, hok, fun h => by cases h⟩
  | true =>
    have hr : reached - 0 = size := by rw [all rfl, UInt64.zero_add, UInt64.sub_zero]
    simp only [dite_true, hr, h0, if_false]
    rw [wp_bind, wp_addProgress, UInt64.sub_self]
    unfold zeroCopyLoop
    rw [dif_pos rfl, wp_pure]
    exact ⟨rfl, hok, fun _ => by simp only [hp]⟩

theorem delivers_sendFileBytes (hv : sock.valid = true) (hk : w.host.fs.lookup k = some (.file b))
    (hb : b.length < 2 ^ 63) (signals : ℕ) (zeroCopy : Bool) :
    Always .none (sendFileBytes sock signals k size zeroCopy) s w (Delivers b size s w) := by
  unfold sendFileBytes
  split
  · rename_i h0
    subst h0
    exact delivers_zero
  · rename_i h0
    split
    · exact delivers_zeroCopyLoop hv hk hb h0 signals
    · exact delivers_preadLoop hk hb (Nat.zero_le _)

theorem Delivers.unique {ok₁ ok₂ : Bool} {s₁ s₂ : Refs} {w₁ w₂ : Side}
    (h₁ : Delivers content size s w ok₁ s₁ w₁) (h₂ : Delivers content size s w ok₂ s₂ w₂) :
    w₁ = w₂ ∧ ok₁ = ok₂ ∧ (ok₁ = true → s₁.progress = s₂.progress) := by
  have hok : ok₁ = ok₂ := Bool.eq_iff_iff.mpr (h₁.ok_iff.trans h₂.ok_iff.symm)
  exact ⟨h₁.sent.trans h₂.sent.symm, hok, fun h => by rw [h₁.progress h, h₂.progress (hok ▸ h)]⟩

/-- Whether `SendFileBytes` takes the zero-copy path or the plain one, it sends what the file has
of the bytes that are asked for. So what it sends, reports and counts is the same. -/
theorem sendFileBytes_agrees (sock : Socket) (signals : ℕ) (k : Fd) (b : Bytes) (size : UInt64)
    (s : Refs) (w : Side) (hv : sock.valid = true) (hk : w.host.fs.lookup k = some (.file b))
    (hb : b.length < 2 ^ 63) :
    (∀ zeroCopy, Always .none (sendFileBytes sock signals k size zeroCopy) s w
        (Delivers b size s w)) ∧
      ∀ ok₁ ok₂ s₁ s₂ w₁ w₂,
        Program.Exec (machine .none) ((sendFileBytes sock signals k size true).run s) w (ok₁, s₁) w₁ →
        Program.Exec (machine .none) ((sendFileBytes sock signals k size false).run s) w (ok₂, s₂) w₂ →
        w₁ = w₂ ∧ ok₁ = ok₂ ∧ (ok₁ = true → s₁.progress = s₂.progress) := by
  have hall : ∀ zeroCopy, Always .none (sendFileBytes sock signals k size zeroCopy) s w
      (Delivers b size s w) := delivers_sendFileBytes hv hk hb signals
  refine ⟨hall, fun ok₁ ok₂ s₁ s₂ w₁ w₂ h₁ h₂ => ?_⟩
  have hd₁ := Program.Ensures.of_exec (hall true) h₁
  have hd₂ := Program.Ensures.of_exec (hall false) h₂
  exact hd₁.unique hd₂

/-- Two bytes are asked for of a file that has one, and a signal interrupts the first call. -/
theorem shrunk_agrees :
    Always .none (sendFileBytes ⟨3⟩ 1 [[0x61]] 2 true) {} shrunk (Delivers [0x31] 2 {} shrunk) :=
  (sendFileBytes_agrees ⟨3⟩ 1 [[0x61]] [0x31] 2 {} shrunk (by decide) (by decide) (by decide)).1 true

end Xfer.Transfer
