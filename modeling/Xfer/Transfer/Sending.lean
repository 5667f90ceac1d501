import Xfer.Transfer.Reading

/-! # Sending the bytes of a file

Either loop of the sender writes what the file holds, in whatever portions the
kernel takes it, or stops at a fault or at the end of a file that is too short.
-/

namespace Xfer.Transfer

open Net Common Posix Process Code FileSystem

variable {f : Faults} {sock : Socket} {s s' : Refs} {w w' : Side} {k : Key} {b : Bytes}
  {size remaining offset : UInt64} {content : Option Bytes}

/-- What can keep the sender from sending. -/
def Trouble (f : Faults) (sock : Socket) : Prop :=
  f.net ∨ f.stall ∨ f.read ∨ sock.valid = false

/-- The content is sent, if there is one of the right size, or sending stops on the way. -/
inductive BytesOutcome (f : Faults) (sock : Socket) (content : Option Bytes) (size : UInt64)
    (s : Refs) (w : Side) : Bool → Refs → Side → Prop
  | sent (bs : Bytes) (p : UInt64) : content = some bs → bs.length = size.toNat →
      BytesOutcome f sock content size s w true { s with progress := p } (w.sent bs)
  | failed (ec : ErrorCode) (p : UInt64) (sent : Bytes) : sent <+: content.getD [] →
      Trouble f sock ∨ (∀ bs, content = some bs → bs.length ≠ size.toNat) →
      BytesOutcome f sock content size s w false { s with ec := ec, progress := p } (w.sent sent)

theorem BytesOutcome.after {bs : Bytes} {ok : Bool} {p : UInt64} (hpre : bs <+: b.drop offset.toNat)
    (hle : bs.length ≤ remaining.toNat)
    (h : BytesOutcome f sock (some ((b.drop (offset.toNat + bs.length)).take
      (remaining.toNat - bs.length))) (remaining - UInt64.ofNat bs.length)
      { s with progress := p } (w.sent bs) ok s' w') :
    BytesOutcome f sock (some ((b.drop offset.toNat).take remaining.toNat)) remaining s w ok
      s' w' := by
  have hrem : (remaining - UInt64.ofNat bs.length).toNat = remaining.toNat - bs.length :=
    toNat_sub_ofNat hle
  have hwhole : bs ++ (b.drop (offset.toNat + bs.length)).take (remaining.toNat - bs.length) =
      (b.drop offset.toNat).take remaining.toNat := by
    rw [← List.drop_drop, take_append_take_drop hpre hle]
  cases h with
  | sent rest p' hr hl =>
    obtain rfl := Option.some.inj hr
    rw [World.sent_sent, hwhole]
    refine .sent _ p' rfl ?_
    rw [← hwhole, List.length_append, hl, hrem]
    omega
  | failed ec p' sent hs hf =>
    rw [World.sent_sent]
    refine .failed ec p' _ ?_ (hf.imp_right ?_)
    · rw [Option.getD_some, ← hwhole, List.prefix_append_right_inj]
      exact hs
    · rintro hno _ ⟨⟩ hl
      refine hno _ rfl ?_
      rw [← hwhole, List.length_append] at hl
      omega

theorem BytesOutcome.stop (ec : ErrorCode)
    (h : Trouble f sock ∨ (∀ bs, content = some bs → bs.length ≠ size.toNat)) :
    BytesOutcome f sock content size s w false { s with ec := ec } w := by
  have ho : BytesOutcome f sock content size s w false { s with ec := ec, progress := s.progress }
      (w.sent []) := .failed ec s.progress [] List.nil_prefix h
  rwa [World.sent_nil] at ho

theorem length_ne_of_end (hend : b.drop offset.toNat = []) (h0 : remaining.toNat ≠ 0) :
    ∀ bs, some ((b.drop offset.toNat).take remaining.toNat) = some bs →
      bs.length ≠ remaining.toNat := by
  rintro _ ⟨⟩
  rw [hend, List.take_nil]
  exact Ne.symm h0

theorem always_preadLoop (hk : w.host.fs.lookup k = some (.file b)) (hb : b.length < 2 ^ 63)
    (ho : offset.toNat ≤ b.length) :
    Always f (preadLoop k offset remaining) s w (BytesOutcome f sock
      (some ((b.drop offset.toNat).take remaining.toNat)) remaining s w) := by
  induction hn : remaining.toNat using Nat.strong_induction_on
    generalizing remaining offset s w with
  | _ n ih =>
    subst hn
    unfold preadLoop
    split
    · rename_i h0
      subst h0
      rw [Always, wp_pure]
      have h : BytesOutcome f sock (some []) 0 s w true { s with progress := s.progress }
          (w.sent []) := .sent [] s.progress rfl rfl
      rwa [World.sent_nil] at h
    · rename_i h0
      have hr0 : remaining.toNat ≠ 0 := fun he => h0 (UInt64.toNat_inj.mp he)
      have hc := toNat_chunk remaining
      rw [Always, wp_bind]
      apply wp_mono (always_pread hk (by omega) (by omega))
      rintro r t w ⟨rfl, rfl, hr⟩
      rcases r with e | ⟨bs, hbs⟩
      · exact .stop _ (Or.inl (Or.inr (Or.inr (Or.inl hr))))
      · obtain ⟨hpre, hnil⟩ := hr
        simp only at hpre hnil ⊢
        split
        · rename_i hz
          rw [wp_pure]
          have hend := hnil (List.length_eq_zero_iff.mp hz)
          exact .stop t.ec (Or.inr (length_ne_of_end hend hr0))
        · rename_i hz
          have hle := hpre.length_le
          rw [List.length_drop] at hle
          have hoff : (offset + UInt64.ofNat bs.length).toNat = offset.toNat + bs.length :=
            toNat_add_ofNat (by omega)
          have hrem : (remaining - UInt64.ofNat bs.length).toNat = remaining.toNat - bs.length :=
            toNat_sub_ofNat (by omega)
          rw [wp_bind]
          apply wp_mono (wp_sendAll (by omega) fun _ _ _ _ => trivial)
          rintro _ _ _ (_ | ⟨ec, sent, hs, hf, he⟩)
          · simp only [Bool.not_true, Bool.false_eq_true, if_false]
            rw [wp_bind, wp_addProgress]
            refine wp_mono (ih _ (by omega) (w := w.sent bs) hk (by omega) hrem) ?_
            intro ok s' w' hout
            rw [hoff] at hout
            exact hout.after hpre (by omega)
          · have hle : sent.length ≤ remaining.toNat := by
              have := hs.length_le
              omega
            refine .failed ec t.progress sent ?_ (Or.inl (hf.imp_right Or.inl))
            exact List.prefix_take_iff.mpr ⟨hs.trans hpre, hle⟩

/-- Of a file, `sendfile` sends a part of what is there, which is not empty before the end. -/
theorem always_sendfile (hk : w.host.fs.lookup k = some (.file b)) {signals off want : ℕ}
    (ho : off < 2 ^ 63) (hw : want ≠ 0) :
    Always f (perform (.sendfile signals k off want)) s w fun r s' w' => s' = s ∧ match r with
      | .sent n _ => n ≤ (b.drop off).length ∧ w' = w.sent ((b.drop off).take n) ∧
          (n = 0 → b.drop off = [])
      | .interrupted _ => w' = w
      | .error _ => w' = w ∧ (f.net ∨ f.read) := by
  rw [always_perform]
  rintro r ⟨h', i', o'⟩ ⟨a, ⟨rfl, hr⟩, ha⟩
  refine ⟨rfl, ?_⟩
  rw [readable_eq hk ho] at hr
  cases r with
  | sent n hle =>
    obtain ⟨c, hc, ⟨rfl, rfl, hend⟩ | ⟨rfl, hpos, hlen⟩⟩ := hr
    · obtain ⟨rfl, rfl⟩ := ha
      obtain rfl := Option.some.inj hc
      refine ⟨Nat.zero_le _, ?_, fun _ => hend.resolve_right hw⟩
      rw [List.take_zero, World.sent_nil]
    · obtain ⟨rfl, rfl⟩ := ha
      obtain rfl := Option.some.inj hc
      exact ⟨hlen, rfl, fun h0 => absurd h0 hpos.ne'⟩
  | interrupted hp =>
    obtain rfl := hr
    obtain ⟨rfl, rfl⟩ := ha
    rfl
  | error e =>
    rcases hr with ⟨rfl, hf⟩ | ⟨rfl, -⟩
    · obtain ⟨rfl, rfl⟩ := ha
      refine ⟨rfl, hf.imp_right fun h => h.resolve_right (by simp)⟩
    · exact ha.elim

theorem always_sendfileLoop (hk : w.host.fs.lookup k = some (.file b)) (hb : b.length < 2 ^ 63)
    (ho : offset.toNat ≤ b.length) (signals : ℕ) :
    Always f (sendfileLoop k signals offset remaining) s w fun r s' w' => BytesOutcome f sock
      (some ((b.drop offset.toNat).take remaining.toNat)) remaining s w r.ok s' w' := by
  induction hn : remaining.toNat using Nat.strong_induction_on
    generalizing remaining offset signals s w with
  | _ n ih =>
    subst hn
    induction signals using Nat.strong_induction_on generalizing s w with
    | _ signals ihs =>
    unfold sendfileLoop
    split
    · rename_i h0
      subst h0
      rw [Always, wp_pure]
      have h : BytesOutcome f sock (some []) 0 s w true { s with progress := s.progress }
          (w.sent []) := .sent [] s.progress rfl rfl
      rwa [World.sent_nil] at h
    · rename_i h0
      have hr0 : remaining.toNat ≠ 0 := fun he => h0 (UInt64.toNat_inj.mp he)
      generalize hwant : (if remaining > kMaxSendfile then kMaxSendfile else remaining) = want
      have hw : want.toNat ≠ 0 ∧ want.toNat ≤ remaining.toNat := by
        rw [← hwant]
        split
        · rename_i hlt
          exact ⟨by decide, Nat.le_of_lt hlt⟩
        · exact ⟨hr0, le_rfl⟩
      rw [Always, wp_bind]
      apply wp_mono (always_sendfile hk (by omega) hw.1)
      rintro r t w' ⟨rfl, hr⟩
      cases r with
      | interrupted hp =>
        obtain rfl := hr
        exact ihs (signals - 1) (by omega) hk
      | error e =>
        obtain ⟨rfl, hf⟩ := hr
        exact .stop _ (Or.inl (hf.imp_right fun h => Or.inr (Or.inl h)))
      | sent n hle =>
        obtain ⟨hlen, rfl, hnil⟩ := hr
        simp only
        split
        · rename_i hz
          subst hz
          rw [List.take_zero, World.sent_nil]
          exact .stop _ (Or.inr (length_ne_of_end (hnil rfl) hr0))
        · rename_i hz
          have hpre : (b.drop offset.toNat).take n <+: b.drop offset.toNat := List.take_prefix _ _
          have hl : ((b.drop offset.toNat).take n).length = n := List.length_take_of_le hlen
          rw [List.length_drop] at hlen
          have hoff : (offset + UInt64.ofNat n).toNat = offset.toNat + n := toNat_add_ofNat (by omega)
          have hrem : (remaining - UInt64.ofNat n).toNat = remaining.toNat - n :=
            toNat_sub_ofNat (by omega)
          rw [wp_map]
          have hle' : (offset + UInt64.ofNat n).toNat ≤ b.length := by omega
          refine wp_mono (ih _ (by omega) (w := w.sent _) hk hle' _ hrem) ?_
          intro p s' w' hout
          have hle : ((b.drop offset.toNat).take n).length ≤ remaining.toNat := by omega
          refine BytesOutcome.after (p := t.progress) hpre hle ?_
          rw [hl, ← hoff]
          exact hout

theorem BytesOutcome.no_content (ec : ErrorCode) :
    BytesOutcome f sock none size s w false { s with ec := ec } w :=
  .stop ec (Or.inr (by simp))

theorem always_sendfileLoop_of_not_file (hk : ∀ b, w.host.fs.lookup k ≠ some (.file b))
    (h0 : remaining ≠ 0) (signals : ℕ) :
    Always f (sendfileLoop k signals offset remaining) s w fun r s' w' =>
      BytesOutcome f sock none remaining s w r.ok s' w' := by
  induction signals using Nat.strong_induction_on generalizing s w with
  | _ signals ih =>
    unfold sendfileLoop
    rw [dif_neg h0, Always, wp_bind, ← Always, always_perform]
    rintro r ⟨h', i', o'⟩ ⟨a, ⟨rfl, hr⟩, ha⟩
    rw [readable_of_not_file hk] at hr
    cases r with
    | sent n hle =>
      obtain ⟨c, hc, -⟩ := hr
      cases hc
    | interrupted hp =>
      obtain rfl := hr
      obtain ⟨rfl, rfl⟩ := ha
      exact ih (signals - 1) (by omega) hk
    | error e =>
      rcases hr with ⟨rfl, -⟩ | ⟨-, -, c, hc, -⟩
      · obtain ⟨rfl, rfl⟩ := ha
        exact .no_content _
      · cases hc

theorem always_sendFromFd (hs : Addressable w.host.fs) (h0 : size ≠ 0) (signals : ℕ) :
    Always f (sendFromFd sock signals k 0 size) s w fun r s' w' =>
      BytesOutcome f sock (payload w.host.fs k size) size s w r.ok s' w' := by
  unfold sendFromFd
  split
  · rename_i hv
    have hv' : sock.valid = false := by simpa using hv
    exact .stop _ (Or.inl (Or.inr (Or.inr (Or.inr hv'))))
  · by_cases hk : ∃ b, w.host.fs.lookup k = some (.file b)
    · obtain ⟨b, hk⟩ := hk
      rw [payload_file hk]
      exact always_sendfileLoop hk (hs hk) (Nat.zero_le _) signals
    · rw [not_exists] at hk
      rw [payload_of_not_file hk h0]
      exact always_sendfileLoop_of_not_file hk h0 signals

theorem always_zeroCopyLoop (hs : Addressable w.host.fs) (h0 : size ≠ 0) (signals : ℕ) :
    Always f (zeroCopyLoop sock signals k 0 size) s w
      (BytesOutcome f sock (payload w.host.fs k size) size s w) := by
  unfold zeroCopyLoop
  rw [dif_neg h0, Always, wp_bind]
  apply wp_mono (always_sendFromFd hs h0 signals)
  rintro ⟨ok, reached, all⟩ s' w' ho
  cases ok with
  | false => exact ho
  | true =>
    -- everything has been sent in one go, so the loop comes to its end
    have hr : reached - 0 = size := by rw [all rfl, UInt64.zero_add, UInt64.sub_zero]
    simp only [dite_true, hr, h0, if_false]
    rw [wp_bind, wp_addProgress, UInt64.sub_self]
    unfold zeroCopyLoop
    rw [dif_pos rfl, wp_pure]
    cases ho with
    | sent bs p hc hl => exact .sent bs _ hc hl

theorem always_preadLoop_of_not_file (hk : ∀ b, w.host.fs.lookup k ≠ some (.file b))
    (h0 : remaining ≠ 0) : Always f (preadLoop k offset remaining) s w
      (BytesOutcome f sock none remaining s w) := by
  unfold preadLoop
  rw [dif_neg h0, Always, wp_bind]
  apply wp_mono (always_pread_of_not_file hk)
  rintro r t w ⟨rfl, rfl, e, rfl⟩
  exact .no_content _

theorem always_sendFileBytes (hs : Addressable w.host.fs) (signals : ℕ) (zeroCopy : Bool) :
    Always f (sendFileBytes sock signals k size zeroCopy) s w
      (BytesOutcome f sock (payload w.host.fs k size) size s w) := by
  unfold sendFileBytes
  split
  · rename_i h0
    subst h0
    have h : BytesOutcome f sock (payload w.host.fs k 0) 0 s w true { s with progress := s.progress }
        (w.sent []) := .sent [] s.progress rfl rfl
    rwa [World.sent_nil] at h
  · rename_i h0
    split
    · exact always_zeroCopyLoop hs h0 signals
    · by_cases hk : ∃ b, w.host.fs.lookup k = some (.file b)
      · obtain ⟨b, hk⟩ := hk
        rw [payload_file hk]
        exact always_preadLoop hk (hs hk) (Nat.zero_le _)
      · rw [not_exists] at hk
        rw [payload_of_not_file hk h0]
        exact always_preadLoop_of_not_file hk h0

end Xfer.Transfer
