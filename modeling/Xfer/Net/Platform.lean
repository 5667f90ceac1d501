import Xfer.Net.Counts
import Xfer.Process.Loop
import Xfer.Process.Record

/-! # The other variants of the zero-copy send

`SendFromFd` as it is compiled for macOS and for platforms without `sendfile`.
These loops end only when the file has the bytes that are asked for, or when
the end of the file is noticed. The Linux variant is in `Socket`.
-/

namespace Xfer.Net

open Process Posix Code

/-- `EINTR`. -/
def eintr : Errc := .other 4

/-- The variables of the loops of `SendFromFd`. -/
structure Cursor where
  offset : UInt64
  remaining : UInt64

def Cursor.advance (p : Cursor) (n : ℕ) : Cursor :=
  ⟨p.offset + UInt64.ofNat n, p.remaining - UInt64.ofNat n⟩

/-- The verdict of `SendFromFd`, and `offset_in_out`. -/
structure Report where
  ok : Bool
  reached : UInt64

section Variants

variable {C : Type} {R : C → Type}

/-- `SendFromFd` fails with an error code. -/
def giveUp (e : Errc) (reached : UInt64) : Code R Refs (Cursor ⊕ Report) := do
  modify fun s => { s with ec := some e }
  pure (.inr ⟨false, reached⟩)

/-- What all variants of `SendFromFd` begin with. -/
def enter (sock : Socket) (offsetInOut length : UInt64) : Code R Refs (Cursor ⊕ Report) :=
  if ¬ sock.valid then giveUp .badFileDescriptor offsetInOut
  else if length = 0 then pure (.inr ⟨true, offsetInOut⟩)
  else pure (.inl ⟨offsetInOut, length⟩)

end Variants

inductive DarwinCall where
  | sendfile (fd : Fd) (offset len : ℕ)

/-- Darwin's `sendfile` fails if `errno` is there. In either case `len` is what it has sent. -/
structure DarwinSendfile (want : ℕ) where
  errno : Option Errc
  len : ℕ
  le : len ≤ want

abbrev DarwinCall.Result : DarwinCall → Type
  | sendfile _ _ len => DarwinSendfile len

/-- `SendFromFd` on macOS. -/
def appleSendFromFd (sock : Socket) (fd : Fd) (offsetInOut length : UInt64) :
    Loop DarwinCall.Result Refs Cursor Report where
  start := enter sock offsetInOut length
  body p :=
    if p.remaining = 0 then pure (.inr ⟨true, p.offset⟩) else do
      let want := if p.remaining > kMaxSendfile then kMaxSendfile else p.remaining
      let r ← Code.issue (.sendfile fd p.offset.toNat want.toNat)
      match r.errno with
      | some e => if e = eintr then pure (.inl (p.advance r.len)) else giveUp e p.offset
      | none => pure (.inl (p.advance r.len))

/-- The size of the buffer of the portable variant. -/
def kFallbackBufSize : UInt64 := 4 * 1024 * 1024

/-- `SendFromFd` on platforms that have no `sendfile`. -/
def portableSendFromFd (sock : Socket) (fd : Fd) (offsetInOut length : UInt64) :
    Loop Call.Result Refs Cursor Report where
  start := enter sock offsetInOut length
  body p :=
    if p.remaining = 0 then pure (.inr ⟨true, p.offset⟩) else do
      let want := if p.remaining < kFallbackBufSize then p.remaining else kFallbackBufSize
      match ← perform (.pread fd want.toNat p.offset.toNat) with
      | .error e => if e = eintr then pure (.inl p) else giveUp e p.offset
      | .ok bs =>
        if bs.1 = [] then giveUp .ioError p.offset
        else if ¬ (← sendAll bs.1) then pure (.inr ⟨false, p.offset⟩)
        else pure (.inl (p.advance bs.1.length))

/-- The bytes of a file from an offset on, where a descriptor can be read. -/
def beyond (h : Host) (fd : Fd) (offset : ℕ) : Bytes := (h.readable fd offset).getD []

/-- Darwin's answers: like Linux's, but an error may come after some bytes have been sent. -/
def darwin (f : Faults) : Machine DarwinCall.Result Side := fun w c r w' =>
  match c, r with
  | .sendfile fd offset want, r => r.len ≤ (beyond w.host fd offset).length ∧
      w' = w.sent ((beyond w.host fd offset).take r.len) ∧ match r.errno with
        | none => w.host.readable fd offset ≠ none ∧
            (r.len = 0 → beyond w.host fd offset = [] ∨ want = 0)
        | some e => e = eintr ∨ f.net ∨ f.read ∨ w.host.readable fd offset = none

variable {f : Faults} {sock : Socket} {fd : Fd} {offset length p q : UInt64} {n m : ℕ} {h : Host}
  {w w' w'' : Side} {s : Refs}

theorem beyond_sent (bs : Bytes) : beyond (w.sent bs).host fd = beyond w.host fd := rfl

theorem lt_of_beyond_ne_nil {o : ℕ} (hb : beyond h fd o ≠ []) : o < 2 ^ 63 := by
  by_contra ho
  refine hb ?_
  unfold beyond Host.readable
  split
  · rw [if_neg ho, Option.getD_none]
  · rfl

theorem beyond_add {o : ℕ} (ho : o + m < 2 ^ 63) :
    beyond h fd (o + m) = (beyond h fd o).drop m := by
  unfold beyond Host.readable
  split
  · rw [if_pos ho, if_pos (by omega), Option.getD_some, Option.getD_some, List.drop_drop]
  · rw [Option.getD_none, List.drop_nil]

/-- The first `n` bytes from an offset on have been handed to the socket, and the count is
right. -/
structure Accounted (w : Side) (fd : Fd) (offset : UInt64) (n : ℕ) (reached : UInt64) (w' : Side) :
    Prop where
  sent : w' = w.sent ((beyond w.host fd offset.toNat).take n)
  there : n ≤ (beyond w.host fd offset.toNat).length
  reached : reached.toNat = offset.toNat + n

theorem Accounted.zero : Accounted w fd offset 0 offset w :=
  ⟨by rw [List.take_zero, World.sent_nil], Nat.zero_le _, rfl⟩

theorem Accounted.one (hn : n ≤ (beyond w.host fd p.toNat).length) (hlt : n ≤ 2 ^ 30) :
    Accounted w fd p n (p + UInt64.ofNat n) (w.sent ((beyond w.host fd p.toNat).take n)) := by
  refine ⟨rfl, hn, toNat_add_ofNat ?_⟩
  by_cases hb : beyond w.host fd p.toNat = []
  · rw [hb, List.length_nil] at hn
    have := p.toNat_lt
    omega
  · have := lt_of_beyond_ne_nil hb
    omega

theorem Accounted.trans (h : Accounted w fd offset n p w') (h' : Accounted w' fd p m q w'') :
    Accounted w fd offset (n + m) q w'' := by
  obtain ⟨rfl, hn, hp⟩ := h
  obtain ⟨rfl, hm, hq⟩ := h'
  rw [beyond_sent, hp] at hm ⊢
  by_cases hb : beyond w.host fd (offset.toNat + n) = []
  · rw [hb, List.length_nil] at hm
    obtain rfl : m = 0 := by omega
    rw [List.take_zero, World.sent_nil]
    exact ⟨rfl, hn, by omega⟩
  · rw [beyond_add (lt_of_beyond_ne_nil hb)] at hm ⊢
    rw [List.length_drop] at hm
    exact ⟨by rw [World.sent_sent, List.take_add], by omega, by omega⟩

theorem Accounted.unique (h : Accounted w fd offset n p w')
    (h' : Accounted w fd offset m q w') : n = m := by
  have := congrArg World.outgoing (h.sent.symm.trans h'.sent)
  rw [World.outgoing_sent, World.outgoing_sent, List.append_cancel_left_eq] at this
  have := congrArg List.length this
  rw [List.length_take_of_le h.there, List.length_take_of_le h'.there] at this
  exact this

/-- Whatever `sendfile` returns, it has sent as many bytes as it says. Without faults it sends
something until it comes to the end of the file. -/
theorem always_sendfile_count {signals off want : ℕ} (hw : want ≠ 0) :
    Always f (perform (.sendfile signals fd off want)) s w fun r s' w' => s' = s ∧
      r.count ≤ (beyond w.host fd off).length ∧
      w' = w.sent ((beyond w.host fd off).take r.count) ∧
      (r.count = 0 → (∃ h, r = .interrupted h) ∨ f.net ∨ f.read ∨ beyond w.host fd off = []) := by
  rw [always_perform]
  rintro r ⟨h', i', o'⟩ ⟨a, ⟨rfl, hr⟩, ha⟩
  refine ⟨rfl, ?_⟩
  cases r with
  | sent n hle =>
    obtain ⟨c, hc, hr⟩ := hr
    simp only [beyond, hc, Option.getD_some, Sendfile.count]
    rcases hr with ⟨rfl, rfl, hend⟩ | ⟨rfl, hpos, hlen⟩
    · obtain ⟨rfl, rfl⟩ := ha
      refine ⟨Nat.zero_le _, by rw [List.take_zero, World.sent_nil], fun _ => ?_⟩
      exact Or.inr (Or.inr (Or.inr (hend.resolve_right hw)))
    · obtain ⟨rfl, rfl⟩ := ha
      exact ⟨hlen, rfl, fun h0 => absurd h0 hpos.ne'⟩
  | interrupted hp =>
    obtain rfl := hr
    obtain ⟨rfl, rfl⟩ := ha
    exact ⟨Nat.zero_le _, (World.sent_nil _).symm, fun _ => Or.inl ⟨hp, rfl⟩⟩
  | error e =>
    rcases hr with ⟨rfl, hf⟩ | ⟨rfl, -⟩
    · obtain ⟨rfl, rfl⟩ := ha
      refine ⟨Nat.zero_le _, (World.sent_nil _).symm, fun _ => Or.inr ?_⟩
      refine hf.imp_right (Or.imp_right fun hno => ?_)
      rw [beyond, hno, Option.getD_none]
    · exact ha.elim

/-- The loop of `SendFromFd` on Linux has handed over `n` bytes and counted them. Without faults
it stops early only at the end of the file. -/
structure SendfileOutcome (f : Faults) (fd : Fd) (offset length : UInt64) (s : Refs) (w : Side)
    (n : ℕ) (ok : Bool) (reached : UInt64) (s' : Refs) (w' : Side) : Prop where
  accounted : Accounted w fd offset n reached w'
  le : n ≤ length.toNat
  ok_iff : ok = true ↔ n = length.toNat
  progress : s'.progress = s.progress
  stopped : ok = false → f.net ∨ f.read ∨ beyond w.host fd (offset.toNat + n) = []

theorem SendfileOutcome.stop {ec : ErrorCode} (h0 : length ≠ 0)
    (hf : f.net ∨ f.read ∨ beyond w.host fd offset.toNat = []) :
    SendfileOutcome f fd offset length s w 0 false offset { s with ec := ec } w where
  accounted := .zero
  le := Nat.zero_le _
  ok_iff := iff_of_false Bool.false_ne_true fun h => h0 (UInt64.toNat_inj.mp h.symm)
  progress := rfl
  stopped _ := hf

theorem SendfileOutcome.after {ok : Bool} {reached : UInt64} {s' : Refs} {k : ℕ}
    (hn : n ≤ (beyond w.host fd offset.toNat).length) (hlt : n ≤ 2 ^ 30) (hle : n ≤ length.toNat)
    (h : SendfileOutcome f fd (offset + UInt64.ofNat n) (length - UInt64.ofNat n) s
      (w.sent ((beyond w.host fd offset.toNat).take n)) k ok reached s' w') :
    SendfileOutcome f fd offset length s w (n + k) ok reached s' w' := by
  have hone := Accounted.one hn hlt
  have hrem : (length - UInt64.ofNat n).toNat = length.toNat - n := toNat_sub_ofNat hle
  have hk := h.le
  have hok := h.ok_iff
  rw [hrem] at hk hok
  refine ⟨hone.trans h.accounted, by omega, hok.trans (by omega), h.progress, fun hf => ?_⟩
  have := h.stopped hf
  rwa [hone.reached, beyond_sent, Nat.add_assoc] at this

theorem always_sendfileLoop_accounted {signals : ℕ} :
    Always f (sendfileLoop fd signals offset length) s w fun r s' w' =>
      ∃ n, SendfileOutcome f fd offset length s w n r.ok r.reached s' w' := by
  induction hl : length.toNat using Nat.strong_induction_on
    generalizing length offset signals s w with
  | _ l ih =>
    induction signals using Nat.strong_induction_on generalizing s w with
    | _ signals ihs =>
    unfold sendfileLoop
    split
    · rename_i h0
      subst h0
      rw [Always, wp_pure]
      exact ⟨0, .zero, le_rfl, by simp, rfl, fun h => by cases h⟩
    · rename_i h0
      have hpos : length.toNat ≠ 0 := fun he => h0 (UInt64.toNat_inj.mp he)
      generalize hwant : (if length > kMaxSendfile then kMaxSendfile else length) = want
      have hw : want.toNat ≠ 0 ∧ want.toNat ≤ length.toNat ∧ want.toNat ≤ 2 ^ 30 := by
        rw [← hwant]
        split
        · rename_i hlt
          exact ⟨by decide, Nat.le_of_lt hlt, by decide⟩
        · rename_i hlt
          exact ⟨hpos, le_rfl, UInt64.not_lt.mp hlt⟩
      rw [Always, wp_bind]
      apply wp_mono (always_sendfile_count hw.1)
      rintro r t _ ⟨rfl, hle, rfl, hend⟩
      cases r with
      | interrupted hp =>
        simp only [Sendfile.count, List.take_zero, World.sent_nil]
        exact ihs (signals - 1) (by omega)
      | error e =>
        simp only [Sendfile.count, List.take_zero, World.sent_nil]
        exact ⟨0, .stop h0 ((hend rfl).resolve_left (by rintro ⟨_, ⟨⟩⟩))⟩
      | sent n hn =>
        simp only [Sendfile.count] at hle hend ⊢
        split
        · rename_i hz
          subst hz
          rw [List.take_zero, World.sent_nil]
          exact ⟨0, .stop h0 ((hend rfl).resolve_left (by rintro ⟨_, ⟨⟩⟩))⟩
        · rename_i hz
          have hrem : (length - UInt64.ofNat n).toNat = length.toNat - n :=
            toNat_sub_ofNat (by omega)
          rw [wp_map]
          refine wp_mono (ih _ (by omega) hrem) ?_
          rintro r _ _ ⟨m, hm⟩
          exact ⟨n + m, hm.after hle (by omega) (by omega)⟩

/-- On Linux the count is right, and success is reported only when everything has been sent. -/
theorem always_sendFromFd_accounted {signals : ℕ} :
    Always f (sendFromFd sock signals fd offset length) s w fun r _ w' =>
      ∃ n, Accounted w fd offset n r.reached w' ∧ (r.ok = true → n = length.toNat) := by
  unfold sendFromFd
  split
  · rw [Always, wp_bind, wp_setEc, wp_pure]
    exact ⟨0, .zero, fun h => by cases h⟩
  · split
    · rename_i h0
      rw [Always, wp_pure]
      exact ⟨0, .zero, fun _ => by rw [h0]; rfl⟩
    · refine wp_mono always_sendfileLoop_accounted ?_
      rintro r _ _ ⟨n, h⟩
      exact ⟨n, h.accounted, h.ok_iff.mp⟩

theorem pread_ok {want o : ℕ} {bs : { bs : Bytes // bs.length ≤ want }}
    (hm : machine f w (.pread fd want o) (.ok bs) w') :
    w' = w ∧ bs.1.length ≤ (beyond w.host fd o).length ∧
      bs.1 = (beyond w.host fd o).take bs.1.length := by
  obtain ⟨h', i', u'⟩ := w'
  obtain ⟨a, ⟨rfl, rfl, b, hb, hpre, -⟩, rfl, rfl⟩ := hm
  refine ⟨rfl, ?_⟩
  rw [beyond, hb, Option.getD_some]
  exact ⟨hpre.length_le, List.prefix_iff_eq_take.mp hpre⟩

theorem pread_error {want o : ℕ} {e : Errc} (hm : machine f w (.pread fd want o) (.error e) w') :
    w' = w := by
  obtain ⟨h', i', u'⟩ := w'
  obtain ⟨a, ⟨rfl, rfl, -⟩, rfl, rfl⟩ := hm
  rfl

theorem send_ok {data : Bytes} {r : { n : ℕ // n ≤ data.length }}
    (hm : machine f w (.send data) (.ok r) w') : w' = w.sent (data.take r.1) := by
  obtain ⟨h', i', u'⟩ := w'
  obtain ⟨a, ⟨rfl, ⟨rfl, h0, -⟩ | ⟨rfl, -⟩⟩, ha⟩ := hm
  · obtain ⟨rfl, rfl⟩ := ha
    rw [h0, List.take_zero, World.sent_nil]
  · obtain ⟨rfl, rfl⟩ := ha
    rfl

theorem send_error {data : Bytes} {e : Errc} (hm : machine f w (.send data) (.error e) w') :
    w' = w := by
  obtain ⟨h', i', u'⟩ := w'
  obtain ⟨a, ⟨rfl, ⟨rfl, -⟩ | ⟨rfl, -⟩⟩, ha⟩ := hm
  · obtain ⟨rfl, rfl⟩ := ha
    rfl
  · exact ha.elim

section Rounds

variable {C : Type} {R : C → Type} {W : Type} {M : Machine R W} {x : W}
  {I : Cursor → Refs → W → Prop} {Q : Report → Refs → W → Prop} {c : Cursor}

theorem round_enter (hgo : sock.valid = true → length ≠ 0 → I ⟨offset, length⟩ s x)
    (hdone : length = 0 → Q ⟨true, offset⟩ s x)
    (hfail : Q ⟨false, offset⟩ { s with ec := some .badFileDescriptor } x) :
    Loop.Round M (enter sock offset length) s x I Q := by
  unfold enter
  split
  · exact hfail
  · rename_i hv
    split
    · rename_i h0
      exact hdone h0
    · rename_i h0
      exact hgo (by simpa using hv) h0

theorem round_apple {M : Machine DarwinCall.Result W}
    (hdone : c.remaining = 0 → Q ⟨true, c.offset⟩ s x)
    (hgo : ∀ want r x', 0 < want → want ≤ c.remaining.toNat → want ≤ 2 ^ 30 →
      M x (.sendfile fd c.offset.toNat want) r x' → r.errno = none ∨ r.errno = some eintr →
      I (c.advance r.len) s x')
    (hfail : ∀ want r x' e, want ≤ 2 ^ 30 → M x (.sendfile fd c.offset.toNat want) r x' →
      r.errno = some e → e ≠ eintr → Q ⟨false, c.offset⟩ { s with ec := some e } x') :
    Loop.Round M ((appleSendFromFd sock fd offset length).body c) s x I Q := by
  unfold appleSendFromFd
  simp only
  split
  · rename_i h0
    exact hdone h0
  · rename_i h0
    have hpos : c.remaining.toNat ≠ 0 := fun he => h0 (UInt64.toNat_inj.mp he)
    generalize hwant : (if c.remaining > kMaxSendfile then kMaxSendfile else c.remaining) = want
    have hw : 0 < want.toNat ∧ want.toNat ≤ c.remaining.toNat ∧ want.toNat ≤ 2 ^ 30 := by
      rw [← hwant]
      split
      · rename_i hlt
        exact ⟨by decide, Nat.le_of_lt hlt, by decide⟩
      · rename_i hlt
        exact ⟨Nat.pos_of_ne_zero hpos, le_rfl, UInt64.not_lt.mp hlt⟩
    rw [Loop.Round, wp_bind, wp_issue]
    refine ⟨trivial, fun r x' hm => ?_⟩
    split
    · rename_i e he
      split
      · rename_i heq
        exact hgo _ r x' hw.1 hw.2.1 hw.2.2 hm (Or.inr (heq ▸ he))
      · rename_i hne
        exact hfail _ r x' e hw.2.2 hm he hne
    · rename_i he
      exact hgo _ r x' hw.1 hw.2.1 hw.2.2 hm (Or.inl he)

theorem round_portable {M : Machine Call.Result W}
    (hdone : c.remaining = 0 → Q ⟨true, c.offset⟩ s x)
    (herr : ∀ want e x', M x (.pread fd want c.offset.toNat) (.error e) x' →
      if e = eintr then I c s x' else Q ⟨false, c.offset⟩ { s with ec := some e } x')
    (hend : ∀ want bs x', M x (.pread fd want c.offset.toNat) (.ok bs) x' → bs.1 = [] →
      Q ⟨false, c.offset⟩ { s with ec := some .ioError } x')
    (hsend : ∀ want bs x', want ≤ c.remaining.toNat → want ≤ 2 ^ 22 →
      M x (.pread fd want c.offset.toNat) (.ok bs) x' → bs.1 ≠ [] →
      wp M (fun _ _ => True) (sendAll bs.1) s x' fun ok s' x'' =>
        if ok then I (c.advance bs.1.length) s' x'' else Q ⟨false, c.offset⟩ s' x'') :
    Loop.Round M ((portableSendFromFd sock fd offset length).body c) s x I Q := by
  unfold portableSendFromFd
  simp only
  split
  · rename_i h0
    exact hdone h0
  · generalize hwant : (if c.remaining < kFallbackBufSize then c.remaining
      else kFallbackBufSize) = want
    have hw : want.toNat ≤ c.remaining.toNat ∧ want.toNat ≤ 2 ^ 22 := by
      have hk : kFallbackBufSize.toNat = 2 ^ 22 := by decide
      rw [← hwant]
      split
      · rename_i hlt
        rw [UInt64.lt_iff_toNat_lt, hk] at hlt
        exact ⟨le_rfl, hlt.le⟩
      · rename_i hlt
        rw [UInt64.lt_iff_toNat_lt, hk] at hlt
        rw [hk]
        omega
    rw [Loop.Round, wp_bind, perform, wp_issue]
    refine ⟨trivial, fun r x' hm => ?_⟩
    rcases r with e | bs
    · have := herr _ e x' hm
      simp only
      split
      · rename_i heq
        rw [if_pos heq] at this
        exact this
      · rename_i hne
        rw [if_neg hne] at this
        exact this
    · simp only
      split
      · rename_i hnil
        exact hend _ bs x' hm hnil
      · rename_i hne
        rw [wp_bind]
        refine wp_mono (hsend _ bs x' hw.1 hw.2 hm hne) fun ok s' x'' hr => ?_
        cases ok with
        | true => exact hr
        | false => exact hr

end Rounds

end Xfer.Net
