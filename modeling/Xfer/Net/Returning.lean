import Xfer.Net.Platform

/-! # When the zero-copy send returns

With interrupts that come only finitely often, the Linux and the portable
variants of `SendFromFd` always return. The macOS variant repeats its call for
ever at the end of a file that is too short.
-/

namespace Xfer.Net

open Process Posix Code Program

variable {f : Faults} {sock : Socket} {fd : Fd} {offset length : UInt64} {h : Host} {w w' : Side}
  {s : Refs} {c : Cursor} {k m : ℕ}

/-- The loop has handed over what comes before its cursor. -/
def Pushing (w : Side) (fd : Fd) (offset length : UInt64) (c : Cursor) (w' : Side) : Prop :=
  ∃ n, Accounted w fd offset n c.offset w' ∧ n + c.remaining.toNat = length.toNat

theorem Pushing.start : Pushing w fd offset length ⟨offset, length⟩ w :=
  ⟨0, .zero, Nat.zero_add _⟩

theorem Pushing.advance (h : Pushing w fd offset length c w')
    (hm : m ≤ (beyond w'.host fd c.offset.toNat).length) (hr : m ≤ c.remaining.toNat)
    (hlt : m ≤ 2 ^ 30) : Pushing w fd offset length (c.advance m)
      (w'.sent ((beyond w'.host fd c.offset.toNat).take m)) := by
  obtain ⟨n, ha, hn⟩ := h
  refine ⟨n + m, ha.trans (.one hm hlt), ?_⟩
  rw [Cursor.advance, toNat_sub_ofNat hr]
  omega

/-- Success is reported only when all bytes have been handed to the socket. -/
def Truthful (w : Side) (length : UInt64) (r : Report) (w' : Side) : Prop :=
  r.ok = true → ∃ bs, bs.length = length.toNat ∧ w' = w.sent bs

theorem Truthful.failed {reached : UInt64} : Truthful w length ⟨false, reached⟩ w' :=
  fun h => by cases h

theorem Pushing.truthful (h : Pushing w fd offset length c w') (h0 : c.remaining = 0) :
    Truthful w length ⟨true, c.offset⟩ w' := fun _ => by
  obtain ⟨n, ha, hn⟩ := h
  rw [h0] at hn
  exact ⟨_, (List.length_take_of_le ha.there).trans hn, ha.sent⟩

theorem truthful_zero (h0 : length = 0) : Truthful w length ⟨true, offset⟩ w := fun _ =>
  ⟨[], by rw [h0]; rfl, (World.sent_nil w).symm⟩

/-- At some place among the bytes that are asked for the file is found to be at its end. -/
def RunsOut (h : Host) (fd : Fd) (offset length : ℕ) : Prop :=
  ∃ n < length, h.readable fd (offset + n) = some []

/-- How often a call of `sendfile` was interrupted. -/
def darwinInterrupts : (c : DarwinCall) → c.Result → ℕ
  | .sendfile .., r => if r.errno = some eintr then 1 else 0

/-- How often a call of `pread` was interrupted. -/
def interrupts : (c : Call) → c.Result → ℕ
  | .pread .., .error e => if e = eintr then 1 else 0
  | _, _ => 0

theorem readable_of_beyond_eq_nil {o : ℕ} (hr : h.readable fd o ≠ none) (hb : beyond h fd o = []) :
    h.readable fd o = some [] := by
  obtain ⟨b, hb'⟩ := Option.ne_none_iff_exists'.mp hr
  rw [beyond, hb', Option.getD_some] at hb
  rw [hb', hb]

theorem len_pos_of_not_runsOut {want : ℕ} {r : DarwinSendfile want} (hI : Pushing w fd offset length c w')
    (hno : ¬ RunsOut w.host fd offset.toNat length.toNat) (hw : 0 < want)
    (hle : want ≤ c.remaining.toNat) (hr : w'.host.readable fd c.offset.toNat ≠ none)
    (hend : r.len = 0 → beyond w'.host fd c.offset.toNat = [] ∨ want = 0) : 0 < r.len := by
  rw [Nat.pos_iff_ne_zero]
  intro h0
  obtain ⟨n, ⟨hs, -, hoff⟩, hn⟩ := hI
  have hnil := readable_of_beyond_eq_nil hr ((hend h0).resolve_right hw.ne')
  refine hno ⟨n, by omega, ?_⟩
  rw [← hoff]
  rw [hs] at hnil
  exact hnil

theorem returns_apple
    (hno : ¬ (sock.valid = true ∧ RunsOut w.host fd offset.toNat length.toNat)) :
    (appleSendFromFd sock fd offset length).Returns (rationed darwinInterrupts (darwin f))
      (fun r _ x => Truthful w length r x.1) s (w, k) := by
  refine Loop.returns_of_variant (I := fun c _ x => Pushing w fd offset length c x.1 ∧
    ¬ RunsOut w.host fd offset.toNat length.toNat) (fun c x => c.remaining.toNat + x.2) ?_ ?_
  · exact round_enter (fun hv _ => ⟨.start, fun hout => hno ⟨hv, hout⟩⟩) truthful_zero .failed
  · rintro c s x ⟨hI, hno⟩
    refine round_apple hI.truthful ?_ fun _ _ _ _ _ _ _ _ => .failed
    rintro want r x' hpos hle hlt ⟨⟨hlen, hx', hr⟩, hk⟩ he
    have hI' := hI.advance hlen (r.le.trans hle) (r.le.trans hlt)
    rw [← hx'] at hI'
    refine ⟨⟨hI', hno⟩, ?_⟩
    have hrem : (c.advance r.len).remaining.toNat = c.remaining.toNat - r.len :=
      toNat_sub_ofNat (r.le.trans hle)
    rcases he with he | he
    · rw [he] at hr
      have := len_pos_of_not_runsOut hI hno hpos hle hr.1 hr.2
      have := r.le
      omega
    · rw [darwinInterrupts, if_pos he] at hk
      omega

theorem exec_enter {W : Type} {M : Machine DarwinCall.Result W} {x : W} (hv : sock.valid = true)
    (h0 : length ≠ 0) : Exec M ((appleSendFromFd sock fd offset length).start.run s) x
      (.inl ⟨offset, length⟩, s) x := by
  simp only [appleSendFromFd, enter, hv, not_true_eq_false, if_false, if_neg h0]
  exact .ret _ _

theorem exec_apple {W : Type} {M : Machine DarwinCall.Result W} (sock : Socket) (fd : Fd)
    (offset length : UInt64) (s : Refs) (x : W) (h0 : c.remaining ≠ 0) :
    ∃ want, 0 < want ∧ ∀ (r : DarwinSendfile want) x',
      M x (.sendfile fd c.offset.toNat want) r x' →
      (r.errno = none → Exec M (((appleSendFromFd sock fd offset length).body c).run s) x
        (.inl (c.advance r.len), s) x') ∧
      ∀ e, r.errno = some e → e ≠ eintr →
        Exec M (((appleSendFromFd sock fd offset length).body c).run s) x
          (.inr ⟨false, c.offset⟩, { s with ec := some e }) x' := by
  have hpos : c.remaining.toNat ≠ 0 := fun he => h0 (UInt64.toNat_inj.mp he)
  refine ⟨(if c.remaining > kMaxSendfile then kMaxSendfile else c.remaining).toNat, ?_, ?_⟩
  · split
    · decide
    · exact Nat.pos_of_ne_zero hpos
  · intro r x' hm
    unfold appleSendFromFd
    simp only
    rw [if_neg h0, StateT.run_bind]
    refine ⟨fun he => .call hm ?_, fun e he hne => .call hm ?_⟩
    · simp only [Program.bind, he]
      exact .ret _ _
    · simp only [Program.bind, he, if_neg hne]
      exact .ret _ _

theorem readable_ne_none {o n : ℕ} (hr : h.readable fd (o + n) = some []) :
    h.readable fd o ≠ none := by
  unfold Host.readable at hr ⊢
  split at hr
  · by_cases ho : o + n < 2 ^ 63
    · rw [if_pos (show o < 2 ^ 63 by omega)]
      simp
    · rw [if_neg ho] at hr
      cases hr
  · cases hr

/-- Before a place where the file is at its end there is one on every shorter way. -/
theorem RunsOut.step {o r : ℕ} (hout : RunsOut h fd o r) (hb : beyond h fd o ≠ []) :
    RunsOut h fd (o + 1) (r - 1) := by
  obtain ⟨n, hn, hend⟩ := hout
  have h0 : n ≠ 0 := by
    rintro rfl
    rw [beyond, show h.readable fd o = some [] from hend] at hb
    exact hb rfl
  exact ⟨n - 1, by omega, by rwa [show o + 1 + (n - 1) = o + n by omega]⟩

/-- At the end of the file the macOS loop repeats a call that sends nothing. -/
theorem not_returns_apple {Q : Report → Refs → Side × ℕ → Prop} (hv : sock.valid = true)
    (hout : RunsOut w.host fd offset.toNat length.toNat) :
    ¬ (appleSendFromFd sock fd offset length).Returns (rationed darwinInterrupts (darwin f)) Q s
      (w, k) := by
  have hne : ∀ {h : Host} {o : ℕ} {r : UInt64}, RunsOut h fd o r.toNat → r ≠ 0 := by
    rintro h o r ⟨n, hn, -⟩ rfl
    exact absurd hn (Nat.not_lt_zero n)
  refine Loop.not_returns_of_trap
    (T := fun c _ x => RunsOut x.1.host fd c.offset.toNat c.remaining.toNat)
    (exec_enter hv (hne hout)) hout ?_
  intro c s x hout
  obtain ⟨want, hpos, hexec⟩ := exec_apple (M := rationed darwinInterrupts (darwin f)) sock fd
    offset length s x (hne hout)
  obtain ⟨n, hn, hend⟩ := id hout
  have hr := readable_ne_none hend
  by_cases hb : beyond x.1.host fd c.offset.toNat = []
  · refine ⟨_, _, x, (hexec ⟨none, 0, Nat.zero_le _⟩ x ⟨⟨Nat.zero_le _, ?_, hr, fun _ => ?_⟩, ?_⟩).1 rfl,
      ?_⟩
    · exact (World.sent_nil _).symm
    · exact Or.inl hb
    · exact (Nat.zero_add _).symm
    · simpa [Cursor.advance] using hout
  · have hlen : 1 ≤ (beyond x.1.host fd c.offset.toNat).length := List.length_pos_iff.mpr hb
    have hlt := lt_of_beyond_ne_nil hb
    have hoff : (c.offset + UInt64.ofNat 1).toNat = c.offset.toNat + 1 := toNat_add_ofNat (by omega)
    have hrem : (c.remaining - UInt64.ofNat 1).toNat = c.remaining.toNat - 1 :=
      toNat_sub_ofNat (by omega)
    refine ⟨_, _, (x.1.sent ((beyond x.1.host fd c.offset.toNat).take 1), x.2),
      (hexec ⟨none, 1, hpos⟩ _ ⟨⟨hlen, rfl, hr, fun h => by cases h⟩, ?_⟩).1 rfl, ?_⟩
    · exact (Nat.zero_add _).symm
    · have := hout.step hb
      rwa [← hoff, ← hrem] at this

theorem returns_portable :
    (portableSendFromFd sock fd offset length).Returns (rationed interrupts (machine f))
      (fun r _ x => Truthful w length r x.1) s (w, k) := by
  refine Loop.returns_of_variant (I := fun c _ x => Pushing w fd offset length c x.1)
    (fun c x => c.remaining.toNat + x.2) ?_ ?_
  · exact round_enter (fun _ _ => .start) truthful_zero .failed
  · intro c s x hI
    refine round_portable hI.truthful ?_ (fun _ _ _ _ _ => .failed) ?_
    · rintro want e x' ⟨hm, hk⟩
      rw [← pread_error hm] at hI
      split
      · rename_i he
        rw [interrupts, if_pos he] at hk
        exact ⟨hI, by omega⟩
      · exact .failed
    · rintro want bs x' hle hlt ⟨hm, hk⟩ hne
      obtain ⟨hx, hlen, hbs⟩ := pread_ok hm
      have hw := bs.2
      have hpos := List.length_pos_iff.mpr hne
      have hI' := hI.advance hlen (by omega) (by omega)
      rw [← hbs, ← hx] at hI'
      refine wp_mono (wp_rationed (wp_sendAll (by omega) fun _ _ _ _ => trivial)) ?_
      rintro ok s' ⟨w'', k''⟩ ⟨hs, hk'⟩
      cases hs with
      | done =>
        refine ⟨hI', ?_⟩
        have hrem : (c.advance bs.1.length).remaining.toNat = c.remaining.toNat - bs.1.length :=
          toNat_sub_ofNat (hw.trans hle)
        have hk : x.2 = x'.2 := hk.trans (Nat.zero_add _)
        simp only at hk' ⊢
        omega
      | failed => exact .failed

/-- `SendFromFd` always returns on Linux and on platforms without `sendfile`, and reports success
only for as many bytes as it was asked for. On macOS it does so if and only if the file does not
run out. -/
theorem sendFromFd_returns_iff (f : Faults) (sock : Socket) (fd : Fd) (offset length : UInt64)
    (s : Refs) (w : Side) (signals : ℕ) :
    Always f (sendFromFd sock signals fd offset length) s w (fun r _ w' =>
        Truthful w length ⟨r.ok, r.reached⟩ w') ∧
      (portableSendFromFd sock fd offset length).Returns (rationed interrupts (machine f))
        (fun r _ x => Truthful w length r x.1) s (w, signals) ∧
      ((appleSendFromFd sock fd offset length).Returns (rationed darwinInterrupts (darwin f))
          (fun r _ x => Truthful w length r x.1) s (w, signals) ↔
        ¬ (sock.valid = true ∧ RunsOut w.host fd offset.toNat length.toNat)) := by
  refine ⟨?_, returns_portable, fun hr ⟨hv, hout⟩ => not_returns_apple hv hout hr, returns_apple⟩
  refine wp_mono always_sendFromFd_accounted ?_
  rintro r _ _ ⟨n, ha, hn⟩ hok
  exact ⟨_, (List.length_take_of_le ha.there).trans (hn hok), ha.sent⟩

/-- A party with a file of a single byte. -/
def shrunk : Side := ⟨⟨FileSystem.empty.place [[0x61]] (.file [0x31]), none⟩, [], []⟩

theorem runsOut_shrunk : RunsOut shrunk.host [[0x61]] 0 2 := ⟨1, by decide, by decide⟩

/-- The second byte of a file that has only one is waited for without end. -/
theorem not_returns_shrunk : ¬ (appleSendFromFd ⟨3⟩ [[0x61]] 0 2).Returns
    (rationed darwinInterrupts (darwin .none)) (fun r _ x => Truthful shrunk 2 r x.1) {}
    (shrunk, 0) :=
  not_returns_apple (by decide) runsOut_shrunk

end Xfer.Net
