import Xfer.Net.Returning
import Mathlib.Data.List.Chain

/-! # What the zero-copy send says it has sent

On Linux `offset_in_out` is always right. On macOS it misses what a failing call
has sent before it failed. The portable variant counts whole buffers and misses
what was sent of the last one.
-/

namespace Xfer.Net

open Process Posix Code Program

variable {f : Faults} {sock : Socket} {fd : Fd} {offset length p : UInt64} {w w' : Side}
  {s s' : Refs} {c : Cursor} {n m : ℕ} {data : Bytes} {log : List Entry} {r : Report}

/-- A report is right about what has been handed to the socket. -/
def Accounts (w : Side) (fd : Fd) (offset reached : UInt64) (w' : Side) : Prop :=
  ∃ n, Accounted w fd offset n reached w'

/-- What is sent after the count has been taken is not accounted for. -/
theorem accounts_sent_iff (h : Accounted w fd offset m p w')
    (hn : n ≤ (beyond w'.host fd p.toNat).length) (hlt : n ≤ 2 ^ 30) :
    Accounts w fd offset p (w'.sent ((beyond w'.host fd p.toNat).take n)) ↔ n = 0 := by
  have hmore := h.trans (.one hn hlt)
  constructor
  · rintro ⟨k, hk⟩
    have heq := hmore.unique hk
    have hp := h.reached
    have hq := hk.reached
    omega
  · rintro rfl
    rw [List.take_zero, World.sent_nil]
    exact ⟨m, h⟩

/-- A call that failed after it had sent some bytes. -/
def Torn : (c : DarwinCall) × c.Result → Prop
  | ⟨.sendfile .., r⟩ => ∃ e, r.errno = some e ∧ e ≠ eintr ∧ 0 < r.len

theorem ends_apple {x : Side × List ((c : DarwinCall) × c.Result)}
    (h : (appleSendFromFd sock fd offset length).Ends (logged (darwin f)) s (w, []) r s' x) :
    Accounts w fd offset r.reached x.1 ↔ ∀ t ∈ x.2, ¬ Torn t := by
  refine h.of_invariant
    (Q := fun r _ x => Accounts w fd offset r.reached x.1 ↔ ∀ t ∈ x.2, ¬ Torn t)
    (I := fun c _ x => Pushing w fd offset length c x.1 ∧ ∀ t ∈ x.2, ¬ Torn t) ?_ ?_
  · have hnone : Accounts w fd offset offset w ↔
        ∀ t ∈ ([] : List ((c : DarwinCall) × c.Result)), ¬ Torn t :=
      iff_of_true ⟨0, .zero⟩ (by simp)
    exact round_enter (fun _ _ => ⟨.start, by simp⟩) (fun _ => hnone) hnone
  · rintro c s ⟨w', log⟩ ⟨hI, hlog⟩
    refine round_apple (fun _ => ?_) ?_ ?_
    · obtain ⟨n, ha, -⟩ := hI
      exact iff_of_true ⟨n, ha⟩ hlog
    · rintro want r ⟨w'', log'⟩ - hle hlt ⟨⟨hlen, hw, -⟩, hlog'⟩ he
      have hI' := hI.advance hlen (r.le.trans hle) (r.le.trans hlt)
      rw [← hw] at hI'
      refine ⟨hI', ?_⟩
      simp only at hlog' ⊢
      rw [hlog', List.forall_mem_append, List.forall_mem_singleton]
      refine ⟨hlog, ?_⟩
      rintro ⟨e, he', hne, -⟩
      rw [he'] at he
      rcases he with he | he
      · cases he
      · exact hne (Option.some.inj he)
    · rintro want r ⟨w'', log'⟩ e hlt ⟨⟨hlen, hw, -⟩, hlog'⟩ he hne
      obtain ⟨n, ha, -⟩ := hI
      simp only at hw hlog' ⊢
      rw [hw, accounts_sent_iff ha hlen (r.le.trans hlt), hlog', List.forall_mem_append,
        List.forall_mem_singleton, and_iff_right hlog]
      constructor
      · rintro h0 ⟨-, -, -, hpos⟩
        omega
      · intro hno
        by_contra h0
        exact hno ⟨e, he, hne, Nat.pos_of_ne_zero h0⟩

/-- A `send` that transfers nothing. -/
def Refused (t : Entry) : Prop := t.1.Writes ∧ t.moved = 0

/-- Nothing is refused of a buffer of which a part has been sent. -/
abbrev Unsevered (log : List Entry) : Prop := log.IsChain fun t u => ¬ (t.1.Writes ∧ Refused u)

theorem unsevered_of_accepted (h : ∀ t ∈ log, ¬ Refused t) : Unsevered log :=
  List.Pairwise.isChain (List.pairwise_of_forall_mem_list fun _ _ u hu hr => h u hu hr.2)

theorem unsevered_append_iff {calls : List Entry} {u : Entry} (hlog : ∀ t ∈ log, ¬ Refused t)
    (hlast : ∀ t ∈ log.getLast?, ¬ t.1.Writes) (hc : ∀ t ∈ calls, t.1.Writes ∧ t.moved ≠ 0)
    (hu : Refused u) : Unsevered (log ++ (calls ++ [u])) ↔ calls = [] := by
  constructor
  · intro h
    rcases List.eq_nil_or_concat calls with rfl | ⟨cs, t, rfl⟩
    · rfl
    · rw [List.concat_eq_append] at h hc
      have hnext := (List.isChain_append.mp h.right_of_append).2.2
      exact absurd ⟨(hc t (by simp)).1, hu⟩ (hnext t (by simp) u (by simp))
  · rintro rfl
    refine (unsevered_of_accepted hlog).append (.singleton u) fun t ht v _ hr => ?_
    exact hlast t ht hr.1

/-- What `SendAll` does, with its calls. -/
inductive SendAllLog (data : Bytes) (w : Side) (log : List Entry) :
    Bool → Side × List Entry → Prop
  | done (calls : List Entry) : (∀ t ∈ calls, ¬ Refused t) →
      SendAllLog data w log true (w.sent data, log ++ calls)
  | failed (n : ℕ) (calls : List Entry) (u : Entry) : n ≤ data.length →
      (∀ t ∈ calls, t.1.Writes ∧ t.moved ≠ 0) → Refused u → (n = 0 ↔ calls = []) →
      SendAllLog data w log false (w.sent (data.take n), log ++ (calls ++ [u]))

theorem wp_send_logged :
    wp (logged (machine f)) (fun _ _ => True) (send data) s (w, log) fun n _ x =>
      (∃ m : { m : ℕ // m ≤ data.length }, n = toInt m ∧
        x = (w.sent (data.take m), log ++ [⟨.send data, .ok m⟩])) ∨
      ∃ e, n = -1 ∧ x = (w, log ++ [⟨.send data, .error e⟩]) := by
  unfold send
  rw [wp_bind, perform, wp_issue]
  refine ⟨trivial, ?_⟩
  rintro (e | m) ⟨w', log'⟩ ⟨hm, hlog⟩
  · obtain rfl : log' = _ := hlog
    obtain rfl : w' = w := send_error hm
    exact Or.inr ⟨e, rfl, rfl⟩
  · obtain rfl : log' = _ := hlog
    obtain rfl : w' = _ := send_ok hm
    rw [wp_pure]
    exact Or.inl ⟨m, rfl, rfl⟩

theorem SendAllLog.cons {m : { m : ℕ // m ≤ data.length }} {ok : Bool} {x : Side × List Entry}
    (hm : m.1 ≠ 0) (h : SendAllLog (data.drop m) (w.sent (data.take m))
      (log ++ [⟨.send data, .ok m⟩]) ok x) : SendAllLog data w log ok x := by
  cases h with
  | done calls hc =>
    rw [World.sent_sent, List.take_append_drop, List.append_assoc, List.singleton_append]
    exact .done _ (List.forall_mem_cons.mpr ⟨fun hr => hm hr.2, hc⟩)
  | failed n calls u hn hc hu h0 =>
    rw [World.sent_sent, ← List.take_add, List.append_assoc, List.singleton_append,
      ← List.cons_append]
    rw [List.length_drop] at hn
    have := m.2
    exact .failed _ _ u (by omega) (List.forall_mem_cons.mpr ⟨⟨trivial, hm⟩, hc⟩) hu
      (iff_of_false (by omega) (by simp))

theorem wp_sendAll_logged (hl : data.length < 2 ^ 31) :
    wp (logged (machine f)) (fun _ _ => True) (sendAll data) s (w, log) fun ok _ x =>
      SendAllLog data w log ok x := by
  induction hn : data.length using Nat.strong_induction_on generalizing data w log s with
  | _ n ih =>
    unfold sendAll
    split
    · rename_i hd
      subst hd
      rw [wp_pure]
      have h : SendAllLog [] w log true (w.sent [], log ++ []) := .done [] (by simp)
      rwa [World.sent_nil, List.append_nil] at h
    · rename_i hd
      have hpos := List.length_pos_iff.mpr hd
      have hstop : ∀ u, Refused u → SendAllLog data w log false (w, log ++ [u]) := fun u hu => by
        have h : SendAllLog data w log false (w.sent (data.take 0), log ++ ([] ++ [u])) :=
          .failed 0 [] u (Nat.zero_le _) (by simp) hu (by simp)
        rwa [List.take_zero, World.sent_nil] at h
      rw [wp_bind]
      apply wp_mono wp_send_logged
      rintro k s x (⟨m, hk, rfl⟩ | ⟨e, rfl, rfl⟩)
      · have hm := m.2
        rw [toInt_of_lt (by omega)] at hk
        split
        · rename_i h0
          have hm0 : m.1 = 0 := by omega
          rw [wp_pure, hm0, List.take_zero, World.sent_nil]
          exact hstop _ ⟨trivial, hm0⟩
        · rename_i h0
          have hlen : (data.drop m).length = n - m := List.length_drop.trans (hn ▸ rfl)
          rw [hk, Int.toNat_natCast]
          exact wp_mono (ih (n - m) (by omega) (by omega) hlen) fun _ _ _ h => h.cons (by omega)
      · rw [dif_pos (by omega), wp_pure]
        exact hstop _ ⟨trivial, rfl⟩

theorem ends_portable {x : Side × List Entry}
    (h : (portableSendFromFd sock fd offset length).Ends (logged (machine f)) s (w, []) r s' x) :
    Accounts w fd offset r.reached x.1 ↔ Unsevered x.2 := by
  have hleave : ∀ {c w' log}, Pushing w fd offset length c w' → (∀ t ∈ log, ¬ Refused t) →
      (Accounts w fd offset c.offset w' ↔ Unsevered log) := by
    rintro c w' log ⟨n, ha, -⟩ hlog
    exact iff_of_true ⟨n, ha⟩ (unsevered_of_accepted hlog)
  refine h.of_invariant
    (Q := fun r _ x => Accounts w fd offset r.reached x.1 ↔ Unsevered x.2)
    (I := fun c _ x => Pushing w fd offset length c x.1 ∧ ∀ t ∈ x.2, ¬ Refused t) ?_ ?_
  · exact round_enter (fun _ _ => ⟨.start, by simp⟩) (fun _ => hleave .start (by simp))
      (hleave .start (by simp))
  · rintro c s ⟨w', log⟩ ⟨hI, hlog⟩
    have hpread : ∀ {want : ℕ} {r : (Call.pread fd want c.offset.toNat).Result},
        ∀ t ∈ log ++ [⟨.pread fd want c.offset.toNat, r⟩], ¬ Refused t := by
      intro want r
      rw [List.forall_mem_append, List.forall_mem_singleton]
      exact ⟨hlog, fun hr => hr.1⟩
    refine round_portable (fun _ => hleave hI hlog) ?_ ?_ ?_
    · rintro want e ⟨w'', log'⟩ ⟨hm, hlog'⟩
      obtain rfl : log' = _ := hlog'
      obtain rfl : w'' = w' := pread_error hm
      split
      · exact ⟨hI, hpread⟩
      · exact hleave hI hpread
    · rintro want bs ⟨w'', log'⟩ ⟨hm, hlog'⟩ -
      obtain rfl : log' = _ := hlog'
      obtain rfl : w'' = w' := (pread_ok hm).1
      exact hleave hI hpread
    · rintro want bs ⟨w'', log'⟩ hle hlt ⟨hm, hlog'⟩ hne
      obtain rfl : log' = _ := hlog'
      obtain ⟨hx, hlen, hbs⟩ := pread_ok hm
      obtain rfl : w'' = w' := hx
      have hw := bs.2
      simp only at hlen hbs
      apply wp_mono (wp_sendAll_logged (by omega))
      rintro _ _ _ (⟨calls, hc⟩ | ⟨n, calls, u, hn, hc, hu, h0⟩)
      · have hI' := hI.advance hlen (by omega) (by omega)
        rw [← hbs] at hI'
        exact ⟨hI', List.forall_mem_append.mpr ⟨hpread, hc⟩⟩
      · obtain ⟨m, ha, -⟩ := hI
        have htake : bs.1.take n = (beyond w''.host fd c.offset.toNat).take n := by
          rw [hbs, List.take_take, Nat.min_eq_left (by omega)]
        simp only [Bool.false_eq_true, if_false]
        rw [htake, accounts_sent_iff ha (hn.trans hlen) (by omega), h0]
        exact (unsevered_append_iff hpread (by simp [Call.Writes]) hc hu).symm

/-- `offset_in_out` is right about what has been pushed when `SendFromFd` returns: on Linux in
every run, on macOS in those in which no call fails after it has sent some bytes, and on other
platforms in those in which no buffer is severed. -/
theorem sendFromFd_accounts_iff (f : Faults) (sock : Socket) (fd : Fd) (offset length : UInt64)
    (s : Refs) (w : Side) :
    (∀ signals, Always f (sendFromFd sock signals fd offset length) s w fun r _ w' =>
        Accounts w fd offset r.reached w') ∧
      (∀ r s' w' log, (appleSendFromFd sock fd offset length).Ends (logged (darwin f)) s (w, []) r s'
        (w', log) → (Accounts w fd offset r.reached w' ↔ ∀ t ∈ log, ¬ Torn t)) ∧
      ∀ r s' w' log, (portableSendFromFd sock fd offset length).Ends (logged (machine f)) s (w, [])
        r s' (w', log) → (Accounts w fd offset r.reached w' ↔ Unsevered log) := by
  refine ⟨fun signals => ?_, fun r s' w' log h => ends_apple h, fun r s' w' log h =>
    ends_portable h⟩
  refine wp_mono always_sendFromFd_accounted ?_
  rintro r _ _ ⟨n, ha, -⟩
  exact ⟨n, ha⟩

/-- The call that fails has sent the only byte of the file, and the count stays zero. -/
theorem shrunk_not_accounted :
    ¬ ∀ r s' w' log, (appleSendFromFd ⟨3⟩ [[0x61]] 0 1).Ends
      (logged (darwin ⟨True, False, False, False, False⟩)) {} (shrunk, []) r s' (w', log) →
        Accounts shrunk [[0x61]] 0 r.reached w' := by
  intro hall
  obtain ⟨want, hpos, hexec⟩ := exec_apple (c := ⟨0, 1⟩)
    (M := logged (darwin ⟨True, False, False, False, False⟩)) ⟨3⟩ [[0x61]] 0 1 {} (shrunk, []) (by decide)
  have hone : 1 ≤ (beyond shrunk.host [[0x61]] 0).length := by decide
  have hend := (hexec ⟨some .connectionReset, 1, hpos⟩
    (shrunk.sent ((beyond shrunk.host [[0x61]] 0).take 1), _)
    ⟨⟨hone, rfl, Or.inr (Or.inl trivial)⟩, rfl⟩).2 .connectionReset rfl (by decide)
  have hends : (appleSendFromFd ⟨3⟩ [[0x61]] 0 1).Ends
      (logged (darwin ⟨True, False, False, False, False⟩)) {} (shrunk, []) _ _ _ :=
    .next (exec_enter (by decide) (by decide)) (.leave hend)
  refine (ends_apple hends).mp (hall _ _ _ _ hends) _
    (List.mem_append_right _ (List.mem_singleton.mpr rfl)) ?_
  exact ⟨.connectionReset, rfl, by decide, Nat.one_pos⟩

end Xfer.Net
