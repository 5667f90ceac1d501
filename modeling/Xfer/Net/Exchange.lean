import Xfer.Net.Socket

/-! # What the socket loops do

One outcome relation for each socket function: every way in which a call of it
can end when its party runs alone.
-/

namespace Xfer.Net

open Process Posix Code

abbrev Side := World Host UInt8

/-- A party alone under the faults `f`. -/
abbrev machine (f : Faults) : Machine Call.Result Side := alone (kernel f)

/-- Every run, alone under the faults `f`, ends as `Q` says. -/
abbrev Always (f : Faults) {α : Type} (x : Session α) (s : Refs) (w : Side)
    (Q : α → Refs → Side → Prop) : Prop :=
  wp (machine f) (fun _ _ => True) x s w Q

variable {f : Faults} {G : Side → Call → Prop} {s : Refs} {w : Side} {data : Bytes} {len : ℕ}

theorem reads_of_inp {h h' : Host} {c : Call} {bs : Bytes} {r : c.Result}
    (hk : kernel f h c (.inp bs) r h') : c.Reads := by
  cases c with
  | recv => trivial
  | send data => rcases r with e | n <;> simp [kernel] at hk
  | sendfile => rcases r with ⟨n, hn⟩ | _ | e <;> simp [kernel] at hk
  | _ => cases hk.1

theorem writes_of_out {h h' : Host} {c : Call} {bs : Bytes} {r : c.Result}
    (hk : kernel f h c (.out bs) r h') : c.Writes := by
  cases c with
  | send data => trivial
  | sendfile => trivial
  | recv len => rcases r with e | n <;> simp [kernel] at hk
  | _ => cases hk.1

@[simp] theorem toInt_zero : toInt 0 = 0 := by decide

theorem toInt_of_lt {n : ℕ} (h : n < 2 ^ 31) : toInt n = n := by
  unfold toInt
  rw [Int.bmod_eq_of_le] <;> omega

theorem always_perform {c : Call} {Q : c.Result → Refs → Side → Prop} :
    Always f (perform c) s w Q ↔ ∀ r w', machine f w c r w' → Q r s w' := by
  rw [Always, perform, wp_issue]
  exact and_iff_right trivial

theorem always_look {Q : FileSystem → Refs → Side → Prop} (h : Q w.host.fs s w) :
    Always f (perform .look) s w Q := by
  rw [always_perform]
  rintro _ ⟨h', i', o'⟩ ⟨a, ⟨rfl, rfl, rfl⟩, rfl, rfl⟩
  exact h

theorem wp_setEc {e : Errc} {Q : Unit → Refs → Side → Prop} :
    wp (machine f) G (setEc e) s w Q ↔ Q () { s with ec := some e } w := Iff.rfl

theorem wp_addProgress {n : UInt64} {Q : Unit → Refs → Side → Prop} :
    wp (machine f) G (addProgress n) s w Q ↔ Q () { s with progress := s.progress + n } w := Iff.rfl

inductive SendOutcome (f : Faults) (data : Bytes) (s : Refs) (w : Side) : ℤ → Refs → Side → Prop
  | sent (n : ℕ) : 0 < n → n ≤ data.length → SendOutcome f data s w (toInt n) s (w.sent (data.take n))
  | stalled : f.stall → SendOutcome f data s w 0 s w
  | failed (e : Errc) : f.net → SendOutcome f data s w (-1) { s with ec := some e } w

theorem wp_send (hd : data ≠ []) (hg : G w (.send data)) :
    wp (machine f) G (send data) s w (SendOutcome f data s w) := by
  unfold send
  rw [wp_bind, perform, wp_issue]
  refine ⟨hg, ?_⟩
  rintro (e | ⟨n, hn⟩) ⟨h', i', o'⟩ ⟨a, ⟨rfl, hk⟩, ha⟩
  · rcases hk with ⟨rfl, hf⟩ | ⟨rfl, -⟩
    · obtain ⟨rfl, rfl⟩ := ha
      exact .failed e hf
    · exact ha.elim
  · simp only [wp_pure]
    rcases hk with ⟨rfl, h0, hs⟩ | ⟨rfl, h0⟩
    · obtain ⟨rfl, rfl⟩ := ha
      rw [show n = 0 from h0, toInt_zero]
      exact .stalled (hs.resolve_left hd)
    · obtain ⟨rfl, rfl⟩ := ha
      exact .sent n h0 hn

/-- `SendAll` writes everything, or stops at a fault. -/
inductive SendAllOutcome (f : Faults) (data : Bytes) (s : Refs) (w : Side) :
    Bool → Refs → Side → Prop
  | done : SendAllOutcome f data s w true s (w.sent data)
  | failed (e : ErrorCode) (sent : Bytes) : sent <+: data → f.net ∨ f.stall → f.stall ∨ e ≠ none →
      SendAllOutcome f data s w false { s with ec := e } (w.sent sent)

theorem SendAllOutcome.cons {n : ℕ} {ok : Bool} {s' : Refs} {w' : Side}
    (h : SendAllOutcome f (data.drop n) s (w.sent (data.take n)) ok s' w') :
    SendAllOutcome f data s w ok s' w' := by
  cases h with
  | done =>
    rw [World.sent_sent, List.take_append_drop]
    exact .done
  | failed e sent hs hf he =>
    rw [World.sent_sent]
    refine .failed e _ ?_ hf he
    obtain ⟨rest, hr⟩ := hs
    exact ⟨rest, by rw [List.append_assoc, hr, List.take_append_drop]⟩

theorem wp_sendAll (hl : data.length < 2 ^ 31)
    (hg : ∀ sent rest, data = sent ++ rest → rest ≠ [] → G (w.sent sent) (.send rest)) :
    wp (machine f) G (sendAll data) s w (SendAllOutcome f data s w) := by
  induction hn : data.length using Nat.strong_induction_on generalizing data w with
  | _ n ih =>
    unfold sendAll
    split
    · rename_i hd
      subst hd
      rw [wp_pure]
      have h : SendAllOutcome f [] s w true s (w.sent []) := .done
      rwa [World.sent_nil] at h
    · rename_i hd
      rw [wp_bind]
      have hg₀ := hg [] data rfl hd
      rw [World.sent_nil] at hg₀
      apply wp_mono (wp_send hd hg₀)
      rintro _ _ _ (⟨m, hm, hle⟩ | hs | ⟨e, hf⟩)
      · rw [toInt_of_lt (by omega), dif_neg (by omega), Int.toNat_natCast]
        have hlen : (data.drop m).length = n - m := by rw [List.length_drop, hn]
        apply wp_mono (ih (n - m) (by omega) (by omega) (fun sent rest he hr => ?_) hlen)
        · exact fun _ _ _ h => h.cons
        · rw [World.sent_sent]
          exact hg _ _ (by rw [List.append_assoc, ← he, List.take_append_drop]) hr
      · rw [dif_pos le_rfl, wp_pure]
        have h : SendAllOutcome f data s w false { s with ec := s.ec } (w.sent []) :=
          .failed s.ec [] List.nil_prefix (Or.inr hs) (Or.inl hs)
        rwa [World.sent_nil] at h
      · rw [dif_pos (by omega), wp_pure]
        have h : SendAllOutcome f data s w false { s with ec := some e } (w.sent []) :=
          .failed (some e) [] List.nil_prefix (Or.inl hf) (Or.inr (by simp))
        rwa [World.sent_nil] at h

inductive RecvOutcome (f : Faults) (len : ℕ) (s : Refs) (w : Side) : ℤ × Bytes → Refs → Side → Prop
  | received (bs rest : Bytes) : bs ≠ [] → bs.length ≤ len → w.incoming = bs ++ rest →
      RecvOutcome f len s w (toInt bs.length, bs) s (w.reading rest)
  | eof : w.incoming = [] → RecvOutcome f len s w (0, []) s w
  | failed (e : Errc) : f.net → RecvOutcome f len s w (-1, []) { s with ec := some e } w

theorem wp_recv (hl : len ≠ 0) (hg : G w (.recv len)) :
    wp (machine f) G (recv len) s w (RecvOutcome f len s w) := by
  unfold recv
  rw [wp_bind, perform, wp_issue]
  refine ⟨hg, ?_⟩
  obtain ⟨h, i, o⟩ := w
  rintro (e | ⟨bs, hbs⟩) ⟨h', i', o'⟩ ⟨a, ⟨rfl, hk⟩, ha⟩
  · obtain ⟨rfl, hf⟩ := hk
    obtain ⟨rfl, rfl⟩ := ha
    exact .failed e hf
  · simp only [wp_pure]
    rcases hk with ⟨-, -, h0⟩ | ⟨rfl, h0⟩ | ⟨rfl, h0, -⟩
    · exact absurd h0 hl
    · obtain ⟨hi, rfl⟩ := ha
      exact .received bs i' h0 hbs hi
    · obtain ⟨rfl, rfl, rfl⟩ := ha
      rw [show bs = [] from h0, List.length_nil, toInt_zero]
      exact .eof rfl

/-- Less than `len` bytes arrive. -/
inductive Lost (f : Faults) (len : ℕ) (s : Refs) (w : Side) : Refs → Side → Prop
  | reset : w.incoming.length < len →
      Lost f len s w { s with ec := some .connectionReset } (w.reading [])
  | failed (e : Errc) (bs rest : Bytes) : f.net → w.incoming = bs ++ rest → bs.length < len →
      Lost f len s w { s with ec := some e } (w.reading rest)

theorem Lost.append {bs rest : Bytes} {s' : Refs} {w' : Side} (hi : w.incoming = bs ++ rest)
    (h : Lost f len s (w.reading rest) s' w') : Lost f (bs.length + len) s w s' w' := by
  cases h with
  | reset hlt =>
    rw [World.reading_reading]
    refine .reset ?_
    rw [World.incoming_reading] at hlt
    rw [hi, List.length_append]
    omega
  | failed e bs' rest' hf hi' hlt =>
    rw [World.reading_reading]
    rw [World.incoming_reading] at hi'
    refine .failed e (bs ++ bs') rest' hf ?_ ?_
    · rw [hi, hi', List.append_assoc]
    · rw [List.length_append]
      omega

/-- Without faults, bytes that are there are not lost. -/
theorem not_lost {bs rest : Bytes} {s' : Refs} {w' : Side} (hf : ¬ f.net)
    (hi : w.incoming = bs ++ rest) (hl : len ≤ bs.length) : ¬ Lost f len s w s' w' := by
  rintro (hlt | ⟨_, _, _, hn, _, _⟩)
  · rw [hi, List.length_append] at hlt
    omega
  · exact hf hn

/-- `RecvAll` reads all it was asked for, or comes to the end of the input or a fault. -/
inductive RecvAllOutcome (f : Faults) (len : ℕ) (s : Refs) (w : Side) :
    Option Bytes → Refs → Side → Prop
  | done (bs rest : Bytes) : bs.length = len → w.incoming = bs ++ rest →
      RecvAllOutcome f len s w (some bs) s (w.reading rest)
  | lost {s' : Refs} {w' : Side} : Lost f len s w s' w' → RecvAllOutcome f len s w none s' w'

theorem wp_recvAll (hl : len < 2 ^ 31)
    (hg : ∀ bs rest, w.incoming = bs ++ rest → bs.length < len →
      G (w.reading rest) (.recv (len - bs.length))) :
    wp (machine f) G (recvAll len) s w (RecvAllOutcome f len s w) := by
  induction len using Nat.strong_induction_on generalizing w with
  | _ len ih =>
    unfold recvAll
    split
    · rename_i h0
      rw [wp_pure]
      exact .done [] w.incoming h0.symm rfl
    · rename_i h0
      have hg₀ : G w (.recv len) := hg [] w.incoming rfl (Nat.pos_of_ne_zero h0)
      rw [wp_bind]
      apply wp_mono (wp_recv h0 hg₀)
      rintro _ _ _ (⟨bs, rest, hne, hle, hi⟩ | hi | ⟨e, hf⟩)
      · have hpos := List.length_pos_iff.mpr hne
        simp only
        rw [toInt_of_lt (by omega), dif_neg (by omega), Int.toNat_natCast, wp_bind]
        apply wp_mono (ih (len - bs.length) (by omega) (by omega) fun bs' rest' hi' hlt => ?_)
        · rintro _ _ _ (⟨bs', rest', hl', hi'⟩ | hlost)
          · rw [wp_pure, Option.map_some, List.take_length, World.reading_reading]
            refine .done _ _ (by simp; omega) ?_
            rw [hi, List.append_assoc, ← hi', World.incoming_reading]
          · rw [wp_pure, Option.map_none]
            have := hlost.append hi
            rw [Nat.add_sub_cancel' hle] at this
            exact .lost this
        · rw [World.incoming_reading] at hi'
          have := hg (bs ++ bs') rest' (by rw [hi, hi', List.append_assoc]) (by simp; omega)
          rwa [World.reading_reading, Nat.sub_sub, ← List.length_append]
      · simp only [dif_pos le_rfl, if_pos]
        rw [wp_bind, wp_setEc, wp_pure]
        have hr : RecvAllOutcome f len s w none { s with ec := some .connectionReset }
            (w.reading []) := .lost (.reset (by rw [hi]; exact Nat.pos_of_ne_zero h0))
        rwa [← hi, World.reading_self] at hr
      · simp only [dif_pos (show (-1 : ℤ) ≤ 0 by omega), if_neg (show (-1 : ℤ) ≠ 0 by omega)]
        rw [wp_pure]
        exact .lost (.failed e [] w.incoming hf rfl (Nat.pos_of_ne_zero h0))

end Xfer.Net
