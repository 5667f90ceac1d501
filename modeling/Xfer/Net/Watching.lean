import Xfer.Net.Liveness
import Xfer.Process.Apart

/-! # The socket functions next to any peer

Others may change the files of a party at any time, and its peer is any peer.
What the socket functions then do to the ledger, on this machine or on a part
of it.
-/

namespace Xfer.Net

open Process Posix Code Program

abbrev Book := Ledger Host UInt8

/-- The kernel where others change files at any time. -/
def volatile (f : Faults) : Kernel Call.Result Host UInt8 := fun h c a r h' =>
  ∃ g, kernel f h c a r g ∧ h'.stream = g.stream

theorem volatile_live (f : Faults) : Live (volatile f) Call.Reads Call.Writes where
  offers h c := by
    rcases (kernel_live f).offers h c with ⟨r, h', hk⟩ | ⟨hw, ⟨b, r, h', hk⟩, ⟨r', h'', hk'⟩⟩ |
      ⟨hr, hin, ⟨r, h', hk⟩⟩
    · exact Or.inl ⟨r, h', h', hk, rfl⟩
    · exact Or.inr (Or.inl ⟨hw, ⟨b, r, h', h', hk, rfl⟩, r', h'', h'', hk', rfl⟩)
    · refine Or.inr (Or.inr ⟨hr, fun b => ?_, r, h', h', hk, rfl⟩)
      obtain ⟨r, h', hk⟩ := hin b
      exact ⟨r, h', h', hk, rfl⟩
  out_of_hangup := by
    rintro h c r h' ⟨g, hk, -⟩
    obtain ⟨b, r, h', hk⟩ := (kernel_live f).out_of_hangup hk
    exact ⟨b, r, h', h', hk, rfl⟩

/-- A peer that is gone is like a connection that fails. -/
theorem kernel_tolerates (f : Faults) : Tolerates (kernel f) (kernel { f with net := True }) where
  le {h c a r h'} hk := by
    cases c with
    | send data =>
      rcases r with e | n
      · exact ⟨hk.1, hk.2.imp_left fun hn => ⟨hn.1, trivial⟩⟩
      · exact hk
    | recv len =>
      rcases r with e | bs
      · exact ⟨hk.1, hk.2.1, trivial⟩
      · exact hk
    | sendfile signals fd offset want =>
      cases r with
      | error e => exact ⟨hk.1, hk.2.imp_left fun hs => ⟨hs.1, Or.inl trivial⟩⟩
      | sent n hle => exact hk
      | interrupted hp => exact hk
    | _ => exact hk
  hangup {h c r h'} hk := by
    cases c with
    | send data =>
      rcases r with e | n
      · exact ⟨hk.1, Or.inl ⟨rfl, trivial⟩⟩
      · rcases hk.2 with ⟨ha, -⟩ | ⟨ha, -⟩ <;> cases ha
    | recv len =>
      rcases r with e | bs
      · cases hk.2.1
      · rcases hk.2 with ⟨ha, -⟩ | ⟨ha, -⟩ | ⟨ha, -⟩ <;> cases ha
    | sendfile signals fd offset want =>
      cases r with
      | error e => exact ⟨hk.1, Or.inl ⟨rfl, Or.inl trivial⟩⟩
      | sent n hle => obtain ⟨-, c, -, ⟨ha, -⟩ | ⟨ha, -⟩⟩ := hk <;> cases ha
      | interrupted hp => cases hk.2
    | _ => cases hk.1

/-- Some of the steps that a party can make next to any peer. -/
def Observed (f : Faults) (M : Machine Call.Result Book) : Prop :=
  ∀ {w c r w'}, M w c r w' → watched (volatile f) w c r w'

theorem observed_watched (f : Faults) : Observed f (watched (volatile f)) := id

theorem observed_kernel (f : Faults) : Observed f (watched (kernel f)) := by
  rintro w c r w' ⟨a, hk, ha⟩
  exact ⟨a, ⟨_, hk, rfl⟩, ha⟩

/-- Every run on the machine ends as `Q` says. -/
abbrev Ends (M : Machine Call.Result Book) {α : Type} (x : Session α) (s : Refs) (w : Book)
    (Q : α → Refs → Book → Prop) : Prop :=
  wp M (fun _ _ => True) x s w Q

variable {f : Faults} {M : Machine Call.Result Book} {G : Book → Call → Prop} {s s' : Refs}
  {w w' : Book} {data : Bytes} {len : ℕ}

theorem wp_perform {c : Call} {Q : c.Result → Refs → Book → Prop} :
    wp M G (perform c) s w Q ↔ G w c ∧ ∀ r w', M w c r w' → Q r s w' := Iff.rfl

theorem wp_progress {n : UInt64} {Q : Unit → Refs → Book → Prop} :
    wp M G (addProgress n) s w Q ↔ Q () { s with progress := s.progress + n } w := Iff.rfl

theorem sent_of_not_writes (hM : Observed f M) {c : Call} {r : c.Result} (hm : M w c r w')
    (hc : ¬ c.Writes) : w'.sent = w.sent := by
  obtain ⟨a, ⟨g, hk, -⟩, ha⟩ := hM hm
  cases a with
  | out bs => exact absurd (writes_of_out hk) hc
  | _ => exact ha.2

theorem received_of_not_reads (hM : Observed f M) {c : Call} {r : c.Result} (hm : M w c r w')
    (hc : ¬ c.Reads) : w'.received = w.received := by
  obtain ⟨a, ⟨g, hk, -⟩, ha⟩ := hM hm
  cases a with
  | inp bs => exact absurd (reads_of_inp hk) hc
  | _ => exact ha.1

inductive SendEnding (f : Faults) (data : Bytes) (s : Refs) (w : Book) : ℤ → Refs → Book → Prop
  | sent (n : ℕ) {w' : Book} : 0 < n → n ≤ data.length → (w.send (data.take n)).Level w' →
      SendEnding f data s w (toInt n) s w'
  | stalled {w' : Book} : f.stall → w.Level w' → SendEnding f data s w 0 s w'
  | failed (e : Errc) {w' : Book} : w.Level w' → SendEnding f data s w (-1) { s with ec := some e } w'

section Send

variable (hM : Observed f M)
include hM

theorem wp_send_watched (hd : data ≠ []) (hg : G w (.send data)) :
    wp M G (send data) s w (SendEnding f data s w) := by
  unfold send
  rw [wp_bind, wp_perform]
  refine ⟨hg, fun r w' hm => ?_⟩
  obtain ⟨a, ⟨g, ⟨-, hk⟩, -⟩, ha⟩ := hM hm
  rcases r with e | ⟨n, hn⟩
  · rcases hk with ⟨rfl, -⟩ | ⟨rfl, -⟩
    · exact .failed e ha
    · exact .failed e ha
  · simp only [wp_pure]
    rcases hk with ⟨rfl, h0, hs⟩ | ⟨rfl, h0⟩
    · rw [show n = 0 from h0, toInt_zero]
      exact .stalled (hs.resolve_left hd) ha
    · exact .sent n h0 hn ha

end Send

/-- `SendAll` writes everything, or a part of it and reports an error. -/
inductive SendAllEnding (f : Faults) (data : Bytes) (s : Refs) (w : Book) :
    Bool → Refs → Book → Prop
  | done {w' : Book} : (w.send data).Level w' → SendAllEnding f data s w true s w'
  | failed (e : ErrorCode) (sent : Bytes) {w' : Book} : sent <+: data → f.stall ∨ e ≠ none →
      (w.send sent).Level w' → SendAllEnding f data s w false { s with ec := e } w'

theorem Ledger.Level.send {w w' : Book} (h : w.Level w') (bs : Bytes) :
    (w.send bs).Level (w'.send bs) :=
  ⟨h.1, congrArg (· ++ bs) h.2⟩

theorem level_send_send {w w₁ w₂ : Book} {bs cs : Bytes} (h : (w.send bs).Level w₁)
    (h' : (w₁.send cs).Level w₂) : (w.send (bs ++ cs)).Level w₂ := by
  refine ⟨h'.1.trans h.1, h'.2.trans ?_⟩
  change w₁.sent ++ cs = w.sent ++ (bs ++ cs)
  rw [h.2, ← List.append_assoc]
  rfl

theorem level_send_nil {w w' : Book} : (w.send []).Level w' ↔ w.Level w' := by
  unfold Ledger.Level Ledger.send
  rw [List.append_nil]

theorem level_receive_nil {w w' : Book} : (w.receive []).Level w' ↔ w.Level w' := by
  unfold Ledger.Level Ledger.receive
  rw [List.append_nil]

theorem level_receive_receive {w w₁ w₂ : Book} {bs cs : Bytes} (h : (w.receive bs).Level w₁)
    (h' : (w₁.receive cs).Level w₂) : (w.receive (bs ++ cs)).Level w₂ := by
  refine ⟨h'.1.trans ?_, h'.2.trans h.2⟩
  change w₁.received ++ cs = w.received ++ (bs ++ cs)
  rw [h.1, ← List.append_assoc]
  rfl

theorem SendAllEnding.cons {n : ℕ} {ok : Bool} {w₁ : Book} (h₁ : (w.send (data.take n)).Level w₁)
    (h : SendAllEnding f (data.drop n) s w₁ ok s' w') : SendAllEnding f data s w ok s' w' := by
  cases h with
  | done hl =>
    have := level_send_send h₁ hl
    rw [List.take_append_drop] at this
    exact .done this
  | failed e sent hs he hl =>
    refine .failed e _ ?_ he (level_send_send h₁ hl)
    obtain ⟨rest, hr⟩ := hs
    exact ⟨rest, by rw [List.append_assoc, hr, List.take_append_drop]⟩

theorem wp_sendAll_watched (hM : Observed f M) (hl : data.length < 2 ^ 31)
    (hg : ∀ sent rest w', data = sent ++ rest → rest ≠ [] → (w.send sent).Level w' →
      G w' (.send rest)) :
    wp M G (sendAll data) s w (SendAllEnding f data s w) := by
  induction hn : data.length using Nat.strong_induction_on generalizing data w with
  | _ n ih =>
    unfold sendAll
    split
    · rename_i hd
      subst hd
      exact .done (level_send_nil.mpr (.refl w))
    · rename_i hd
      rw [wp_bind]
      apply wp_mono (wp_send_watched hM hd (hg [] data w rfl hd (level_send_nil.mpr (.refl w))))
      rintro _ _ w₁ (⟨m, hm, hle, h₁⟩ | ⟨hs, h₁⟩ | ⟨e, h₁⟩)
      · rw [toInt_of_lt (by omega), dif_neg (by omega), Int.toNat_natCast]
        have hlen : (data.drop m).length = n - m := by rw [List.length_drop, hn]
        refine wp_mono (ih (n - m) (by omega) (by omega) (fun sent rest w' he hr h₂ => ?_) hlen)
          fun _ _ _ h => h.cons h₁
        refine hg _ rest w' ?_ hr (level_send_send h₁ h₂)
        rw [List.append_assoc, ← he, List.take_append_drop]
      · rw [dif_pos le_rfl]
        have h : SendAllEnding f data s w false { s with ec := s.ec } w₁ :=
          .failed s.ec [] List.nil_prefix (Or.inl hs) (level_send_nil.mpr h₁)
        exact h
      · rw [dif_pos (by omega)]
        exact .failed (some e) [] List.nil_prefix (Or.inr (by simp)) (level_send_nil.mpr h₁)

/-- What one `recv` leaves in the ledger. -/
inductive RecvEnding (len : ℕ) (s : Refs) (w : Book) : ℤ × Bytes → Refs → Book → Prop
  | received (bs : Bytes) {w' : Book} : bs ≠ [] → bs.length ≤ len → (w.receive bs).Level w' →
      RecvEnding len s w (toInt bs.length, bs) s w'
  | eof {w' : Book} : w.Level w' → RecvEnding len s w (0, []) s w'
  | failed (e : Errc) {w' : Book} : w.Level w' → RecvEnding len s w (-1, []) { s with ec := some e } w'

theorem wp_recv_watched (hM : Observed f M) (hl : len ≠ 0) (hg : G w (.recv len)) :
    wp M G (recv len) s w (RecvEnding len s w) := by
  unfold recv
  rw [wp_bind, wp_perform]
  refine ⟨hg, fun r w' hm => ?_⟩
  obtain ⟨a, ⟨g, ⟨-, hk⟩, -⟩, ha⟩ := hM hm
  rcases r with e | ⟨bs, hbs⟩
  · obtain ⟨rfl, -⟩ := hk
    exact .failed e ha
  · simp only [wp_pure]
    rcases hk with ⟨-, -, h0⟩ | ⟨rfl, h0⟩ | ⟨rfl, h0, -⟩
    · exact absurd h0 hl
    · exact .received bs h0 hbs ha
    · rw [show bs = [] from h0, List.length_nil, toInt_zero]
      exact .eof ha

/-- `RecvAll` receives all it was asked for, or less of it and reports an error. -/
inductive RecvAllEnding (len : ℕ) (s : Refs) (w : Book) : Option Bytes → Refs → Book → Prop
  | done (bs : Bytes) {w' : Book} : bs.length = len → (w.receive bs).Level w' →
      RecvAllEnding len s w (some bs) s w'
  | lost (e : Errc) (bs : Bytes) {w' : Book} : bs.length < len → (w.receive bs).Level w' →
      RecvAllEnding len s w none { s with ec := some e } w'

theorem wp_recvAll_watched (hM : Observed f M) (hl : len < 2 ^ 31)
    (hg : ∀ bs w', bs.length < len → (w.receive bs).Level w' → G w' (.recv (len - bs.length))) :
    wp M G (recvAll len) s w (RecvAllEnding len s w) := by
  induction len using Nat.strong_induction_on generalizing w with
  | _ len ih =>
    unfold recvAll
    split
    · rename_i h0
      exact .done [] h0.symm (level_receive_nil.mpr (.refl w))
    · rename_i h0
      have hg₀ : G w (.recv len) :=
        hg [] w (Nat.pos_of_ne_zero h0) (level_receive_nil.mpr (.refl w))
      rw [wp_bind]
      apply wp_mono (wp_recv_watched hM h0 hg₀)
      rintro _ _ w₁ (⟨bs, hne, hle, h₁⟩ | h₁ | ⟨e, h₁⟩)
      · have hpos := List.length_pos_iff.mpr hne
        simp only
        rw [toInt_of_lt (by omega), dif_neg (by omega), Int.toNat_natCast, wp_bind]
        apply wp_mono (ih (len - bs.length) (by omega) (by omega) fun bs' w' hlt h₂ => ?_)
        · rintro _ _ w₂ (⟨bs', hl', h₂⟩ | ⟨e, bs', hlt, h₂⟩)
          · rw [wp_pure, Option.map_some, List.take_length]
            exact .done _ (by simp; omega) (level_receive_receive h₁ h₂)
          · rw [wp_pure, Option.map_none]
            exact .lost e (bs ++ bs') (by simp; omega) (level_receive_receive h₁ h₂)
        · have := hg (bs ++ bs') w' (by simp; omega) (level_receive_receive h₁ h₂)
          rwa [List.length_append, ← Nat.sub_sub] at this
      · simp only [dif_pos le_rfl, if_pos]
        exact .lost .connectionReset [] (Nat.pos_of_ne_zero h0) (level_receive_nil.mpr h₁)
      · simp only [dif_pos (show (-1 : ℤ) ≤ 0 by omega), if_neg (show (-1 : ℤ) ≠ 0 by omega)]
        exact .lost e [] (Nat.pos_of_ne_zero h0) (level_receive_nil.mpr h₁)

end Xfer.Net
