import Xfer.Net.Watching
import Xfer.Transfer.Precheck
import Xfer.Transfer.Session

/-! # No standstill

The sender waits for the receiver only between its session header and the
acknowledgement, and the receiver for the sender's session header and then for
records. These are never the same moment, so the two can always go on.
-/

namespace Xfer.Transfer

open Net Common Posix Process Code Program Relation

variable {f : Faults} {M : Machine Call.Result Book} {G : Book → Call → Prop} {s : Refs} {w : Book}
  {sock : Socket} {signals : ℕ} {paths : List Bytes} {es : List FileEntry}

/-- When the sender makes a call that may have to wait. -/
structure SenderTurn (w : Book) (c : Call) : Prop where
  reading : c.Reads → w.sent.length = 32 ∧ w.received.length < 8
  writing : c.Writes → w.sent.length < 32 ∨ 8 ≤ w.received.length

/-- When the receiver makes a call that may have to wait. -/
structure ReceiverTurn (w : Book) (c : Call) : Prop where
  reading : c.Reads → w.received.length < 32 ∨ 8 ≤ w.sent.length
  writing : c.Writes → w.received.length = 32 ∧ w.sent.length < 8

theorem turns_neverBothWait : NeverBothWait Call.Reads Call.Writes SenderTurn ReceiverTurn where
  reading hc hd hp hq := by
    have hp := hp.reading hc
    have hq := hq.reading hd
    simp only at hp hq
    omega
  writing htx hty hc hd hp hq := by
    have hp := hp.writing hc
    have hq := hq.writing hd
    have htx := List.length_pos_iff.mpr htx
    have hty := List.length_pos_iff.mpr hty
    simp only [List.length_append] at hp hq
    omega

/-- What comes after a call is of no account here. -/
abbrev Minds (M : Machine Call.Result Book) (G : Book → Call → Prop) {α : Type} (x : Session α)
    (s : Refs) (w : Book) : Prop :=
  wp M G x s w fun _ _ _ => True

theorem minds_local (hM : Observed f M) {α : Type} {x : Session α} (hx : Only Local x)
    (hG : ∀ {w c}, Local c → G w c) :
    wp M G x s w fun _ _ w' => w'.received = w.received ∧ w'.sent = w.sent := by
  have hI : ∀ {w₁ : Book} {c : Call} {r : c.Result} {w₂ : Book},
      (w₁.received = w.received ∧ w₁.sent = w.sent) → Local c → M w₁ c r w₂ →
        w₂.received = w.received ∧ w₂.sent = w.sent := by
    rintro w₁ c r w₂ ⟨hr, hs⟩ hc hm
    exact ⟨(received_of_not_reads hM hm hc.1).trans hr, (sent_of_not_writes hM hm hc.2).trans hs⟩
  exact wp_mono (hx.keep (Q := fun _ _ _ => True) ensures_true ⟨rfl, rfl⟩ hI fun _ hc => hG hc)
    fun _ _ _ h => h.2

section Sender

variable (hM : Observed f M)
include hM

theorem minds_readAck (hr : w.received = []) (hs : w.sent.length = 32) :
    wp M SenderTurn readAck s w fun r _ w' => r ≠ none → 8 ≤ w'.received.length := by
  unfold readAck
  rw [wp_bind]
  refine wp_mono (wp_recvAll_watched hM (by omega) fun bs w' hlt hl => ?_) ?_
  · refine ⟨fun _ => ⟨by rw [hl.2]; exact hs, ?_⟩, fun h => h.elim⟩
    rw [hl.1, Ledger.received_receive, hr, List.nil_append]
    exact hlt
  · rintro r t w' (⟨buf, hlen, hl⟩ | ⟨er, bs, -, -⟩)
    · have h8 : 8 ≤ w'.received.length := by
        rw [hl.1, Ledger.received_receive, hr, List.nil_append, hlen]
      simp only
      split
      · exact fun _ => h8
      · exact fun _ => h8
    · exact fun h => absurd rfl h

theorem minds_sendManifest (options : SenderOptions) (hr : w.received = []) (hw : w.sent = []) :
    Minds M SenderTurn (sendManifest sock signals paths options es) s w := by
  unfold sendManifest
  rw [Minds, wp_bind]
  have hheader := length_encodeSessionHeader (sessionHeader es)
  refine wp_mono (wp_sendAll_watched hM (by omega) fun sent rest w' he hne hl => ?_) ?_
  · have hlen := congrArg List.length he
    have hpos := List.length_pos_iff.mpr hne
    rw [List.length_append] at hlen
    refine ⟨fun h => h.elim, fun _ => Or.inl ?_⟩
    rw [hl.2, Ledger.sent_send, hw, List.nil_append]
    omega
  · rintro ok t w₁ (hl | ⟨er, sent, -, -, -⟩)
    · have hs₁ : w₁.sent.length = 32 := by
        rw [hl.2, Ledger.sent_send, hw, List.nil_append, hheader]
      simp only [Bool.not_true, Bool.false_eq_true, if_false, wp_bind]
      refine wp_mono (minds_readAck hM (hl.1.trans hr) hs₁) fun r t w₂ h₂ => ?_
      cases r with
      | none => trivial
      | some v =>
        -- from here on, the sender only writes
        have honly := (oblivious_sendRest sock signals paths options es).only
        refine honly.guard (I := fun w => 8 ≤ w.received.length) ensures_true (h₂ (by simp)) ?_ ?_
        · intro w₁ c r w₂ hi hc hm
          rwa [received_of_not_reads hM hm hc]
        · exact fun hi hc => ⟨fun h => absurd h hc, fun _ => Or.inr hi⟩
    · trivial

theorem minds_sendPaths (std : StdSort) (options : SenderOptions) (hr : w.received = [])
    (hw : w.sent = []) : Minds M SenderTurn (sendPaths std sock signals paths options) s w := by
  have hturn : ∀ {w c}, Local c → SenderTurn w c := fun hc =>
    ⟨fun h => absurd h hc.1, fun h => absurd h hc.2⟩
  unfold sendPaths
  rw [Minds, wp_bind]
  refine wp_mono (minds_local hM (local_of_looks (only_collectFiles std options paths)) hturn) ?_
  rintro es t w₁ ⟨hr₁, hw₁⟩
  split
  · trivial
  · rw [wp_bind]
    refine wp_mono (minds_local hM (local_of_looks (only_computeCrcs paths es)) hturn) ?_
    rintro r u w₂ ⟨hr₂, hw₂⟩
    cases r with
    | none => trivial
    | some es => exact minds_sendManifest hM options (hr₂.trans (hr₁.trans hr)) (hw₂.trans (hw₁.trans hw))

end Sender

section Receiver

variable (hM : Observed f M)
include hM

theorem minds_readSessionHeader (hr : w.received = []) (hw : w.sent = []) :
    wp M ReceiverTurn readSessionHeader s w fun r _ w' =>
      r ≠ none → w'.received.length = 32 ∧ w'.sent = [] := by
  unfold readSessionHeader
  rw [wp_bind]
  refine wp_mono (wp_recvAll_watched hM (by omega) fun bs w' hlt hl => ?_) ?_
  · refine ⟨fun _ => Or.inl ?_, fun h => h.elim⟩
    rw [hl.1, Ledger.received_receive, hr, List.nil_append]
    exact hlt
  · rintro r t w' (⟨buf, hlen, hl⟩ | ⟨er, bs, -, -⟩)
    · have h32 : w'.received.length = 32 ∧ w'.sent = [] := by
        rw [hl.1, Ledger.received_receive, hr, List.nil_append]
        exact ⟨hlen, hl.2.trans hw⟩
      simp only
      split
      · exact fun _ => h32
      · split
        · exact fun _ => h32
        · exact fun _ => h32
    · exact fun h => absurd rfl h

theorem minds_handshake (hr : w.received = []) (hw : w.sent = []) :
    wp M ReceiverTurn handshake s w fun r _ w' => r ≠ none → 8 ≤ w'.sent.length := by
  unfold handshake
  rw [wp_bind]
  refine wp_mono (minds_readSessionHeader hM hr hw) fun r t w₁ h₁ => ?_
  cases r with
  | none => exact fun h => absurd rfl h
  | some header =>
    obtain ⟨hr₁, hw₁⟩ := h₁ (by simp)
    have hack := length_encodeAck 0
    simp only [wp_bind]
    refine wp_mono (wp_sendAll_watched hM (by omega) fun sent rest w' he hne hl => ?_) ?_
    · have hlen := congrArg List.length he
      have hpos := List.length_pos_iff.mpr hne
      rw [List.length_append] at hlen
      refine ⟨fun h => h.elim, fun _ => ⟨by rw [hl.1]; exact hr₁, ?_⟩⟩
      rw [hl.2, Ledger.sent_send, hw₁, List.nil_append]
      omega
    · rintro ok u w₂ (hl | ⟨er, sent, -, -, -⟩)
      · intro _
        rw [hl.2, Ledger.sent_send, hw₁, List.nil_append, hack]
      · exact fun h => absurd rfl h

theorem minds_reading {α : Type} {x : Session α} (hx : Only NoWrite x) (hw : 8 ≤ w.sent.length) :
    wp M ReceiverTurn x s w fun _ _ w' => 8 ≤ w'.sent.length := by
  have hI : ∀ {w₁ : Book} {c : Call} {r : c.Result} {w₂ : Book}, 8 ≤ w₁.sent.length → NoWrite c →
      M w₁ c r w₂ → 8 ≤ w₂.sent.length := by
    intro w₁ c r w₂ hi hc hm
    rwa [sent_of_not_writes hM hm hc]
  exact wp_mono (hx.keep (Q := fun _ _ _ => True) ensures_true hw hI fun hi hc =>
    ⟨fun _ => Or.inr hi, fun h => absurd h hc⟩) fun _ _ _ h => h.2

theorem minds_openSession (options : ReceiverOptions) (hr : w.received = []) (hw : w.sent = []) :
    wp M ReceiverTurn (openSession options) s w fun r _ w' => r ≠ none → 8 ≤ w'.sent.length := by
  unfold openSession
  rw [wp_bind]
  refine wp_mono (minds_handshake hM hr hw) fun r t w₁ h₁ => ?_
  cases r with
  | none => exact fun h => absurd rfl h
  | some header =>
    simp only [wp_bind]
    refine wp_mono (minds_reading hM (only_openOutput id id (fun _ => id) options) (h₁ (by simp)))
      fun r u w₂ h₂ => ?_
    cases r with
    | none => exact fun h => absurd rfl h
    | some dir => exact fun _ => h₂

theorem minds_receiveStream (options : ReceiverOptions) (hr : w.received = []) (hw : w.sent = []) :
    Minds M ReceiverTurn (receiveStream options) s w := by
  unfold receiveStream
  rw [Minds, wp_bind]
  refine wp_mono (minds_openSession hM options hr hw) fun r t w₁ h₁ => ?_
  rcases r with _ | ⟨header, dir⟩
  · trivial
  · simp only [wp_bind]
    refine wp_mono (minds_reading hM (only_receiveRecords _ _ _) (h₁ (by simp)))
      fun ok u w₂ h₂ => ?_
    cases ok with
    | false => trivial
    | true =>
      simp only [Bool.not_true, Bool.false_eq_true, if_false, wp_bind]
      exact wp_mono (minds_reading hM (only_finishSession (fun _ => id) id) h₂) fun _ _ _ _ => trivial

end Receiver

/-- Whatever each party finds on its side, and however the channels fill and drain, the two can go
on until both have returned: one of them can always make a call. -/
theorem sendPaths_receiveStream_go_on {K : Kernel Call.Result Host UInt8}
    (hlive : Live K Call.Reads Call.Writes) (hK : ∀ {h c a r h'}, K h c a r h' → volatile f h c a r h')
    {cap : ℕ} (hcap : 1 ≤ cap) (std : StdSort) (sock : Socket) (signals : ℕ) (paths : List Bytes)
    (options : SenderOptions) (receiving : ReceiverOptions) (s t : Refs) (sender receiver : Host)
    {n : Net Call.Result Host UInt8 (Bool × Refs) (Bool × Refs)}
    (hn : ReflTransGen (Net.Step K cap) ⟨(sendPaths std sock signals paths options).run s, sender,
      (receiveStream receiving).run t, receiver, [], []⟩ n)
    (hopen : ¬ (Closed n.left ∧ Closed n.right)) : ∃ n', Net.Step K cap n n' := by
  have hM : Observed f (watched K) := by
    rintro w c r w' ⟨a, hk, ha⟩
    exact ⟨a, hK hk, ha⟩
  exact Net.never_stuck hlive hcap turns_neverBothWait
    (minds_sendPaths hM std options rfl rfl) (minds_receiveStream hM receiving rfl rfl) hn hopen

section Going

variable {α β γ : Type} {f : Faults} {x : Session α} {g : α → Session β} {s s' : Refs} {a : α}
  {h h' k : Host} {i j o o' : Bytes} {cap : ℕ}

/-- Some state that the pair can come to. -/
abbrev Comes (f : Faults) (cap : ℕ) (n : Net Call.Result Host UInt8 β γ)
    (Q : Net Call.Result Host UInt8 β γ → Prop) : Prop :=
  ∃ n', ReflTransGen (Net.Step (kernel f) cap) n n' ∧ Q n'

theorem comes_left {q : Program Call.Result γ} {Q : Net Call.Result Host UInt8 (β × Refs) γ → Prop}
    (hx : Always f x s ⟨h, i ++ [0], o⟩ fun a' t w' => a' = a ∧ t = s' ∧ w' = ⟨h', j ++ [0], o'⟩)
    (hcap : o'.length ≤ cap) (hq : ¬ Closed q)
    (hgo : Comes f cap ⟨(g a).run s', h', q, k, o', j⟩ Q) :
    Comes f cap ⟨(x >>= g).run s, h, q, k, o, i⟩ Q := by
  obtain ⟨⟨a', s'⟩, w', he⟩ := exists_exec (kernel_live f).alone_total (x.run s) ⟨h, i ++ [0], o⟩
  obtain ⟨rfl, rfl, rfl⟩ := hx.of_exec he
  obtain ⟨n, hr, hn⟩ := hgo
  refine ⟨n, .trans ?_ hr, hn⟩
  rw [StateT.run_bind]
  exact Net.left_of_exec (Exec.beside he (List.cons_ne_nil 0 []) rfl rfl hcap hq)

theorem comes_right {q : Program Call.Result γ} {Q : Net Call.Result Host UInt8 γ (β × Refs) → Prop}
    (hx : Always f x s ⟨h, i ++ [0], o⟩ fun a' t w' => a' = a ∧ t = s' ∧ w' = ⟨h', j ++ [0], o'⟩)
    (hcap : o'.length ≤ cap) (hq : ¬ Closed q)
    (hgo : Comes f cap ⟨q, k, (g a).run s', h', j, o'⟩ Q) :
    Comes f cap ⟨q, k, (x >>= g).run s, h, i, o⟩ Q := by
  obtain ⟨⟨a', s'⟩, w', he⟩ := exists_exec (kernel_live f).alone_total (x.run s) ⟨h, i ++ [0], o⟩
  obtain ⟨rfl, rfl, rfl⟩ := hx.of_exec he
  obtain ⟨n, hr, hn⟩ := hgo
  refine ⟨n, .trans ?_ hr, hn⟩
  rw [StateT.run_bind]
  exact Net.right_of_exec (Exec.beside he (List.cons_ne_nil 0 []) rfl rfl hcap hq)

end Going

/-- What the two files are announced with. -/
def nestedEntries : List FileEntry :=
  [⟨[0x61], 1, Crc32.compute [0x31]⟩, ⟨[0x64, 0x2F, 0x62], 2, Crc32.compute [0x32, 0x33]⟩]

theorem computeCrcs_nested {s : Refs} {w : Side} (hw : w.host.fs = nested) (h0 : s.ec = none) :
    Always .none (computeCrcs [rootName] (nestedFound.map Collected.entry)) s w fun r s' w' =>
      r = some nestedEntries ∧ s' = s ∧ w' = w := by
  have ha : readBack nested [rootName] { relPath := [0x61], size := 1 } = some [0x31] := by
    decide
  have hb : readBack nested [rootName] { relPath := [0x64, 0x2F, 0x62], size := 2 } =
      some [0x32, 0x33] := by decide
  have hs : Addressable w.host.fs := hw ▸ addressable_nested
  apply wp_mono (always_computeCrcs hs h0 _)
  rw [hw]
  rintro r t _ ⟨rfl, ⟨es, rfl, hes, rfl⟩ | ⟨-, -, hread | ⟨e, he, hno⟩⟩⟩
  · obtain ⟨e, es', ⟨p, hp, rfl⟩, hes', rfl⟩ := List.forall₂_cons_left_iff.mp hes
    obtain ⟨e', es'', ⟨p', hp', rfl⟩, hnil, rfl⟩ := List.forall₂_cons_left_iff.mp hes'
    obtain rfl := List.forall₂_nil_left_iff.mp hnil
    obtain rfl := Option.some.inj (ha.symm.trans hp)
    obtain rfl := Option.some.inj (hb.symm.trans hp')
    exact ⟨rfl, rfl, rfl⟩
  · exact hread.elim
  · rcases List.mem_cons.mp he with rfl | he
    · exact absurd (ha.symm.trans hno) (by simp)
    · obtain rfl := List.mem_singleton.mp he
      exact absurd (hb.symm.trans hno) (by simp)

theorem sendAll_done {data : Bytes} {s : Refs} {w : Side} (hl : data.length < 2 ^ 31) :
    Always .none (sendAll data) s w fun ok s' w' => ok = true ∧ s' = s ∧ w' = w.sent data := by
  apply wp_mono (wp_sendAll hl fun _ _ _ _ => trivial)
  rintro _ t _ (_ | ⟨_, _, _, hn, _⟩)
  · exact ⟨rfl, rfl, rfl⟩
  · exact absurd hn (by simp [Faults.none])

theorem handshake_done {header : SessionHeader} {s : Refs} {w : Side} {i : Bytes}
    (hi : w.incoming = encodeSessionHeader header ++ i) : Always .none handshake s w fun r s' w' =>
      r = some header ∧ s' = s ∧ w' = (w.reading i).sent (encodeAck 0) := by
  unfold handshake
  rw [Always, wp_bind]
  apply wp_mono (wp_readSessionHeader fun _ _ _ _ => trivial)
  intro r t w₁ ho
  obtain ⟨rfl, rfl, rfl⟩ := ho.of_encode id (length_encodeSessionHeader header) hi
    (sessionOf_encode header)
  simp only [wp_bind]
  apply wp_mono (sendAll_done (by simp))
  rintro _ _ _ ⟨rfl, rfl, rfl⟩
  exact ⟨rfl, rfl, rfl⟩

theorem readAck_done {v : UInt32} {s : Refs} {w : Side} {i : Bytes}
    (hi : w.incoming = encodeAck v ++ i) : Always .none readAck s w fun r s' w' =>
      r = some v ∧ s' = s ∧ w' = w.reading i :=
  wp_mono (wp_readAck fun _ _ _ _ => trivial) fun _ _ _ ho =>
    ho.of_encode id (length_encodeAck v) hi (ackOf_encode v)

theorem recvAll_open {α : Type} {len : ℕ} (hl : len ≠ 0) (g : Option Bytes → Session α) (s : Refs) :
    ¬ Closed ((recvAll len >>= g).run s) := by
  rintro ⟨a, h⟩
  unfold recvAll at h
  rw [dif_neg hl] at h
  cases h

/-- The sender has the acknowledgement, and what comes before the first path is on its way. -/
theorem comes_midway : Comes .none 64
    ⟨(sendPaths insertionSort ⟨0⟩ 0 [rootName] { recursive := true }).run {}, ⟨nested, none⟩,
      (receiveStream { outputDir := rootName }).run {}, ⟨.empty, none⟩, [], []⟩ fun n =>
    n.toRight = encodeFixed ⟨[0x61], 1, Crc32.compute [0x31]⟩ ∧ n.toLeft = [] ∧ ¬ Closed n.right := by
  have hwait : ¬ Closed ((receiveStream { outputDir := rootName }).run {}) := by
    unfold receiveStream openSession handshake readSessionHeader
    simp only [bind_assoc]
    exact recvAll_open (by omega) _ _
  have hne : nestedFound.map Collected.entry ≠ [] := List.cons_ne_nil _ _
  rw [sendPaths_eq]
  refine comes_left (always_collectFiles_of_selected id selected_nested) (Nat.zero_le 64) hwait ?_
  unfold sendScanned
  rw [if_neg hne]
  refine comes_left (computeCrcs_nested rfl rfl) (Nat.zero_le 64) hwait ?_
  unfold sendManifest writeSessionHeader
  simp only
  have hroom : ([] ++ encodeSessionHeader (sessionHeader nestedEntries)).length ≤ 64 := by
    rw [List.nil_append, length_encodeSessionHeader]
    decide
  refine comes_left (sendAll_done (by simp)) hroom hwait ?_
  simp only [Bool.not_true, Bool.false_eq_true, if_false]
  unfold receiveStream openSession
  rw [bind_assoc]
  have hheader : ([] ++ encodeSessionHeader (sessionHeader nestedEntries)) ++ [0] =
      encodeSessionHeader (sessionHeader nestedEntries) ++ ([] ++ [0]) := by
    rw [List.nil_append, List.nil_append]
  refine comes_right (j := []) (handshake_done hheader) (by simp) ?_ ?_
  · unfold readAck
    rw [bind_assoc]
    exact recvAll_open (by omega) _ _
  simp only [bind_assoc]
  have hack : ([] ++ encodeAck 0) ++ [0] = encodeAck 0 ++ ([] ++ [0]) := by
    rw [List.nil_append, List.nil_append]
  refine comes_left (j := []) (readAck_done hack) (by simp) ?_ ?_
  · rintro ⟨a, h⟩
    cases h
  simp only
  refine comes_left (x := startProgress) (a := ()) ⟨rfl, rfl, rfl⟩ (by simp) ?_ ?_
  · rintro ⟨a, h⟩
    cases h
  unfold nestedEntries sendRecords sendRecord writeFileHeader
  simp only [bind_assoc]
  rw [if_neg (by decide), bind_assoc]
  refine comes_left (sendAll_done (by simp)) (by simp) ?_
    ⟨_, .refl, List.nil_append _, rfl, ?_⟩
  · rintro ⟨a, h⟩
    cases h
  · rintro ⟨a, h⟩
    cases h

theorem sendPaths_receiveStream_midway :
    ∃ n, ReflTransGen (Net.Step (kernel .none) 64)
      ⟨(sendPaths insertionSort ⟨0⟩ 0 [rootName] { recursive := true }).run {}, ⟨nested, none⟩,
        (receiveStream { outputDir := rootName }).run {}, ⟨.empty, none⟩, [], []⟩ n ∧
      n.toRight = encodeFixed ⟨[0x61], 1, Crc32.compute [0x31]⟩ ∧ n.toLeft = [] ∧
      ∃ n', Net.Step (kernel .none) 64 n n' := by
  obtain ⟨n, hr, hright, hleft, hopen⟩ := comes_midway
  refine ⟨n, hr, hright, hleft, ?_⟩
  exact sendPaths_receiveStream_go_on (kernel_live .none) (fun hk => ⟨_, hk, rfl⟩) (by omega)
    insertionSort ⟨0⟩ 0 [rootName] { recursive := true } { outputDir := rootName } {} {}
    ⟨nested, none⟩ ⟨.empty, none⟩ hr fun hc => hopen hc.2

end Xfer.Transfer
