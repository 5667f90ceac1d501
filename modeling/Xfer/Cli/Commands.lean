import Xfer.Cli.Paired
import Xfer.Transfer.Fidelity

/-! # Two commands

A command that sends and one that receives, of which one listens at the port
that the other one dials. They start on their own in any order. If the one who
dials gets through, the files arrive; otherwise it gives up, and the other one
waits.
-/

namespace Xfer.Cli

open Net Transfer Common Posix Process Code Program FileSystem Lifetime

variable {net : Resolver} {T : Book → Xfer.Call → Prop} {e : Endpoint Object} {h : Host}
  {s : Refs} {X is : Bytes} {port : ℤ} {host : Bytes} {work : Main Bool}
  {P : ℕ × Refs → World Proc UInt8 → Prop}

/-- A process that has done nothing with sockets yet. -/
def Unused (e : Endpoint Object) : Prop :=
  ∃ foreign : Set ℤ, foreign.Finite ∧ e = { state := State.start foreign }

theorem Unused.roomy (he : Unused e) : (e.set .sock (some (-1))).Roomy := by
  obtain ⟨foreign, hf, rfl⟩ := he
  exact ⟨Set.finite_empty, hf⟩

theorem Unused.connected (he : Unused e) : e.connected = none := by
  obtain ⟨foreign, -, rfl⟩ := he
  rfl

theorem solo_of_socket {α β : Type} {L U : ℤ → Prop} {A : Proc → Prop}
    {J : ℤ → Program Sys.Result α → Proc → Prop} {E : α → Proc → Prop}
    {J' : ℤ → Program (Lifetime.Call.Result (ι := Object)) β → Endpoint Object → Prop}
    {A' : Endpoint Object → Prop} {E' : β → Endpoint Object → Prop}
    {x : Program (Lifetime.Call.Result (ι := Object)) β} {k : β → Program Sys.Result α}
    (hx : Solo (switchboard net False) L A' U J' E' x e)
    (hJ : ∀ {y p e'}, J' y p e' →
      J y (Program.embed Sys.socket (fun _ r => r) p >>= k) ⟨e', h⟩)
    (hA : ∀ {e'}, A' e' → A ⟨e', h⟩)
    (hk : ∀ {b e'}, E' b e' → Solo (process net False .none) L A U J E (k b) ⟨e', h⟩) :
    Solo (process net False .none) L A U J E
      (Program.embed Sys.socket (fun _ r => r) x >>= k) ⟨e, h⟩ := by
  refine Solo.bind (E := fun b p => ∃ e', p = ⟨e', h⟩ ∧ E' b e')
    (Solo.embed process_mirrors hx rfl ?_ ?_ ?_) ?_
  · rintro y p e' _ rfl hj
    exact hJ hj
  · rintro e' _ rfl ha
    exact hA ha
  · rintro b e' _ rfl he
    exact ⟨e', rfl, he⟩
  · rintro b _ ⟨e', rfl, he⟩
    exact hk he

theorem Unused.listening (he : Unused e) : e.listening = none := by
  obtain ⟨foreign, -, rfl⟩ := he
  rfl

section Connect

variable (he : Unused e)

theorem sockets_sock : (e.set .sock (some (-1))).state.sockets .sock = some (-1) := by simp

theorem calm_sock : Calm net (fun _ c => Lifetime.Plain c) (Lifetime.Socket.default .sock) s.ec e
    fun _ ec e' => ec = s.ec ∧ e' = e.set .sock (some (-1)) :=
  local_construct calm_within id ⟨rfl, rfl⟩

theorem solo_sock {L U : ℤ → Prop} : Solo (switchboard net False) L (fun _ => False) U
    (fun _ _ _ => False) (fun r e' => r.2 = s.ec ∧ e' = e.set .sock (some (-1)))
    ((Lifetime.Socket.default .sock).run s.ec) e :=
  Calm.solo calm_sock

include he

theorem solo_await {U : ℤ → Prop} {J : ℤ → Program Sys.Result (ℕ × Refs) → Proc → Prop} :
    Solo (process net False .none) (· = port % 2 ^ 16) (fun p => p.host = h) U J (fun _ _ => False)
      ((command (bindAndAccept port .sock) work).run s) ⟨e, h⟩ := by
  unfold command
  rw [run_member_bind]
  refine solo_of_socket solo_sock (fun h => h.elim) (fun h => h.elim) ?_
  rintro ⟨_, ec⟩ _ ⟨hec, rfl⟩
  simp only at hec ⊢
  rw [run_member_bind]
  have hwait : Solo (switchboard net False) (· = port % 2 ^ 16) (fun _ => True) U
      (fun _ _ _ => False) (fun _ _ => False) ((bindAndAccept port .sock).run ec)
      (e.set .sock (some (-1))) :=
    solo_bindAndAccept sockets_sock (by decide) he.roomy he.connected
  exact solo_of_socket hwait (fun h => h.elim) (fun _ => rfl) fun h => h.elim

/-- A command that dials goes on when it gets through, and otherwise gives up. -/
theorem solo_dial {L U : ℤ → Prop} {A : Proc → Prop}
    {J : ℤ → Program Sys.Result (ℕ × Refs) → Proc → Prop}
    (hJ : ∀ {p : Program (Lifetime.Call.Result (ι := Object)) (Bool × ErrorCode)} {e'},
      Ensures (silently (switchboard net False)) (fun _ _ => True) p e'
        (fun r e'' => r.1 = true ∧ r.2 = s.ec ∧ Connected e'') →
      J port (Program.embed Sys.socket (fun _ r => r) p >>= fun r =>
        (if r.1 then work >>= fun ok => finish (if ok then 0 else 3) else finish 2).run
          { s with ec := r.2 }) ⟨e', h⟩) :
    Solo (process net False .none) L A U J
      (fun a p' => a.1 = 2 ∧ p'.host = h ∧ ∀ info, net.getaddrinfo host port = .ok info →
        ∀ p ∈ info, net.leads p.addr = some port → U port)
      ((command (dialOut host port .sock) work).run s) ⟨e, h⟩ := by
  unfold command
  rw [run_member_bind]
  refine solo_of_socket solo_sock (fun h => h.elim) (fun h => h.elim) ?_
  rintro ⟨_, ec⟩ _ ⟨hec, rfl⟩
  obtain rfl : ec = s.ec := hec
  simp only
  rw [run_member_bind]
  have hdial : Solo (switchboard net False) L (fun _ => False) U _ _
      ((dialOut host port .sock).run s.ec) (e.set .sock (some (-1))) :=
    solo_dialOut sockets_sock (by decide) he.roomy
  refine solo_of_socket hdial ?_ (fun h => h.elim) ?_
  · rintro x p e' ⟨rfl, hp⟩
    exact hJ hp
  · rintro ⟨_, ec⟩ e' ⟨rfl, hsock, hU⟩
    simp only [Bool.false_eq_true, if_false]
    unfold finish
    rw [run_member_bind]
    have hclose : Solo (switchboard net False) L (fun _ => False) U (fun _ _ _ => False)
        (fun _ _ => True) ((Lifetime.Socket.destroy .sock).run ec) e' :=
      Calm.solo (local_destroy_of_neg calm_within id hsock (by decide) trivial)
    refine solo_of_socket hclose (fun h => h.elim) (fun h => h.elim) ?_
    rintro ⟨_, ec⟩ e'' -
    exact ⟨rfl, rfl, hU⟩

variable (hwork : ∀ {e'}, Connected e' → Plays (paired net) (Turn T) P X
    ((work >>= fun ok => finish (if ok then 0 else 3)).run s) ⟨e', h⟩ [] is [])
include hwork

theorem plays_await : Plays (paired net) (Turn T) P X
    ((command (bindAndAccept port .sock) work).run s) ⟨e, h⟩ [] is [] := by
  unfold command
  rw [run_member_bind]
  refine plays_of_socket (calm_sock.mono (fun _ _ _ => trivial) fun _ _ hq => hq) ?_
  rintro ⟨_, ec⟩ _ ⟨hec, rfl⟩
  obtain rfl : ec = s.ec := hec
  simp only
  rw [run_member_bind]
  have haccept : Calm net (Places (port % 2 ^ 16)) (bindAndAccept port .sock) s.ec
      (e.set .sock (some (-1))) _ := calm_bindAndAccept sockets_sock (by decide) he.roomy
  refine plays_of_socket (haccept.mono (fun _ _ _ => trivial) fun _ _ hq => hq) ?_
  rintro ⟨_, ec⟩ e' ⟨rfl, hec, hc⟩
  obtain rfl : ec = s.ec := hec
  exact hwork hc

theorem solo_dial_plays {L U : ℤ → Prop} {A : Proc → Prop} :
    Solo (process net False .none) L A U
      (fun x p p' => x = port ∧ Plays (paired net) (Turn T) P X p p' [] is [])
      (fun a p' => a.1 = 2 ∧ p'.host = h ∧ ∀ info, net.getaddrinfo host port = .ok info →
        ∀ p ∈ info, net.leads p.addr = some port → U port)
      ((command (dialOut host port .sock) work).run s) ⟨e, h⟩ := by
  refine solo_dial he fun hp => ⟨rfl, plays_of_socket hp ?_⟩
  rintro ⟨_, ec⟩ e'' ⟨rfl, hec, hc⟩
  obtain rfl : ec = s.ec := hec
  exact hwork hc

end Connect

section Copy

variable {fs g : FileSystem} {std std' : StdSort} {signals signals' cap : ℕ} {argv argv' : List Bytes}
  {opts opts' : Options} {root : Bytes} {base o : Key} {e' : Endpoint Object}

/-- The two sessions that transfer a tree: what the one sends, the other one reads. -/
theorem tree_plays (std : StdSort) (signals : ℕ) {options : SenderOptions} {receiving : ReceiverOptions}
    {s t : Refs} (hs : Addressable fs) (ht : Tree fs root base) (hw : Whole options)
    (hc : Clear receiving g o (fs.files base))
    (hb : ∀ ns b, (ns, b) ∈ fs.files base → backslash ∉ ns) (h0 : s.ec = none) :
    ∃ X, (∀ sock : Net.Socket, sock.valid = true →
        Plays (Xfer.kernel .none) SenderTurn (fun a w => a.1 = true ∧ w.incoming = []) X
          ((sendPaths std sock signals [root] options).run s) ⟨fs, none⟩ [] (encodeAck 0) []) ∧
      Plays (Xfer.kernel .none) ReceiverTurn (fun b w => (b.1 = true ∧
          Arrived (fs.files base) (outputDir receiving g) o g w.host.fs t.summary b.2.summary) ∧
          w.incoming = []) (encodeAck 0)
        ((receiveStream receiving).run t) ⟨g, none⟩ [] X [] := by
  obtain ⟨items, hsel⟩ := Option.ne_none_iff_exists'.mp
    (selected_ne_none ht.pathExists : selected std fs options [root] ≠ none)
  obtain ⟨rs, hem⟩ := ht.exists_emits hs hw hsel
  have hcar : ∀ r ∈ rs, carried r ∈ fs.files base ∧ r.path = joinAll (carried r).1 := fun r hr =>
    ht.carried_mem hs hw hsel hem hr
  have hperm := ht.carried_perm hs hw hsel hem
  have hp : ∀ r ∈ rs, Proper r.path := fun r hr => by
    obtain ⟨hm, hpath⟩ := hcar r hr
    rw [hpath]
    exact ht.proper hm (hb _ _ hm)
  obtain ⟨F, hF⟩ := exists_accepted_files hc hperm hp
  have hdel : deliver receiving g (rs.map (·.toRecord)) = (F, true) := by
    rw [deliver, if_pos hc.isDirectory]
    exact storeAll_eq_true.mpr hF
  refine ⟨sessionStream rs, fun sock hsock => ?_, ?_⟩
  · exact sendPaths_plays hsel hem (ht.items_ne_nil hw hsel) signals hs h0 hsock
  · refine receiveStream_plays (ht.length_lt hs hw hsel hem) hc.isDirectory fun b w hr => ?_
    obtain ⟨rfl, hok⟩ := Prod.mk.inj (hdel.symm.trans hr.delivered)
    have hread := hr.read
    rw [← hok, if_pos rfl] at hread
    exact ⟨⟨hok.symm, arrived_of_accepted hc hperm (fun r hr => (hcar r hr).2) hp hF
      (hr.gained hok.symm)⟩, hread⟩

/-- One command sends and the other one receives; one of them listens and the other one dials. -/
structure Partners (argv argv' : List Bytes) (opts opts' : Options) : Prop where
  sends : parse argv {} = .ok opts ∧ opts.mode = .send
  receives : parse argv' {} = .ok opts' ∧ opts'.mode = .receive
  roles : awaits opts' = !awaits opts

/-- Both commands have ended well, and the files have arrived. -/
def Copied (fs g : FileSystem) (base o : Key) (receiving : ReceiverOptions) :
    Meeting Sys.Result Proc UInt8 ℤ (ℕ × Refs) (ℕ × Refs) → Prop
  | .apart .. => False
  | .joined n => ∃ s t, n.left = ret (0, s) ∧ n.right = ret (0, t) ∧
      Arrived (fs.files base) (outputDir receiving g) o g n.rightHost.host.fs {} t.summary

/-- One command has given up and the other one waits for ever; nothing has changed on their hosts. -/
def Missed (net : Resolver) (cap : ℕ) (h g : Host)
    (m : Meeting Sys.Result Proc UInt8 ℤ (ℕ × Refs) (ℕ × Refs)) : Prop :=
  (¬ ∃ m', Meeting.Step (process net False .none) cap m m') ∧ match m with
  | .joined _ => False
  | .apart p u _ q v _ => u.host = h ∧ v.host = g ∧
      ((∃ s, p = ret (2, s)) ∧ Waiting (process net False .none) q v ∨
        Waiting (process net False .none) p u ∧ ∃ t, q = ret (2, t))

/-- How a command that sends ends alone. -/
def SenderEnds (a : ℕ × Refs) (w : World Proc UInt8) : Prop := a.1 = 0 ∧ w.incoming = []

/-- How a command that receives ends alone. -/
def ReceiverEnds (fs g : FileSystem) (base o : Key) (receiving : ReceiverOptions) (b : ℕ × Refs)
    (w : World Proc UInt8) : Prop :=
  (b.1 = 0 ∧ Arrived (fs.files base) (outputDir receiving g) o g w.host.host.fs {} b.2.summary) ∧
    w.incoming = []

/-- Two commands that are to transfer a tree, once each of them has its connection. -/
structure Ready (net : Resolver) (fs g : FileSystem) (base o : Key) (X : Bytes) (work work' : Main Bool)
    (receiving : ReceiverOptions) : Prop where
  sender : ∀ {e}, Connected e → Plays (paired net) (Turn SenderTurn) SenderEnds X
    ((work >>= fun ok => finish (if ok then 0 else 3)).run {}) ⟨e, ⟨fs, none⟩⟩ [] (encodeAck 0) []
  receiver : ∀ {e}, Connected e → Plays (paired net) (Turn ReceiverTurn)
    (ReceiverEnds fs g base o receiving) (encodeAck 0)
    ((work' >>= fun ok => finish (if ok then 0 else 3)).run {}) ⟨e, ⟨g, none⟩⟩ [] X []

theorem exists_ready (net : Resolver) (std : StdSort) (signals : ℕ) (hs : Addressable fs)
    (ht : Tree fs root base) (hrec : opts.recursive = true) (hpaths : opts.paths = [root])
    (hc : Clear (receiverOptions opts') g o (fs.files base))
    (hb : ∀ ns b, (ns, b) ∈ fs.files base → backslash ∉ ns) :
    ∃ X, Ready net fs g base o X (sending std signals opts) (receiving opts') (receiverOptions opts') := by
  have hw : Whole (senderOptions opts) := ⟨hrec, rfl⟩
  obtain ⟨X, hsend, hreceive⟩ :=
    tree_plays (s := {}) (t := {}) std signals hs ht hw hc hb rfl
  refine ⟨X, fun he => ?_, fun he => ?_⟩
  · obtain ⟨fd, hfd, hsock, hcon⟩ := id he
    unfold sending
    rw [bind_assoc, run_member_bind]
    have hread : Calm net (fun _ _ => True) (Lifetime.issue (.fd .sock)) none _
        fun n ec e' => n = fd ∧ ec = none ∧ Connected e' :=
      local_fd calm_within (fun _ => trivial) hsock ⟨rfl, rfl, he⟩
    refine plays_of_socket hread ?_
    rintro ⟨n, ec⟩ e' ⟨hn, hec, he'⟩
    obtain rfl : n = fd := hn
    obtain rfl : ec = none := hec
    rw [hpaths]
    refine plays_session he' (hsend ⟨n⟩ (by simpa [Net.Socket.valid] using hfd)) ?_
    rintro b s' h' is' e'' ⟨hok, hin⟩
    simp only at hok
    exact ⟨by simp [hok], hin⟩
  · refine plays_session he hreceive ?_
    rintro b s' h' is' e'' ⟨⟨hok, harr⟩, hin⟩
    simp only at hok
    exact ⟨⟨by simp [hok], harr⟩, hin⟩

theorem inevitably_copied {receiving : ReceiverOptions} {p q : Program Sys.Result (ℕ × Refs)}
    {u v : Proc} {X : Bytes} (hcap : 0 < cap)
    (hp : Plays (paired net) (Turn SenderTurn) SenderEnds X p u [] (encodeAck 0) [])
    (hq : Plays (paired net) (Turn ReceiverTurn) (ReceiverEnds fs g base o receiving) (encodeAck 0)
      q v [] X []) :
    Inevitably (Net.Step (paired net) cap)
      (fun n => Copied fs g base o receiving (.joined n)) ⟨p, u, q, v, [], []⟩ := by
  have hend := Net.inevitably (A := fun (a : ℕ × Refs) _ => a.1 = 0)
    (B := fun (b : ℕ × Refs) (v : Proc) => b.1 = 0 ∧
      Arrived (fs.files base) (outputDir receiving g) o g v.host.fs {} b.2.summary)
    (paired_responsive net) turn_neverBothWait hcap hp hq
  refine hend.mono fun n hn => ?_
  obtain ⟨⟨_, s⟩, ⟨_, t⟩, hl, hr, rfl, rfl, harr⟩ := hn
  exact ⟨s, t, hl, hr, harr⟩

section Start

variable {receiving : ReceiverOptions} {work' : Main Bool} {port' : ℤ}
  (hready : Ready net fs g base o X work work' receiving) (he : Unused e) (he' : Unused e')
  (hcap : 0 < cap)
include hready he he' hcap

theorem copy_or_miss_of_await :
    Inevitably (Meeting.Step (process net False .none) cap)
      (fun m => Copied fs g base o receiving m ∨ Missed net cap ⟨fs, none⟩ ⟨g, none⟩ m)
      (.apart ((command (bindAndAccept port .sock) work).run {}) ⟨e, ⟨fs, none⟩⟩ none
        ((command (dialOut host port' .sock) work').run {}) ⟨e', ⟨g, none⟩⟩ none) := by
  have hlast : Lasting (process net False .none) fun p u =>
      Plays (paired net) (Turn SenderTurn) SenderEnds X p u [] (encodeAck 0) [] := lasting_plays
  have hsolo : Solo (process net False .none) (· = port % 2 ^ 16) (fun u => u.host = ⟨fs, none⟩)
      (fun _ => True) (fun _ _ _ => False) (fun _ _ => False)
      ((command (bindAndAccept port .sock) work).run {}) ⟨e, ⟨fs, none⟩⟩ := solo_await he
  have hsolo' : Solo (process net False .none) (fun _ => False) (fun _ => False) (fun _ => True) _ _
      ((command (dialOut host port' .sock) work').run {}) ⟨e', ⟨g, none⟩⟩ :=
    solo_dial_plays he' hready.receiver
  have hany : Lasting (process net False .none) fun (_ : Program Sys.Result (ℕ × Refs)) _ => True :=
    fun _ _ => trivial
  refine Meeting.inevitably (process_prompt net) @hlast @hany
    (fun hj => hj.elim) (fun hj _ hplays => inevitably_copied hcap hplays hj.2) (fun _ hd => Or.inl hd)
    ?_ hsolo hsolo' (plays_await he hready.sender) trivial nofun nofun
  intro p u a q v b hp hq hno
  rcases hp with ⟨_, -, hp⟩ | ⟨hwait, hhost⟩
  · exact hp.elim
  · rcases hq with ⟨⟨_, t⟩, rfl, rfl, hhost', -⟩ | ⟨-, hq⟩
    · exact Or.inr ⟨hno, hhost, hhost', Or.inr ⟨hwait, t, rfl⟩⟩
    · exact hq.elim

theorem copy_or_miss_of_dial :
    Inevitably (Meeting.Step (process net False .none) cap)
      (fun m => Copied fs g base o receiving m ∨ Missed net cap ⟨fs, none⟩ ⟨g, none⟩ m)
      (.apart ((command (dialOut host port' .sock) work).run {}) ⟨e, ⟨fs, none⟩⟩ none
        ((command (bindAndAccept port .sock) work').run {}) ⟨e', ⟨g, none⟩⟩ none) := by
  have hlast : Lasting (process net False .none) fun q v =>
      Plays (paired net) (Turn ReceiverTurn) (ReceiverEnds fs g base o receiving) (encodeAck 0)
        q v [] X [] := lasting_plays
  have hsolo : Solo (process net False .none) (fun _ => False) (fun _ => False) (fun _ => True) _ _
      ((command (dialOut host port' .sock) work).run {}) ⟨e, ⟨fs, none⟩⟩ :=
    solo_dial_plays he hready.sender
  have hsolo' : Solo (process net False .none) (· = port % 2 ^ 16) (fun v => v.host = ⟨g, none⟩)
      (fun _ => True) (fun _ _ _ => False) (fun _ _ => False)
      ((command (bindAndAccept port .sock) work').run {}) ⟨e', ⟨g, none⟩⟩ := solo_await he'
  have hany : Lasting (process net False .none) fun (_ : Program Sys.Result (ℕ × Refs)) _ => True :=
    fun _ _ => trivial
  refine Meeting.inevitably (process_prompt net) @hany @hlast
    (fun hj _ hplays => inevitably_copied hcap hj.2 hplays) (fun hj => hj.elim) (fun _ hd => Or.inl hd)
    ?_ hsolo hsolo' trivial (plays_await he' hready.receiver) nofun nofun
  intro p u a q v b hp hq hno
  rcases hq with ⟨_, -, hq⟩ | ⟨hwait, hhost⟩
  · exact hq.elim
  · rcases hp with ⟨⟨_, s⟩, rfl, rfl, hhost', -⟩ | ⟨-, hp⟩
    · exact Or.inr ⟨hno, hhost', hhost, Or.inl ⟨⟨s, rfl⟩, hwait⟩⟩
    · exact hp.elim

end Start

/-- Two commands at the start, on their hosts. -/
def started (std std' : StdSort) (signals signals' : ℕ) (argv argv' : List Bytes)
    (e e' : Endpoint Object) (fs g : FileSystem) :
    Meeting Sys.Result Proc UInt8 ℤ (ℕ × Refs) (ℕ × Refs) :=
  .apart ((main std signals argv).run {}) ⟨e, ⟨fs, none⟩⟩ none
    ((main std' signals' argv').run {}) ⟨e', ⟨g, none⟩⟩ none

/-- Whoever listens and whoever is first: the files arrive, or the one who dials has given up and
nothing has changed. -/
theorem commands_copy_or_miss (hp : Partners argv argv' opts opts') (he : Unused e) (he' : Unused e')
    (hs : Addressable fs) (ht : Tree fs root base) (hrec : opts.recursive = true)
    (hpaths : opts.paths = [root]) (hc : Clear (receiverOptions opts') g o (fs.files base))
    (hb : ∀ ns b, (ns, b) ∈ fs.files base → backslash ∉ ns) (hcap : 0 < cap) :
    Inevitably (Meeting.Step (process net False .none) cap)
      (fun m => Copied fs g base o (receiverOptions opts') m ∨ Missed net cap ⟨fs, none⟩ ⟨g, none⟩ m)
      (started std std' signals signals' argv argv' e e' fs g) := by
  obtain ⟨X, hready⟩ := exists_ready net std signals hs ht hrec hpaths hc hb
  unfold started
  rw [main_send hp.sends.1 hp.sends.2, main_receive hp.receives.1 hp.receives.2, hp.roles]
  cases awaits opts with
  | true => exact copy_or_miss_of_await hready he he' hcap
  | false => exact copy_or_miss_of_dial hready he he' hcap

end Copy

section Example

/-- A network where every name is that of the other host. -/
def twoHosts : Resolver where
  getaddrinfo _ port :=
    if 0 ≤ port ∧ port < 65536 then
      .ok [⟨afInet6, sockStream, 6, [UInt8.ofNat (port.toNat / 256), UInt8.ofNat (port.toNat % 256)]⟩]
    else .error (-8)
  leads
    | [hi, lo] => some (256 * hi.toNat + lo.toNat)
    | _ => none
  leads_eq {host port info p x} hinfo hp hx := by
    split_ifs at hinfo with hport
    obtain rfl := Except.ok.inj hinfo
    obtain rfl := List.mem_singleton.mp hp
    simp only [UInt8.toNat_ofNat', Option.some.injEq] at hx
    omega

/-- `xfer send -r --host b /`. -/
def sendArgv : List Bytes :=
  argv (ascii "xfer") (some .send)
    [.switch false .recursive, .host (ascii "b"), .path rootName (by decide)]

/-- `xfer recv -o /`. -/
def receiveArgv : List Bytes := argv (ascii "xfer") (some .recv) [.output false rootName]

theorem partners_example : Partners sendArgv receiveArgv
    { mode := .send, recursive := true, host := ascii "b", paths := [rootName] }
    { mode := .receive, outputDir := rootName } where
  sends := ⟨(parse_argv (begins_some _ _)).trans rfl, rfl⟩
  receives := ⟨(parse_argv (begins_some _ _)).trans rfl, rfl⟩
  roles := by decide

theorem unused_start : Unused { state := State.start ∅ } := ⟨∅, Set.finite_empty, rfl⟩

theorem nested_copied_or_missed : Inevitably (Meeting.Step (process twoHosts False .none) 1)
    (fun m => Copied nested .empty [] [] { outputDir := rootName } m ∨
      Missed twoHosts 1 ⟨nested, none⟩ ⟨.empty, none⟩ m)
    (started insertionSort insertionSort 0 0 sendArgv receiveArgv { state := State.start ∅ }
      { state := State.start ∅ } nested .empty) :=
  commands_copy_or_miss partners_example unused_start unused_start addressable_nested tree_nested
    rfl rfl clear_nested plain_nested Nat.one_pos

end Example

end Xfer.Cli
