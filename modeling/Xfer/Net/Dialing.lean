import Xfer.Net.Endpoint

/-! # Sockets without an outage

Where resources and the network are at hand, a socket that is to listen comes to
listen, and one that is to connect tries the addresses in turn until it gets
through. What is done before and afterwards does not touch the connection.
-/

namespace Xfer.Net.Lifetime

open Process Code Program

variable {ι : Type} [DecidableEq ι] {net : Resolver} {e : Endpoint ι} {i j : ι} {m n : ℤ}
  {ec : ErrorCode} {G : Endpoint ι → Call ι → Prop}

/-- Every run of calls that do not touch the connection ends as `Q` says. -/
abbrev Calm (net : Resolver) (G : Endpoint ι → Call ι → Prop) {α : Type} (x : Member ι α)
    (ec : ErrorCode) (e : Endpoint ι) (Q : α → ErrorCode → Endpoint ι → Prop) : Prop :=
  wp (silently (switchboard net False)) G x ec e Q

/-- The calls that are of no use to get a connection. -/
def Plain : Call ι → Prop
  | .connect .. | .listen .. | .accept _ => False
  | _ => True

theorem deed_of_plain {outage : Prop} {c : Call ι} {d : Deed UInt8 ℤ} {r : c.Result} {e' : Endpoint ι}
    (hc : Plain c) (hd : switchboard net outage e c d r e') : d = .data .silent ∨ d = .hush := by
  cases c with
  | connect | listen | accept => exact hc.elim
  | bind fd port => cases r <;> exact Or.inl hd.1
  | close self fd =>
    rw [hd.1]
    split
    · exact Or.inr rfl
    · exact Or.inl rfl
  | _ => exact Or.inl hd.1

/-- The machine does nothing that the switchboard does not. -/
def Within (net : Resolver) (outage : Prop) (M : Machine (Call.Result (ι := ι)) (Endpoint ι)) : Prop :=
  ∀ {e c r e'}, M e c r e' → ∃ d, switchboard net outage e c d r e'

/-! ## What concerns the objects only -/

section Local

variable {M : Machine (Call.Result (ι := ι)) (Endpoint ι)} {outage : Prop} (hM : Within net outage M)
  (hG : ∀ {e c}, Plain c → G e c)
include hM hG

theorem local_fd {Q : ℤ → ErrorCode → Endpoint ι → Prop} (hi : e.state.sockets i = some n)
    (hQ : Q n ec e) : wp M G (issue (.fd i)) ec e Q := by
  refine wp_issue.mpr ⟨hG trivial, fun r e' hm => ?_⟩
  obtain ⟨d, -, rfl, hr⟩ := hM hm
  rwa [hr n hi]

theorem local_setFd {Q : Unit → ErrorCode → Endpoint ι → Prop} (hQ : Q () ec (e.set i (some n))) :
    wp M G (issue (.setFd i n)) ec e Q := by
  refine wp_issue.mpr ⟨hG trivial, fun r e' hm => ?_⟩
  obtain ⟨d, -, rfl⟩ := hM hm
  exact hQ

theorem local_construct {Q : Unit → ErrorCode → Endpoint ι → Prop}
    (hQ : Q () ec (e.set i (some n))) : wp M G (issue (.construct i n)) ec e Q := by
  refine wp_issue.mpr ⟨hG trivial, fun r e' hm => ?_⟩
  obtain ⟨d, -, rfl⟩ := hM hm
  exact hQ

theorem local_drop {Q : Unit → ErrorCode → Endpoint ι → Prop} (hQ : Q () ec (e.set i none)) :
    wp M G (issue (.drop i)) ec e Q := by
  refine wp_issue.mpr ⟨hG trivial, fun r e' hm => ?_⟩
  obtain ⟨d, -, rfl⟩ := hM hm
  exact hQ

theorem local_valid {Q : Bool → ErrorCode → Endpoint ι → Prop} (hi : e.state.sockets i = some n)
    (hQ : Q (0 ≤ n) ec e) : wp M G (Socket.valid i) ec e Q :=
  wp_bind.mpr (local_fd hM hG hi hQ)

theorem local_close_of_neg {Q : Unit → ErrorCode → Endpoint ι → Prop}
    (hi : e.state.sockets i = some n) (hn : n < 0) (hQ : Q () ec e) :
    wp M G (Socket.close i) ec e Q := by
  refine wp_bind.mpr (local_fd hM hG hi ?_)
  rw [if_neg (not_le.mpr hn)]
  exact hQ

theorem local_close_of_nonneg {Q : Unit → ErrorCode → Endpoint ι → Prop}
    (hi : e.state.sockets i = some n) (hn : 0 ≤ n) (hQ : Q () ec ((e.release n).set i (some (-1)))) :
    wp M G (Socket.close i) ec e Q := by
  refine wp_bind.mpr (local_fd hM hG hi ?_)
  rw [if_pos hn]
  refine wp_bind.mpr (wp_issue.mpr ⟨hG trivial, fun r e' hm => ?_⟩)
  obtain ⟨d, -, rfl⟩ := hM hm
  exact local_setFd hM hG hQ

theorem local_destroy_of_neg {Q : Unit → ErrorCode → Endpoint ι → Prop}
    (hi : e.state.sockets i = some n) (hn : n < 0) (hQ : Q () ec (e.set i none)) :
    wp M G (Socket.destroy i) ec e Q :=
  wp_bind.mpr (local_close_of_neg hM hG hi hn (local_drop hM hG hQ))

theorem local_destroy_of_nonneg {Q : Unit → ErrorCode → Endpoint ι → Prop}
    (hi : e.state.sockets i = some n) (hn : 0 ≤ n)
    (hQ : Q () ec (((e.release n).set i (some (-1))).set i none)) :
    wp M G (Socket.destroy i) ec e Q :=
  wp_bind.mpr (local_close_of_nonneg hM hG hi hn (local_drop hM hG hQ))

theorem local_assign {Q : Unit → ErrorCode → Endpoint ι → Prop} (hij : i ≠ j)
    (hi : e.state.sockets i = some m) (hm : m < 0) (hj : e.state.sockets j = some n)
    (hQ : Q () ec ((e.set i (some n)).set j (some (-1)))) :
    wp M G (Socket.assign i j) ec e Q := by
  unfold Socket.assign
  rw [if_pos hij]
  refine wp_bind.mpr (local_close_of_neg hM hG hi hm (wp_bind.mpr (local_fd hM hG hj ?_)))
  exact wp_bind.mpr (local_setFd hM hG (local_setFd hM hG hQ))

end Local

/-! ## Without an outage -/

theorem calm_issue {c : Call ι} {Q : c.Result → ErrorCode → Endpoint ι → Prop} (hG : G e c)
    (h : ∀ d r e', switchboard net False e c d r e' → d.linked = some .silent → Q r ec e') :
    Calm net G (issue c) ec e Q :=
  wp_issue.mpr ⟨hG, fun r e' ⟨d, hd, hs⟩ => h d r e' hd hs⟩

theorem calm_within : Within net False
    (silently (switchboard net False : Switchboard _ (Endpoint ι) UInt8 ℤ)) :=
  fun ⟨d, hd, _⟩ => ⟨d, hd⟩

section Plain

variable (hG : ∀ {e c}, Plain c → G e c)
include hG

theorem calm_socket {domain type protocol : ℤ} {Q : ℤ → ErrorCode → Endpoint ι → Prop}
    (hr : e.Roomy) (hQ : ∀ fd, e.Fresh fd → Q fd ec (e.acquire fd)) :
    Calm net G (issue (.socket domain type protocol)) ec e Q := by
  refine calm_issue (hG trivial) ?_
  rintro d fd e' ⟨-, ⟨hfd, rfl⟩ | ⟨-, hno, -⟩⟩ -
  · exact hQ fd hfd
  · exact absurd hr.not_full (not_not.mpr (hno.resolve_left id))

theorem calm_bind {port : ℤ} {Q : Bool → ErrorCode → Endpoint ι → Prop}
    (hi : e.state.sockets i = some n) (hn : n < 0) (hr : e.Roomy)
    (hQ : ∀ fd, e.Fresh fd →
      Q true ec { (e.acquire fd).set i (some fd) with bound := some (fd, port % 2 ^ 16) }) :
    Calm net G (Socket.bind i port) ec e Q := by
  refine wp_bind.mpr (local_close_of_neg calm_within hG hi hn (wp_bind.mpr (calm_socket hG hr fun fd hfd => ?_)))
  refine wp_bind.mpr (local_setFd calm_within hG ?_)
  rw [if_neg (not_lt.mpr hfd.1)]
  refine wp_bind.mpr (calm_issue (hG trivial) ?_)
  rintro - - - ⟨-, rfl⟩ -
  refine wp_bind.mpr (calm_issue (hG trivial) ?_)
  rintro - - - ⟨-, rfl⟩ -
  refine wp_bind.mpr (calm_issue (hG trivial) ?_)
  rintro d bound e' hd -
  cases bound with
  | true =>
    obtain ⟨-, rfl⟩ := hd
    exact hQ fd hfd
  | false => exact hd.2.2.elim

end Plain

theorem calm_listen (hG : ∀ {e c}, Plain c → G e c) {backlog x : ℤ}
    {Q : Bool → ErrorCode → Endpoint ι → Prop} (hi : e.state.sockets i = some n) (hn : 0 ≤ n)
    (hb : e.bound = some (n, x)) (hlisten : G e (.listen n backlog))
    (hQ : Q true ec { e with listening := some n }) :
    Calm net G (Socket.listen i backlog) ec e Q := by
  refine wp_bind.mpr (local_valid calm_within hG hi ?_)
  rw [if_pos (by simpa using hn)]
  refine wp_bind.mpr (local_fd calm_within hG hi (wp_bind.mpr (calm_issue hlisten ?_)))
  rintro d listening e' hd -
  cases listening with
  | true =>
    obtain ⟨-, -, -, rfl⟩ := hd
    exact hQ
  | false => exact absurd hb (hd.2.2.resolve_left id x)

theorem calm_accept (hG : ∀ {e c}, Plain c → G e c) {Q : Unit → ErrorCode → Endpoint ι → Prop}
    (hi : e.state.sockets i = some n) (hl : e.listening = some n) (hr : e.Roomy)
    (haccept : G e (.accept n))
    (hQ : ∀ peer, e.Fresh peer →
      Q () ec ({ e.acquire peer with connected := some peer }.set j (some peer))) :
    Calm net G (Socket.accept i j) ec e Q := by
  refine wp_bind.mpr (local_fd calm_within hG hi (wp_bind.mpr (calm_issue haccept ?_)))
  rintro d peer e' (⟨-, -, hpeer, rfl⟩ | ⟨-, -, hno, -⟩) -
  · rw [if_neg (not_lt.mpr hpeer.1)]
    refine calm_issue (hG trivial) ?_
    rintro d r e' ⟨-, rfl⟩ -
    exact hQ peer hpeer
  · exact absurd hno (by simp [hl, hr.not_full])

section Solo

variable {α : Type} {L U : ℤ → Prop} {A : Endpoint ι → Prop}
  {J : ℤ → Program (Call.Result (ι := ι)) (α × ErrorCode) → Endpoint ι → Prop}
  {E : α × ErrorCode → Endpoint ι → Prop}

theorem Calm.solo {x : Member ι α} (h : Calm net (fun _ c => Plain c) x ec e fun a ec e => E (a, ec) e) :
    Solo (switchboard net False) L A U J E (x.run ec) e := by
  refine Solo.of_ensures (G := fun _ c => Plain c) ?_ (Ensures.le h fun hm => unmet_silently hm)
  intro e c d r e' hc hd
  rcases deed_of_plain hc hd with rfl | rfl
  · exact ⟨fun a ha => by cases ha; rfl, nofun, nofun, nofun⟩
  · exact ⟨nofun, nofun, nofun, nofun⟩

/-- An address is tried: it leads to a port of the other host, where somebody listens or not, or
nowhere. -/
theorem solo_connect {fd : ℤ} {addr : Bytes} {k : Bool → Member ι α}
    (htrue : ∀ x, net.leads addr = some x → J x ((k true).run ec) { e with connected := some fd })
    (hfalse : (∀ x, net.leads addr = some x → U x) →
      Solo (switchboard net False) L A U J E ((k false).run ec) e) :
    Solo (switchboard net False) L A U J E ((issue (.connect fd addr) >>= k).run ec) e := by
  intro d r e' hd
  cases r with
  | true =>
    obtain ⟨x, hx, rfl, rfl⟩ := hd
    exact htrue x hx
  | false =>
    obtain ⟨rfl, ⟨rfl, hno⟩ | ⟨x, hx, rfl⟩⟩ := hd
    · exact hfalse fun x hx => by simp [hx] at hno
    · exact fun hU => hfalse fun y hy => by rwa [← Option.some.inj (hx.symm.trans hy)]

end Solo

/-- The socket that is to be connected holds a descriptor, or none. -/
structure Tried (i : ι) (n : ℤ) (e e' : Endpoint ι) : Prop where
  sockets : e'.state.sockets = Function.update e.state.sockets i (some n)
  roomy : e'.Roomy

theorem Tried.self (hi : e.state.sockets i = some n) (hr : e.Roomy) : Tried i n e e :=
  ⟨by rw [← hi, Function.update_eq_self], hr⟩

theorem Tried.trans {e' e'' : Endpoint ι} (h : Tried i m e e') (h' : Tried i n e' e'') :
    Tried i n e e'' :=
  ⟨by rw [h'.sockets, h.sockets, Function.update_idem], h'.roomy⟩

theorem Tried.apply {e' : Endpoint ι} (h : Tried i n e e') : e'.state.sockets i = some n := by
  rw [h.sockets, Function.update_self]

/-- The addresses are tried in turn, until one gets through. -/
theorem solo_tryEach {L U : ℤ → Prop} {A : Endpoint ι → Prop}
    {J : ℤ → Program (Call.Result (ι := ι)) (Unit × ErrorCode) → Endpoint ι → Prop}
    (ps : List AddrInfo) (hi : e.state.sockets i = some m) (hm : m < 0) (hr : e.Roomy)
    (hJ : ∀ {e' fd x}, (∃ p ∈ ps, net.leads p.addr = some x) → 0 ≤ fd → Tried i fd e e' →
      e'.connected = some fd → J x (.ret ((), ec)) e') :
    Solo (switchboard net False) L A U J (fun r e' => r.2 = ec ∧
        (∃ n < 0, Tried i n e e') ∧ ∀ p ∈ ps, ∀ x, net.leads p.addr = some x → U x)
      ((Socket.tryEach i ps).run ec) e := by
  induction ps generalizing e m with
  | nil => exact ⟨rfl, ⟨m, hm, .self hi hr⟩, by simp⟩
  | cons p ps ih =>
    unfold Socket.tryEach
    rw [StateT.run_bind]
    refine Solo.bind (E := fun r e' => r.2 = ec ∧ e.Fresh r.1 ∧ e' = e.acquire r.1)
      (Calm.solo (calm_socket id hr fun fd hfd => ⟨rfl, hfd, rfl⟩)) ?_
    rintro ⟨fd, ec⟩ _ ⟨rfl, hfd, rfl⟩
    simp only at hfd ⊢
    rw [StateT.run_bind]
    refine Solo.bind (E := fun r e' => r.2 = ec ∧ e' = (e.acquire fd).set i (some fd))
      (Calm.solo (local_setFd calm_within id ⟨rfl, rfl⟩)) ?_
    rintro ⟨_, ec⟩ _ ⟨rfl, rfl⟩
    simp only
    rw [if_neg (not_lt.mpr hfd.1)]
    have ht : Tried i fd e ((e.acquire fd).set i (some fd)) := ⟨rfl, hr.acquire fd⟩
    refine solo_connect (fun x hx => ?_) fun hU => ?_
    · exact hJ ⟨p, List.mem_cons_self, hx⟩ hfd.1 ⟨ht.sockets, ht.roomy⟩ rfl
    · simp only [Bool.false_eq_true, if_false]
      rw [StateT.run_bind]
      refine Solo.bind (E := fun r e' => r.2 = ec ∧ Tried i (-1) e e')
        (Calm.solo (local_close_of_nonneg calm_within id ht.apply hfd.1 ⟨rfl, ?_⟩)) ?_
      · exact ht.trans ⟨rfl, ht.roomy.release fd⟩
      · rintro ⟨_, ec⟩ e' ⟨rfl, ht'⟩
        refine Solo.mono (ih ht'.apply (by decide) ht'.roomy fun hx hfd h hc => ?_) id ?_
        · obtain ⟨p', hp', hx⟩ := hx
          exact hJ ⟨p', List.mem_cons_of_mem _ hp', hx⟩ hfd (ht'.trans h) hc
        · rintro r e'' ⟨hec, ⟨n, hn, ht''⟩, hps⟩
          exact ⟨hec, ⟨n, hn, ht'.trans ht''⟩, List.forall_mem_cons.mpr ⟨hU, hps⟩⟩

/-- `Connect` gets through to the port, or is refused wherever an address leads to. -/
theorem solo_socketConnect {L U : ℤ → Prop} {A : Endpoint ι → Prop} {host : Bytes} {port : ℤ}
    (hi : e.state.sockets i = some m) (hm : m < 0) (hr : e.Roomy) :
    Solo (switchboard net False) L A U
      (fun x p e' => x = port ∧ ∃ fd, 0 ≤ fd ∧ Tried i fd e e' ∧ e'.connected = some fd ∧
        Ensures (silently (switchboard net False)) (fun _ _ => True) p e' fun r e'' =>
          r = (true, ec) ∧ e'' = e')
      (fun r e' => r.1 = false ∧ (∃ n < 0, Tried i n e e') ∧
        ∀ info, net.getaddrinfo host port = .ok info → ∀ p ∈ info,
          net.leads p.addr = some port → U port)
      ((Socket.connect i host port).run ec) e := by
  unfold Socket.connect
  rw [StateT.run_bind]
  refine Solo.bind (E := fun r e' => r.2 = ec ∧ e' = e)
    (Calm.solo (local_close_of_neg calm_within id hi hm ⟨rfl, rfl⟩)) ?_
  rintro ⟨_, ec⟩ e ⟨rfl, rfl⟩
  rw [StateT.run_bind]
  refine Solo.bind (E := fun r e' => r.1 = net.getaddrinfo host port ∧ r.2 = ec ∧ e' = e)
    (Calm.solo (calm_issue trivial ?_)) ?_
  · rintro d r e' ⟨-, rfl, rfl⟩ -
    exact ⟨rfl, rfl, rfl⟩
  rintro ⟨info, ec⟩ e ⟨hinfo, rfl, rfl⟩
  simp only at hinfo ⊢
  have hself : ∃ n < 0, Tried i n e e := ⟨m, hm, .self hi hr⟩
  rcases info with rc | _ | ⟨p, ps⟩
  · exact ⟨rfl, hself, fun info he => by cases hinfo.trans he⟩
  · refine ⟨rfl, hself, fun info he => ?_⟩
    cases hinfo.trans he
    simp
  · have hport : ∀ {x}, (∃ p' ∈ p :: ps, net.leads p'.addr = some x) → x = port := by
      rintro x ⟨p', hp', hx⟩
      exact net.leads_eq hinfo.symm hp' hx
    rw [StateT.run_bind]
    refine Solo.bind (solo_tryEach (p :: ps) hi hm hr fun {e' fd x} hx hfd ht hc => ?_) ?_
    · refine ⟨hport hx, fd, hfd, ht, hc, ?_⟩
      change Calm net (fun _ _ => True) (Socket.valid i >>= fun ok =>
        if ok then pure true else lastError >>= fun _ => pure false) ec e' fun a ec' e'' =>
          (a, ec') = (true, ec) ∧ e'' = e'
      refine wp_bind.mpr (local_valid calm_within (fun _ => trivial) ht.apply ?_)
      rw [if_pos (by simpa using hfd)]
      exact ⟨rfl, rfl⟩
    · rintro ⟨_, ec⟩ e' ⟨rfl, ⟨n, hn, ht⟩, hU⟩
      rw [StateT.run_bind]
      refine Solo.bind (E := fun r e'' => r.1 = false ∧ e'' = e')
        (Calm.solo (local_valid calm_within id ht.apply ⟨by simpa using hn, rfl⟩)) ?_
      rintro ⟨ok, ec⟩ e' ⟨rfl, rfl⟩
      simp only [Bool.false_eq_true, if_false]
      refine Calm.solo (wp_bind.mpr (wp_bind.mpr (calm_issue trivial ?_)))
      rintro d r e' ⟨-, rfl⟩ -
      refine ⟨rfl, ⟨n, hn, ht⟩, fun info he p' hp' hx => ?_⟩
      cases hinfo.trans he
      exact hU p' hp' _ hx

end Xfer.Net.Lifetime
