import Xfer.Cli.Command
import Xfer.Net.Anyhow
import Xfer.Process.Fate

/-! # How a command ends

Whatever its calls come back with and whoever it meets, a command ends with one
of three codes, unless it is killed in its session: the signal for a peer that
is gone is not ignored, and some functions of the file system throw. Its session
runs on the one descriptor that is open, the one that is connected, with an
error code that is clear, and where the command returns no descriptor is left
open and none has been closed twice.
-/

namespace Xfer.Cli

open Net Transfer Process Code Program Lifetime

variable {net : Resolver} {f : Faults} {e e' : Endpoint Object} {ec : ErrorCode} {m n port : ℤ}
  {host : Bytes} {h : Host} {opts : Options} {std : StdSort} {signals : ℕ}

/-- Only `sock` lives, and if the helper succeeds it holds the descriptor that is connected. -/
def Gets (ec : ErrorCode) (ok : Bool) (ec' : ErrorCode) (e : Endpoint Object) : Prop :=
  (∀ i, i ≠ .sock → e.state.sockets i = none) ∧ ∃ n, e.state.sockets .sock = some n ∧
    (ok = true → 0 ≤ n ∧ e.connected = some n ∧ ec' = ec)

section Steps

variable {i j : Object}

theorem anyhow_default (hs : e.state.Sound) (hi : e.state.sockets i = none) :
    Anyhow net (Lifetime.Socket.default i) ec e fun _ ec' e' => ec' = ec ∧ e' = e.set i (some (-1)) :=
  anyhow_of hs (sound_op (.default i) hs hi)
    (local_construct anyway_within (fun _ => trivial) ⟨rfl, rfl⟩)

theorem anyhow_valid (hs : e.state.Sound) (hi : e.state.sockets i = some n) :
    Anyhow net (Lifetime.Socket.valid i) ec e fun ok ec' e' =>
      ok = decide (0 ≤ n) ∧ ec' = ec ∧ e' = e :=
  anyhow_of hs (wp_valid hi hs) (local_valid anyway_within (fun _ => trivial) hi ⟨rfl, rfl, rfl⟩)

theorem anyhow_destroy_of_neg (hs : e.state.Sound) (hi : e.state.sockets i = some n) (hn : n < 0) :
    Anyhow net (Lifetime.Socket.destroy i) ec e fun _ ec' e' => ec' = ec ∧ e' = e.set i none :=
  anyhow_of hs (sound_destroy hs (by simp [hi]))
    (local_destroy_of_neg anyway_within (fun _ => trivial) hi hn ⟨rfl, rfl⟩)

theorem anyhow_destroy (hs : e.state.Sound) (hi : e.state.sockets i = some n) :
    Anyhow net (Lifetime.Socket.destroy i) ec e fun _ ec' e' => ec' = ec ∧
      e'.state.sockets = Function.update e.state.sockets i none ∧
      ∀ j m, j ≠ i → e.state.sockets j = some m → 0 ≤ m → e.connected = some m →
        e'.connected = some m := by
  refine anyhow_of hs (sound_destroy hs (by simp [hi])) ?_
  by_cases hn : 0 ≤ n
  · refine local_destroy_of_nonneg anyway_within (fun _ => trivial) hi hn ⟨rfl, ?_, ?_⟩
    · simp [Function.update_idem]
    · intro j m hji hj hm hc
      have hne : m ≠ n := by
        rintro rfl
        exact hji (hs.exclusive.unique (State.owned_of_nonneg hj hm) (State.owned_of_nonneg hi hn))
      simp [Endpoint.release, hc, hne]
  · refine local_destroy_of_neg anyway_within (fun _ => trivial) hi (not_le.mp hn) ⟨rfl, rfl, ?_⟩
    exact fun _ _ _ _ _ hc => hc

theorem anyhow_assign (hs : e.state.Sound) (hij : i ≠ j) (hi : e.state.sockets i = some m)
    (hm : m < 0) (hj : e.state.sockets j = some n) :
    Anyhow net (Lifetime.Socket.assign i j) ec e fun _ ec' e' =>
      ec' = ec ∧ e' = (e.set i (some n)).set j (some (-1)) :=
  anyhow_of hs (sound_assign hs (by simp [hi]) (by simp [hj]))
    (local_assign anyway_within (fun _ => trivial) hij hi hm hj ⟨rfl, rfl⟩)

end Steps

/-- The state in which the helpers are called. -/
structure Fresh (e : Endpoint Object) : Prop where
  sound : e.state.Sound
  sock : e.state.sockets .sock = some (-1)
  others : ∀ i, i ≠ .sock → e.state.sockets i = none

theorem Fresh.put (he : Fresh e) {i : Object} (hi : i ≠ .sock) {e' : Endpoint Object}
    (hput : Put i n e e') : e'.state.sockets .sock = some (-1) := by
  rw [hput.apply_ne hi.symm, he.sock]

theorem gets_of_sockets {ok : Bool} {ec' : ErrorCode} (hsock : e.state.sockets .sock = some n)
    (hothers : ∀ i, i ≠ .sock → e.state.sockets i = none)
    (hok : ok = true → 0 ≤ n ∧ e.connected = some n ∧ ec' = ec) : Gets ec ok ec' e :=
  ⟨hothers, n, hsock, hok⟩

theorem anyhow_dialOut (he : Fresh e) :
    Anyhow net (dialOut host port .sock) ec e (Gets ec) := by
  unfold dialOut
  simp only [bind_assoc]
  refine (anyhow_default he.sound (he.others .s (by decide))).bind ?_
  rintro _ ec _ hs₁ ⟨rfl, rfl⟩
  have hput₁ : Put .s (-1) e (e.set .s (some (-1))) := rfl
  refine (anyhow_of hs₁ (sound_connect hs₁ (by simp [hput₁.apply]))
    (any_connect trivial hput₁.apply (by decide))).bind ?_
  rintro ok ec₂ e₂ hs₂ ⟨n, hput₂, hok⟩
  have hput₂ := hput₁.trans hput₂
  cases ok with
  | false =>
    simp only [Bool.not_false, if_true, pure_bind]
    refine (anyhow_destroy hs₂ hput₂.apply).bind ?_
    rintro _ ec₃ e₃ hs₃ ⟨rfl, hsockets, -⟩
    refine anyhow_pure hs₃ (gets_of_sockets (n := -1) ?_ (fun i hi => ?_)
      fun hok => absurd hok Bool.false_ne_true)
    · rw [hsockets, Function.update_of_ne (by decide), he.put (by decide) hput₂]
    · rw [hsockets]
      by_cases his : i = .s
      · rw [his, Function.update_self]
      · rw [Function.update_of_ne his, hput₂.apply_ne his, he.others i hi]
  | true =>
    obtain ⟨hn, hcon, rfl⟩ := hok rfl
    simp only [Bool.not_true, Bool.false_eq_true, if_false, bind_assoc, pure_bind]
    refine (anyhow_assign hs₂ (by decide) (he.put (by decide) hput₂) (by decide) hput₂.apply).bind ?_
    rintro _ ec₃ _ hs₃ ⟨rfl, rfl⟩
    refine (anyhow_destroy_of_neg hs₃ (n := -1) (by simp) (by decide)).bind ?_
    rintro _ ec₄ _ hs₄ ⟨rfl, rfl⟩
    refine anyhow_pure hs₄ (gets_of_sockets (n := n) (by simp) (fun i hi => ?_) fun _ => ⟨hn, hcon, rfl⟩)
    by_cases his : i = .s
    · simp [his]
    · simp [his, hi, hput₂.apply_ne his, he.others i hi]

theorem anyhow_bindAndAccept (he : Fresh e) :
    Anyhow net (bindAndAccept port .sock) ec e (Gets ec) := by
  unfold bindAndAccept
  simp only [bind_assoc]
  refine (anyhow_default he.sound (he.others .listener (by decide))).bind ?_
  rintro _ ec _ hs₁ ⟨rfl, rfl⟩
  have hput₁ : Put .listener (-1) e (e.set .listener (some (-1))) := rfl
  -- where there is no connection, the listening socket is all that is left to go
  have hfail : ∀ {ec' e' k}, e'.state.Sound → Put .listener k e e' →
      Anyhow net (Lifetime.Socket.destroy .listener >>= fun _ => pure false) ec' e' (Gets ec) := by
    intro ec' e' k hs' hput
    refine (anyhow_destroy hs' hput.apply).bind ?_
    rintro _ ec₃ e₃ hs₃ ⟨rfl, hsockets, -⟩
    refine anyhow_pure hs₃ (gets_of_sockets (n := -1) ?_ (fun i hi => ?_)
      fun hok => absurd hok Bool.false_ne_true)
    · rw [hsockets, Function.update_of_ne (by decide), he.put (by decide) hput]
    · rw [hsockets]
      by_cases hil : i = .listener
      · rw [hil, Function.update_self]
      · rw [Function.update_of_ne hil, hput.apply_ne hil, he.others i hi]
  refine (anyhow_of hs₁ (sound_bind hs₁ (by simp [hput₁.apply]))
    (any_bind trivial hput₁.apply (by decide))).bind ?_
  rintro ok ec₂ e₂ hs₂ ⟨⟨k, hput₂⟩, hok⟩
  have hput₂ := hput₁.trans hput₂
  cases ok with
  | false =>
    simp only [Bool.not_false, if_true, pure_bind]
    exact hfail hs₂ hput₂
  | true =>
    obtain rfl := hok rfl
    simp only [Bool.not_true, Bool.false_eq_true, if_false, bind_assoc]
    refine (anyhow_of hs₂ (sound_listen hs₂ (by simp [hput₂.apply]))
      (any_listen trivial hput₂.apply)).bind ?_
    rintro ok ec₃ e₃ hs₃ ⟨hsockets, hok⟩
    have hput₃ := hput₂.steady hsockets
    cases ok with
    | false =>
      simp only [Bool.not_false, if_true, pure_bind]
      exact hfail hs₃ hput₃
    | true =>
      obtain rfl := hok rfl
      simp only [Bool.not_true, Bool.false_eq_true, if_false, bind_assoc]
      have hnone : e₃.state.sockets .accepted = none := by
        rw [hput₃.apply_ne (by decide), he.others .accepted (by decide)]
      refine (anyhow_of hs₃ (sound_accept hs₃ (by simp [hput₃.apply]) hnone)
        (any_accept trivial hput₃.apply)).bind ?_
      rintro _ ec₄ e₄ hs₄ ⟨n, hput₄, hacc⟩
      have hsock₄ : e₄.state.sockets .sock = some (-1) := by
        rw [hput₄.apply_ne (by decide), he.put (by decide) hput₃]
      have hlistener₄ : e₄.state.sockets .listener = some k := by
        rw [hput₄.apply_ne (by decide), hput₃.apply]
      refine (anyhow_assign hs₄ (by decide) hsock₄ (by decide) hput₄.apply).bind ?_
      rintro _ ec₅ _ hs₅ ⟨rfl, rfl⟩
      refine (anyhow_destroy_of_neg hs₅ (n := -1) (by simp) (by decide)).bind ?_
      rintro _ ec₆ _ hs₆ ⟨rfl, rfl⟩
      refine (anyhow_valid hs₆ (n := n) (by simp)).bind ?_
      rintro ok _ _ hs₆ ⟨rfl, rfl, rfl⟩
      refine (anyhow_destroy hs₆ (n := k) (by simp [hlistener₄])).bind ?_
      rintro _ ec₇ e₇ hs₇ ⟨rfl, hsockets₇, hkept⟩
      refine anyhow_pure hs₇ (gets_of_sockets (n := n) ?_ (fun i hi => ?_) fun hn => ?_)
      · simp [hsockets₇]
      · by_cases hil : i = .listener
        · simp [hsockets₇, hil]
        · by_cases hia : i = .accepted
          · simp [hsockets₇, hia]
          · simp [hsockets₇, hil, hia, hi, hput₄.apply_ne hia, hput₃.apply_ne hil, he.others i hi]
      · have hn : 0 ≤ n := by simpa using hn
        obtain ⟨hcon, rfl⟩ := hacc hn
        exact ⟨hn, hkept .sock n (by decide) (by simp) hn hcon, rfl⟩

/-! ## A whole command -/

/-- What the calls of a process may come back with at all. -/
abbrev facing (net : Resolver) (f : Faults) : Machine Sys.Result Proc := fun p c r p' =>
  ∃ d, process net True f p c d r p'

/-- What the calls of a session may come back with next to any peer. -/
abbrev meets (f : Faults) : Machine Xfer.Call.Result Host := fun h c r h' =>
  ∃ a, a ≠ .hangup ∧ Xfer.kernel f h c a r h'

/-- One descriptor is open: `sock` holds it, and it is connected. -/
def Sole (e : Endpoint Object) : Prop :=
  ∃ fd, 0 ≤ fd ∧ e.state.sockets .sock = some fd ∧ e.connected = some fd ∧ e.state.held = {fd}

/-- Calls on sockets keep to the owners, and those of a session find the one descriptor open. -/
def Kept (p : Proc) : Sys → Prop
  | .socket c => Orderly p.endpoint.state c
  | .session _ => Sole p.endpoint

/-- The calls are kept in order, and those that kill the process leave what `D` says. -/
def Guarded (f : Faults) (D : Death → Proc → Prop) (p : Proc) (c : Sys) : Prop :=
  Kept p c ∧ ∀ d, kills f p c d → D d p

/-- No object lives, no descriptor is open, and each has been closed as often as opened. -/
structure Clean (e : Endpoint Object) : Prop where
  gone : ∀ i, e.state.sockets i = none
  closed : e.state.held = ∅
  turn : ∀ n, ∃ k, eventsOf n e.state.log = rounds n k

theorem clean_of_gone (hs : e.state.Sound) (hgone : ∀ i, e.state.sockets i = none) : Clean e := by
  have hheld := hs.exclusive.held_eq_empty fun i => State.owned_of_none (hgone i)
  exact ⟨hgone, hheld, (hheld ▸ hs.turn).of_empty⟩

theorem clean_start (foreign : Set ℤ) : Clean { state := State.start foreign } :=
  clean_of_gone (sound_start foreign) fun _ => rfl

theorem Gets.sole {ec' : ErrorCode} (hg : Gets ec true ec' e) (hs : e.state.Sound) :
    Sole e ∧ ec' = ec := by
  obtain ⟨hothers, fd, hsock, hok⟩ := hg
  obtain ⟨hfd, hcon, rfl⟩ := hok rfl
  refine ⟨⟨fd, hfd, hsock, hcon, ?_⟩, rfl⟩
  ext n
  rw [hs.exclusive.held_iff, Set.mem_singleton_iff]
  constructor
  · rintro ⟨i, hi⟩
    obtain ⟨hi, -⟩ := State.owned_eq_some_iff.mp hi
    by_cases his : i = .sock
    · rw [his, hsock] at hi
      exact (Option.some.inj hi).symm
    · rw [hothers i his] at hi
      cases hi
  · rintro rfl
    exact ⟨.sock, State.owned_of_nonneg hsock hfd⟩

section Command

variable {α : Type} {s : Refs} {D : Death → Proc → Prop}

theorem facing_member {x : Member Object α} {Q : α → ErrorCode → Endpoint Object → Prop}
    (hx : Anyhow net x s.ec e Q) :
    wp (facing net f) (Guarded f D) (member x) s ⟨e, h⟩ fun a s' p => ∃ ec' e',
      s' = { s with ec := ec' } ∧ p = ⟨e', h⟩ ∧ e'.state.Sound ∧ Q a ec' e' := by
  have hS : Corresponds Sys.socket (fun _ r => r) (anyway net) (fun e c => Orderly e.state c)
      (facing net f) (Guarded f D) fun p e => p = ⟨e, h⟩ := by
    constructor
    · rintro _ e c rfl hc
      exact ⟨hc, fun _ hk => hk.elim⟩
    · rintro _ e c r ⟨e', h'⟩ rfl - ⟨d, rfl, hd⟩
      exact ⟨e', ⟨d, hd⟩, rfl⟩
  refine wp_mono (wp_embed hS hx rfl) ?_
  rintro a s' p ⟨ec', e', rfl, rfl, hs, hq⟩
  exact ⟨ec', e', rfl, rfl, hs, hq⟩

theorem facing_session {x : Session α} (he : Sole e)
    (hD : ∀ {d h'}, Fate (meets f) (fatal f) (x.run s) h (.inr d) h' → D d ⟨e, h'⟩) :
    wp (facing net f) (Guarded f D) (session x) s ⟨e, h⟩ fun a s' p => ∃ h', p = ⟨e, h'⟩ ∧
      Fate (meets f) (fatal f) (x.run s) h (.inl (a, s')) h' := by
  have hS : Corresponds Sys.session (fun _ r => r) (meets f)
      (fun h' c => ∀ d, fatal f h' c d → Fate (meets f) (fatal f) (x.run s) h (.inr d) h')
      (facing net f) (Guarded f D) fun p h => p = ⟨e, h⟩ := by
    constructor
    · rintro _ h' c rfl hg
      exact ⟨he, fun d hk => hD (hg d hk.2)⟩
    · rintro _ h c r ⟨e', h'⟩ rfl - ⟨d, rfl, ⟨-, a, rfl, hk⟩ | ⟨hno, -⟩⟩
      · exact ⟨h', ⟨a, hk⟩, rfl⟩
      · obtain ⟨fd, -, hsock, hcon, -⟩ := he
        exact absurd (fun _ => ⟨fd, hsock, hcon⟩) hno
  have hx : wp (meets f)
      (fun h' c => ∀ d, fatal f h' c d → Fate (meets f) (fatal f) (x.run s) h (.inr d) h') x s h
      fun a s' h' => Fate (meets f) (fatal f) (x.run s) h (.inl (a, s')) h' := ensures_fate
  refine wp_mono (wp_embed hS hx rfl) ?_
  rintro a _ p ⟨s', h', rfl, rfl, hfate⟩
  exact ⟨h', rfl, hfate⟩

theorem facing_finish {code : ℕ} (hs : e.state.Sound) (hsock : e.state.sockets .sock = some n)
    (hothers : ∀ i, i ≠ .sock → e.state.sockets i = none) :
    wp (facing net f) (Guarded f D) (finish code) s ⟨e, h⟩ fun a _ p => a = code ∧ p.host = h ∧
      Clean p.endpoint := by
  refine wp_bind.mpr (wp_mono (facing_member (anyhow_destroy hs hsock)) ?_)
  rintro _ _ _ ⟨ec, e', rfl, rfl, hs', -, hsockets, -⟩
  refine ⟨rfl, rfl, clean_of_gone hs' fun i => ?_⟩
  rw [hsockets]
  by_cases hi : i = .sock
  · rw [hi, Function.update_self]
  · rw [Function.update_of_ne hi, hothers i hi]

/-- A runner ends with code 2 if it gets no connection, and otherwise as its session tells. -/
theorem facing_command {connect : Member Object Bool} {work : Main Bool} {foreign : Set ℤ}
    {W : Bool → Host → Prop} (hconnect : ∀ {e ec}, Fresh e → Anyhow net connect ec e (Gets ec))
    (hwork : ∀ {e}, e.state.Sound → Sole e → wp (facing net f) (Guarded f D) work s ⟨e, h⟩
      fun ok _ p => ∃ h', p = ⟨e, h'⟩ ∧ W ok h') :
    wp (facing net f) (Guarded f D) (command connect work) s ⟨{ state := State.start foreign }, h⟩
      fun code _ p => Clean p.endpoint ∧ (code = 2 ∧ p.host = h ∨
        ∃ ok, code = (if ok then 0 else 3) ∧ W ok p.host) := by
  unfold command
  refine wp_bind.mpr (wp_mono (facing_member (anyhow_default (sound_start foreign) rfl)) ?_)
  rintro _ _ _ ⟨ec, _, rfl, rfl, hs₁, hec, rfl⟩
  obtain rfl : ec = s.ec := hec
  have hfresh : Fresh (Endpoint.set ({ state := State.start foreign } : Endpoint Object) .sock
      (some (-1))) :=
    ⟨hs₁, by simp, fun i hi => by simp [hi, State.start]⟩
  refine wp_bind.mpr (wp_mono (facing_member (hconnect hfresh)) ?_)
  rintro ok _ _ ⟨ec, e₂, rfl, rfl, hs₂, hgets⟩
  cases ok with
  | false =>
    obtain ⟨hothers, n, hsock, -⟩ := hgets
    refine wp_mono (facing_finish hs₂ hsock hothers) ?_
    rintro code _ p ⟨rfl, hhost, hclean⟩
    exact ⟨hclean, Or.inl ⟨rfl, hhost⟩⟩
  | true =>
    obtain ⟨hsole, hec⟩ := hgets.sole hs₂
    obtain rfl : ec = s.ec := hec
    obtain ⟨hothers, n, hsock, -⟩ := hgets
    refine wp_bind.mpr (wp_mono (hwork hs₂ hsole) ?_)
    rintro ok _ _ ⟨h', rfl, hw⟩
    refine wp_mono (facing_finish hs₂ hsock hothers) ?_
    rintro code _ p ⟨rfl, rfl, hclean⟩
    exact ⟨hclean, Or.inr ⟨ok, rfl, hw⟩⟩

end Command

/-- The session of a command, on the descriptor that is connected. -/
def transfer (std : StdSort) (signals : ℕ) (opts : Options) (fd : ℤ) : Session Bool :=
  match opts.mode with
  | .send => sendPaths std ⟨fd⟩ signals opts.paths (senderOptions opts)
  | _ => receiveStream (receiverOptions opts)

/-- How a command ends: with a code or killed, and what it has made of its host. -/
inductive Exits (f : Faults) (std : StdSort) (signals : ℕ) (argv : List Bytes) (h : Host) :
    ℕ ⊕ Death → Host → Prop
  | printed {opts : Options} : parse argv {} = .ok opts → opts.mode = .help ∨ opts.mode = .version →
      Exits f std signals argv h (.inl 0) h
  | failed : Exits f std signals argv h (.inl 2) h
  | transferred {opts : Options} {fd : ℤ} {x : Bool × Refs ⊕ Death} {h' : Host} :
      parse argv {} = .ok opts → opts.mode = .send ∨ opts.mode = .receive → 0 ≤ fd →
      Fate (meets f) (fatal f) ((transfer std signals opts fd).run {}) h x h' →
      Exits f std signals argv h (x.map (fun r => if r.1 then 0 else 3) id) h'

/-- Where a command returns nothing is left open, and where it is killed, only the connection. -/
def Ends (f : Faults) (std : StdSort) (signals : ℕ) (argv : List Bytes) (h : Host)
    (x : ℕ ⊕ Death) (p : Proc) : Prop :=
  Exits f std signals argv h x p.host ∧ match x with
    | .inl _ => Clean p.endpoint
    | .inr _ => Sole p.endpoint

theorem anyhow_getConnected {awaits : Bool} (he : Fresh e) :
    Anyhow net (getConnected opts awaits) ec e (Gets ec) := by
  cases awaits with
  | true => exact anyhow_bindAndAccept he
  | false => exact anyhow_dialOut he

theorem facing_main (net : Resolver) (f : Faults) (std : StdSort) (signals : ℕ) (argv : List Bytes)
    (foreign : Set ℤ) (h : Host) :
    wp (facing net f) (Guarded f fun d => Ends f std signals argv h (.inr d))
      (main std signals argv) {} ⟨{ state := State.start foreign }, h⟩
      fun code _ => Ends f std signals argv h (.inl code) := by
  unfold main
  cases hparse : parse argv {} with
  | error d => exact ⟨.failed, clean_start foreign⟩
  | ok opts =>
    simp only
    -- what the session comes to, the command comes to
    have hends : ∀ {code : ℕ} {p : Proc}, opts.mode = .send ∨ opts.mode = .receive →
        (Clean p.endpoint ∧ (code = 2 ∧ p.host = h ∨ ∃ ok, code = (if ok then 0 else 3) ∧
          ∃ fd s, 0 ≤ fd ∧ Fate (meets f) (fatal f) ((transfer std signals opts fd).run {}) h
            (.inl (ok, s)) p.host)) → Ends f std signals argv h (.inl code) p := by
      rintro code p hm ⟨hclean, ⟨rfl, hhost⟩ | ⟨ok, rfl, fd, s, hfd, hfate⟩⟩
      · exact ⟨hhost ▸ .failed, hclean⟩
      · exact ⟨.transferred hparse hm hfd hfate, hclean⟩
    cases hm : opts.mode with
    | help => exact ⟨.printed hparse (Or.inl hm), clean_start foreign⟩
    | version => exact ⟨.printed hparse (Or.inr hm), clean_start foreign⟩
    | unset => exact ⟨.failed, clean_start foreign⟩
    | send =>
      simp only
      rw [runSend_eq hm]
      refine wp_mono (facing_command (W := fun ok h' => ∃ fd s, 0 ≤ fd ∧ Fate (meets f) (fatal f)
          ((transfer std signals opts fd).run {}) h (.inl (ok, s)) h')
        anyhow_getConnected fun {e} hs he => ?_) fun code _ p => hends (Or.inl hm)
      obtain ⟨fd, hfd, hsock, -⟩ := id he
      have hread : Anyhow net (Lifetime.issue (.fd .sock)) none e
          fun n ec' e' => n = fd ∧ ec' = none ∧ e' = e :=
        anyhow_of hs (wp_fd hsock hs)
          (local_fd anyway_within (fun _ => trivial) hsock ⟨rfl, rfl, rfl⟩)
      have htransfer : transfer std signals opts fd =
          sendPaths std ⟨fd⟩ signals opts.paths (senderOptions opts) := by rw [transfer, hm]
      refine wp_bind.mpr (wp_mono (facing_member hread) ?_)
      rintro n _ _ ⟨ec, e', rfl, rfl, -, rfl, rfl, rfl⟩
      refine wp_mono (facing_session he fun hfate => ⟨?_, he⟩) ?_
      · exact .transferred (x := .inr _) hparse (Or.inl hm) hfd (htransfer ▸ hfate)
      · rintro ok s' _ ⟨h', rfl, hfate⟩
        exact ⟨h', rfl, n, s', hfd, htransfer ▸ hfate⟩
    | receive =>
      simp only
      rw [runReceive_eq hm]
      have htransfer : transfer std signals opts 0 = receiveStream (receiverOptions opts) := by
        rw [transfer, hm]
      refine wp_mono (facing_command (W := fun ok h' => ∃ fd s, 0 ≤ fd ∧ Fate (meets f) (fatal f)
          ((transfer std signals opts fd).run {}) h (.inl (ok, s)) h')
        anyhow_getConnected fun {e} hs he => ?_) fun code _ p => hends (Or.inr hm)
      refine wp_mono (facing_session he fun hfate => ⟨?_, he⟩) ?_
      · exact .transferred (x := .inr _) hparse (Or.inr hm) le_rfl (htransfer ▸ hfate)
      · rintro ok s' _ ⟨h', rfl, hfate⟩
        exact ⟨h', rfl, 0, s', le_rfl, htransfer ▸ hfate⟩

end Xfer.Cli
