import Xfer.Net.Dialing

/-! # Sockets whatever happens

Calls may fail at any time, and there may be any peer or none. The open
descriptors keep one owner each, and a socket that is said to be connected
holds the descriptor that is.
-/

namespace Xfer.Net.Lifetime

open Process Code Program

variable {ι α : Type} [DecidableEq ι] {net : Resolver} {e e' : Endpoint ι} {i j : ι} {m n : ℤ}
  {ec : ErrorCode}

/-- What calls may come back with at all. -/
abbrev anyway (net : Resolver) : Machine (Call.Result (ι := ι)) (Endpoint ι) := fun e c r e' =>
  ∃ d, switchboard net True e c d r e'

theorem anyway_within : Within net True (anyway net : Machine _ (Endpoint ι)) := id

theorem kernel_of_switchboard {outage : Prop} {c : Call ι} {d : Deed UInt8 ℤ} {r : c.Result}
    (ha : e.state.Apart) (hc : Orderly e.state c) (hd : switchboard net outage e c d r e') :
    kernel e.state c r e'.state ∧ e'.state.Apart := by
  have hsame : e' = e → e.state.Same e'.state ∧ e'.state.Apart := by
    rintro rfl
    exact ⟨⟨rfl, rfl, rfl, ha⟩, ha⟩
  have hobtains : ∀ {fd}, e.Fresh fd → (e.acquire fd).state.Apart ∧
      e.state.Obtains (e.acquire fd).state fd := by
    rintro fd ⟨hfd, hheld, hforeign⟩
    have hapart : (e.acquire fd).state.Apart := by
      rintro k hk (rfl | hm)
      · exact hforeign hk
      · exact ha k hk hm
    exact ⟨hapart, Or.inr ⟨hfd, hheld, hforeign, rfl, rfl, rfl, hapart⟩⟩
  cases c with
  | construct i fd | setFd i fd | drop i =>
    obtain ⟨-, rfl⟩ := hd
    exact ⟨rfl, ha⟩
  | fd i =>
    obtain ⟨n, hi⟩ := Option.ne_none_iff_exists'.mp hc
    obtain ⟨-, rfl, hr⟩ := hd
    exact ⟨⟨hr n hi ▸ hi, rfl⟩, ha⟩
  | adopt fd =>
    obtain ⟨-, rfl⟩ := hd
    refine ⟨rfl, ?_⟩
    by_cases hfd : 0 ≤ fd
    · rw [if_pos hfd]
      rintro k ⟨hk, hne⟩ (rfl | hm)
      · exact hne rfl
      · exact ha k hk hm
    · rwa [if_neg hfd]
  | socket domain type protocol =>
    obtain ⟨-, ⟨hfd, rfl⟩ | ⟨hneg, -, rfl⟩⟩ := hd
    · exact ⟨(hobtains hfd).2, (hobtains hfd).1⟩
    · exact ⟨Or.inl ⟨hneg, (hsame rfl).1⟩, ha⟩
  | accept fd =>
    obtain ⟨-, -, hfd, rfl⟩ | ⟨-, hneg, -, rfl⟩ := hd
    · exact ⟨(hobtains hfd).2, (hobtains hfd).1⟩
    · exact ⟨Or.inl ⟨hneg, (hsame rfl).1⟩, ha⟩
  | close self fd =>
    obtain ⟨-, rfl⟩ := hd
    have hapart : (e.release fd).state.Apart := fun k hk hm => ha k hk hm.1
    exact ⟨⟨rfl, rfl, rfl, hapart⟩, hapart⟩
  | getaddrinfo host port =>
    obtain ⟨-, rfl, -⟩ := hd
    exact hsame rfl
  | connect fd addr =>
    cases r with
    | true =>
      obtain ⟨x, -, -, rfl⟩ := hd
      exact ⟨⟨rfl, rfl, rfl, ha⟩, ha⟩
    | false =>
      obtain ⟨rfl, -⟩ := hd
      exact hsame rfl
  | setsockopt fd =>
    obtain ⟨-, rfl⟩ := hd
    exact hsame rfl
  | bind fd port =>
    cases r with
    | true =>
      obtain ⟨-, rfl⟩ := hd
      exact ⟨⟨rfl, rfl, rfl, ha⟩, ha⟩
    | false =>
      obtain ⟨-, rfl, -⟩ := hd
      exact hsame rfl
  | listen fd backlog =>
    cases r with
    | true =>
      obtain ⟨x, -, -, rfl⟩ := hd
      exact ⟨⟨rfl, rfl, rfl, ha⟩, ha⟩
    | false =>
      obtain ⟨-, rfl, -⟩ := hd
      exact hsame rfl
  | errno =>
    obtain ⟨-, rfl⟩ := hd
    exact hsame rfl

/-- What sockets ensure on their own kernel, they ensure on a network. -/
theorem orderly_anyway {x : Member ι α} (ha : e.state.Apart)
    (h : wp kernel Orderly x ec e.state fun _ _ w => w.Sound) :
    wp (anyway net) (fun e c => Orderly e.state c) x ec e fun _ _ e' => e'.state.Sound := by
  have hS : Corresponds id (fun _ r => r) kernel Orderly (anyway net)
      (fun (e : Endpoint ι) c => Orderly e.state c) fun e w => e.state = w ∧ w.Apart := by
    constructor
    · rintro e _ c ⟨rfl, -⟩ hc
      exact hc
    · rintro e _ c r e' ⟨rfl, ha⟩ hc ⟨d, hd⟩
      obtain ⟨hk, ha'⟩ := kernel_of_switchboard ha hc hd
      exact ⟨e'.state, hk, rfl, ha'⟩
  refine (Ensures.simulate hS h ⟨rfl, ha⟩).mono (fun _ _ hg => hg) ?_
  rintro r e' ⟨_, ⟨rfl, -⟩, hs⟩
  exact hs

/-- The calls keep to the owners, and what comes of them is as `Q` says. -/
def Anyhow (net : Resolver) (x : Member ι α) (ec : ErrorCode) (e : Endpoint ι)
    (Q : α → ErrorCode → Endpoint ι → Prop) : Prop :=
  wp (anyway net) (fun e c => Orderly e.state c) x ec e fun a ec e => e.state.Sound ∧ Q a ec e

theorem anyhow_of {x : Member ι α} {Q : α → ErrorCode → Endpoint ι → Prop} (hs : e.state.Sound)
    (h : wp kernel Orderly x ec e.state fun _ _ w => w.Sound)
    (hQ : wp (anyway net) (fun _ _ => True) x ec e Q) : Anyhow net x ec e Q :=
  (orderly_anyway hs.apart h).and hQ

theorem Anyhow.bind {β : Type} {x : Member ι α} {f : α → Member ι β}
    {Q : α → ErrorCode → Endpoint ι → Prop} {Q' : β → ErrorCode → Endpoint ι → Prop}
    (h : Anyhow net x ec e Q)
    (hf : ∀ a ec e, e.state.Sound → Q a ec e → Anyhow net (f a) ec e Q') :
    Anyhow net (x >>= f) ec e Q' :=
  wp_bind.mpr (wp_mono h fun a ec e hq => hf a ec e hq.1 hq.2)

theorem anyhow_pure {a : α} {Q : α → ErrorCode → Endpoint ι → Prop} (hs : e.state.Sound)
    (hQ : Q a ec e) : Anyhow net (pure a) ec e Q :=
  ⟨hs, hQ⟩

/-! ## What becomes of the objects -/

/-- The calls that do not change an object. -/
def System : Call ι → Prop
  | .construct .. | .setFd .. | .drop _ => False
  | _ => True

theorem sockets_of_system {c : Call ι} {r : c.Result} (hc : System c) (hm : anyway net e c r e') :
    e'.state.sockets = e.state.sockets := by
  obtain ⟨d, hd⟩ := hm
  cases c with
  | construct | setFd | drop => exact hc.elim
  | fd i => obtain ⟨-, rfl, -⟩ := hd; rfl
  | adopt fd =>
    obtain ⟨-, rfl⟩ := hd
    split <;> rfl
  | getaddrinfo host port => obtain ⟨-, rfl, -⟩ := hd; rfl
  | socket domain type protocol => obtain ⟨-, ⟨-, rfl⟩ | ⟨-, -, rfl⟩⟩ := hd <;> rfl
  | connect fd addr =>
    cases r with
    | true => obtain ⟨x, -, -, rfl⟩ := hd; rfl
    | false => obtain ⟨rfl, -⟩ := hd; rfl
  | bind fd port =>
    cases r with
    | true => obtain ⟨-, rfl⟩ := hd; rfl
    | false => obtain ⟨-, rfl, -⟩ := hd; rfl
  | listen fd backlog =>
    cases r with
    | true => obtain ⟨x, -, -, rfl⟩ := hd; rfl
    | false => obtain ⟨-, rfl, -⟩ := hd; rfl
  | accept fd => obtain ⟨-, -, -, rfl⟩ | ⟨-, -, -, rfl⟩ := hd <;> rfl
  | setsockopt fd => obtain ⟨-, rfl⟩ := hd; rfl
  | close self fd => obtain ⟨-, rfl⟩ := hd; rfl
  | errno => obtain ⟨-, rfl⟩ := hd; rfl

/-- One object holds `n` now, and the other ones what they held. -/
def Put (i : ι) (n : ℤ) (e e' : Endpoint ι) : Prop :=
  e'.state.sockets = Function.update e.state.sockets i (some n)

theorem put_self (hi : e.state.sockets i = some n) : Put i n e e := by
  rw [Put, ← hi, Function.update_eq_self]

theorem Put.apply (h : Put i n e e') : e'.state.sockets i = some n := by
  rw [h, Function.update_self]

theorem Put.apply_ne (h : Put i n e e') (hj : j ≠ i) : e'.state.sockets j = e.state.sockets j := by
  rw [h, Function.update_of_ne hj]

theorem Put.trans {e'' : Endpoint ι} (h : Put i m e e') (h' : Put i n e' e'') : Put i n e e'' := by
  rw [Put, h', h, Function.update_idem]

theorem Put.steady {e'' : Endpoint ι} (h : Put i n e e')
    (hs : e''.state.sockets = e'.state.sockets) : Put i n e e'' :=
  hs.trans h

section Shape

variable {G : Endpoint ι → Call ι → Prop} (hG : ∀ {e c}, G e c)
include hG

theorem any_system {c : Call ι} {Q : c.Result → ErrorCode → Endpoint ι → Prop} (hc : System c)
    (hQ : ∀ r e', anyway net e c r e' → e'.state.sockets = e.state.sockets → Q r ec e') :
    wp (anyway net) G (issue c) ec e Q :=
  wp_issue.mpr ⟨hG, fun r e' hm => hQ r e' hm (sockets_of_system hc hm)⟩

theorem any_lastError {Q : Unit → ErrorCode → Endpoint ι → Prop}
    (hQ : ∀ ec' e', e'.state.sockets = e.state.sockets → Q () ec' e') :
    wp (anyway net) G lastError ec e Q :=
  wp_bind.mpr (any_system hG trivial fun _ e' _ hs => wp_set.mpr (hQ _ e' hs))

theorem any_bind {port : ℤ} (hi : e.state.sockets i = some n) (hn : n < 0) :
    wp (anyway net) G (Socket.bind i port) ec e fun ok ec' e' =>
      (∃ m, Put i m e e') ∧ (ok = true → ec' = ec) := by
  refine wp_bind.mpr (local_close_of_neg anyway_within (fun _ => hG) hi hn ?_)
  refine wp_bind.mpr (any_system hG trivial fun fd e₁ _ hs₁ => ?_)
  refine wp_bind.mpr (local_setFd anyway_within (fun _ => hG) ?_)
  have hput : Put i fd e (e₁.set i (some fd)) := by rw [Put, Endpoint.sockets_set, hs₁]
  split
  · refine wp_bind.mpr (any_lastError hG fun ec' e₂ hs₂ => ?_)
    exact ⟨⟨fd, hput.steady hs₂⟩, nofun⟩
  · refine wp_bind.mpr (any_system hG trivial fun _ e₂ _ hs₂ => ?_)
    refine wp_bind.mpr (any_system hG trivial fun _ e₃ _ hs₃ => ?_)
    refine wp_bind.mpr (any_system hG trivial fun ok e₄ _ hs₄ => ?_)
    have hput₄ : Put i fd e e₄ := ((hput.steady hs₂).steady hs₃).steady hs₄
    split
    · exact ⟨⟨fd, hput₄⟩, fun _ => rfl⟩
    · refine wp_bind.mpr (any_lastError hG fun ec' e₅ hs₅ => ?_)
      have hput₅ := hput₄.steady hs₅
      have hpos : 0 ≤ fd := not_lt.mp ‹_›
      refine wp_bind.mpr (local_close_of_nonneg anyway_within (fun _ => hG) hput₅.apply hpos ?_)
      exact ⟨⟨-1, hput₅.trans rfl⟩, nofun⟩

theorem any_listen {backlog : ℤ} (hi : e.state.sockets i = some n) :
    wp (anyway net) G (Socket.listen i backlog) ec e fun ok ec' e' =>
      e'.state.sockets = e.state.sockets ∧ (ok = true → ec' = ec) := by
  refine wp_bind.mpr (local_valid anyway_within (fun _ => hG) hi ?_)
  split
  · refine wp_bind.mpr (local_fd anyway_within (fun _ => hG) hi ?_)
    refine wp_bind.mpr (any_system hG trivial fun ok e₁ _ hs₁ => ?_)
    split
    · exact ⟨hs₁, fun _ => rfl⟩
    · exact wp_bind.mpr (any_lastError hG fun ec' e₂ hs₂ => ⟨hs₂.trans hs₁, nofun⟩)
  · exact ⟨rfl, nofun⟩

/-- The object that `Accept` returns holds the descriptor that is connected, or none. -/
theorem any_accept (hi : e.state.sockets i = some n) :
    wp (anyway net) G (Socket.accept i j) ec e fun _ ec' e' =>
      ∃ m, Put j m e e' ∧ (0 ≤ m → e'.connected = some m ∧ ec' = ec) := by
  refine wp_bind.mpr (local_fd anyway_within (fun _ => hG) hi ?_)
  refine wp_bind.mpr (any_system hG trivial fun peer e₁ hm hs₁ => ?_)
  split
  · refine wp_bind.mpr (any_lastError hG fun ec' e₂ hs₂ => ?_)
    refine local_construct anyway_within (fun _ => hG) ⟨-1, ?_, fun h => absurd h (by decide)⟩
    rw [Put, Endpoint.sockets_set, hs₂, hs₁]
  · refine local_construct anyway_within (fun _ => hG) ⟨peer, ?_, fun _ => ⟨?_, rfl⟩⟩
    · rw [Put, Endpoint.sockets_set, hs₁]
    · obtain ⟨d, ⟨-, -, -, rfl⟩ | ⟨-, hneg, -⟩⟩ := hm
      · rfl
      · exact absurd hneg ‹_›

theorem any_tryEach (ps : List AddrInfo) (hi : e.state.sockets i = some n) (hn : n < 0) :
    wp (anyway net) G (Socket.tryEach i ps) ec e fun _ ec' e' =>
      ec' = ec ∧ ∃ m, Put i m e e' ∧ (0 ≤ m → e'.connected = some m) := by
  induction ps generalizing e n with
  | nil => exact ⟨rfl, n, put_self hi, fun h => absurd hn (not_lt.mpr h)⟩
  | cons p ps ih =>
    refine wp_bind.mpr (any_system hG trivial fun fd e₁ _ hs₁ => ?_)
    refine wp_bind.mpr (local_setFd anyway_within (fun _ => hG) ?_)
    have hput : Put i fd e (e₁.set i (some fd)) := by rw [Put, Endpoint.sockets_set, hs₁]
    have hgo : ∀ {e₂ m}, Put i m e e₂ → m < 0 → wp (anyway net) G (Socket.tryEach i ps) ec e₂
        fun _ ec' e' => ec' = ec ∧ ∃ m, Put i m e e' ∧ (0 ≤ m → e'.connected = some m) := by
      intro e₂ m h₂ hm
      refine wp_mono (ih h₂.apply hm) ?_
      rintro _ _ e' ⟨hec, k, hk, hc⟩
      exact ⟨hec, k, h₂.trans hk, hc⟩
    split
    · exact hgo hput ‹_›
    · refine wp_bind.mpr (any_system hG trivial fun ok e₂ hm hs₂ => ?_)
      have hput₂ := hput.steady hs₂
      cases ok with
      | true =>
        obtain ⟨d, x, -, -, rfl⟩ := hm
        exact ⟨rfl, fd, hput₂, fun _ => rfl⟩
      | false =>
        have hpos : 0 ≤ fd := not_lt.mp ‹_›
        refine wp_bind.mpr (local_close_of_nonneg anyway_within (fun _ => hG) hput₂.apply hpos ?_)
        exact hgo (hput₂.trans rfl) (by decide)

theorem any_connect {host : Bytes} {port : ℤ} (hi : e.state.sockets i = some n) (hn : n < 0) :
    wp (anyway net) G (Socket.connect i host port) ec e fun ok ec' e' =>
      ∃ m, Put i m e e' ∧ (ok = true → 0 ≤ m ∧ e'.connected = some m ∧ ec' = ec) := by
  refine wp_bind.mpr (local_close_of_neg anyway_within (fun _ => hG) hi hn ?_)
  refine wp_bind.mpr (any_system hG trivial fun info e₁ _ hs₁ => ?_)
  have hput : Put i n e e₁ := (put_self hi).steady hs₁
  rcases info with rc | _ | ⟨p, ps⟩
  · exact ⟨n, hput, nofun⟩
  · exact ⟨n, hput, nofun⟩
  · refine wp_bind.mpr (wp_mono (any_tryEach hG _ hput.apply hn) ?_)
    rintro - _ e₂ ⟨rfl, m, hput₂, hc⟩
    have hput₂ := hput.trans hput₂
    refine wp_bind.mpr (local_valid anyway_within (fun _ => hG) hput₂.apply ?_)
    split
    · rename_i hm
      have hm : 0 ≤ m := by simpa using hm
      exact ⟨m, hput₂, fun _ => ⟨hm, hc hm, rfl⟩⟩
    · exact wp_bind.mpr (any_lastError hG fun ec' e₃ hs₃ => ⟨m, hput₂.steady hs₃, nofun⟩)

end Shape

end Xfer.Net.Lifetime
