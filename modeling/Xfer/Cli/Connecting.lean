import Xfer.Cli.Run
import Xfer.Net.Dialing

/-! # How a command gets its connection

Without an outage the one who waits comes to listen at its port and then waits,
and the one who dials gets through or is refused. Either way, once there is a
connection the object `sock` holds it, and the other objects are gone.
-/

namespace Xfer.Cli

open Net Process Code Program Lifetime

variable {net : Resolver} {e e' : Endpoint Object} {ec : ErrorCode} {m port : ℤ} {host : Bytes}

/-- The object that the session is given holds the descriptor that is connected. -/
def Connected (e : Endpoint Object) : Prop :=
  ∃ fd, 0 ≤ fd ∧ e.state.sockets .sock = some fd ∧ e.connected = some fd

/-- No address is connected to, and nothing is listened to but the port. -/
def Places (port : ℤ) (e : Endpoint Object) : Lifetime.Call Object → Prop
  | .connect .. => False
  | .listen fd _ => ∀ x, e.bound = some (fd, x) → x = port
  | _ => True

theorem places_of_plain {c : Lifetime.Call Object} (hc : Plain c) : Places port e c := by
  cases c with
  | connect | listen => exact hc.elim
  | _ => trivial

theorem calm_bindAndAccept (hs : e.state.sockets .sock = some m) (hm : m < 0) (hr : e.Roomy) :
    Calm net (Places (port % 2 ^ 16)) (bindAndAccept port .sock) ec e fun ok ec' e' =>
      ok = true ∧ ec' = ec ∧ Connected e' := by
  have hG : ∀ {e c}, Plain c → Places (port % 2 ^ 16) e c := places_of_plain
  unfold bindAndAccept
  refine wp_bind.mpr (local_construct calm_within hG (wp_bind.mpr (wp_bind.mpr ?_)))
  refine calm_bind hG (n := -1) (by simp) (by decide) hr fun fd hfd => ?_
  simp only [Bool.not_true, Bool.false_eq_true, if_false]
  refine wp_bind.mpr (calm_listen hG (n := fd) (by simp) hfd.1 rfl (fun x hx => ?_) ?_)
  · cases hx
    rfl
  simp only [Bool.not_true, Bool.false_eq_true, if_false]
  refine wp_bind.mpr (calm_accept hG (n := fd) (by simp) rfl (hr.acquire fd) trivial
    fun peer hpeer => ?_)
  have hne : peer ≠ fd := by
    rintro rfl
    exact hpeer.2.1 (Set.mem_insert _ _)
  refine wp_bind.mpr (local_assign calm_within hG (by decide) (m := m) (n := peer) ?_ hm (by simp) ?_)
  · simpa using hs
  refine wp_bind.mpr (local_destroy_of_neg calm_within hG (n := -1) (by simp) (by decide) ?_)
  refine local_valid calm_within hG (n := peer) (by simp) ?_
  refine wp_bind.mpr (local_destroy_of_nonneg calm_within hG (n := fd) (by simp) hfd.1 ?_)
  refine ⟨by simpa using hpeer.1, rfl, peer, hpeer.1, by simp, ?_⟩
  simp [Endpoint.release, hne]

theorem connected_of_unmet {c : Lifetime.Call Object} {r : c.Result} (h : e.connected = none)
    (hm : unmet (switchboard net False) e c r e') : e'.connected = none := by
  obtain ⟨d, hd, hs, hne⟩ := hm
  cases c with
  | connect fd addr =>
    cases r with
    | true =>
      obtain ⟨x, -, rfl, -⟩ := hd
      cases hs
    | false => exact hd.1 ▸ h
  | bind fd port =>
    cases r with
    | true => exact hd.2 ▸ h
    | false => exact hd.2.1 ▸ h
  | listen fd backlog =>
    cases r with
    | true =>
      obtain ⟨x, -, -, rfl⟩ := hd
      exact h
    | false => exact hd.2.1 ▸ h
  | accept fd =>
    rcases hd with ⟨rfl, -⟩ | ⟨-, -, -, rfl⟩
    · exact absurd rfl hne
    · exact h
  | socket domain type protocol =>
    rcases hd.2 with ⟨-, rfl⟩ | ⟨-, -, rfl⟩ <;> exact h
  | close self fd =>
    rw [hd.2, Endpoint.release, h]
    rfl
  | construct i fd => exact hd.2 ▸ h
  | setFd i fd => exact hd.2 ▸ h
  | drop i => exact hd.2 ▸ h
  | adopt fd => exact hd.2 ▸ h
  | fd i => exact hd.2.1 ▸ h
  | getaddrinfo host port => exact hd.2.1 ▸ h
  | setsockopt fd => exact hd.2 ▸ h
  | errno => exact hd.2 ▸ h

theorem solo_bindAndAccept {U : ℤ → Prop}
    {J : ℤ → Program (Lifetime.Call.Result (ι := Object)) (Bool × ErrorCode) → Endpoint Object → Prop}
    (hs : e.state.sockets .sock = some m) (hm : m < 0) (hr : e.Roomy) (hc : e.connected = none) :
    Solo (switchboard net False) (· = port % 2 ^ 16) (fun _ => True) U J (fun _ _ => False)
      ((bindAndAccept port .sock).run ec) e := by
  refine Solo.of_ensures (G := Places (port % 2 ^ 16)) ?_ ?_
  · intro e c d r e' hg hd
    by_cases hp : Plain c
    · rcases deed_of_plain hp hd with rfl | rfl
      · exact ⟨fun a ha => by cases ha; rfl, nofun, nofun, nofun⟩
      · exact ⟨nofun, nofun, nofun, nofun⟩
    · cases c with
      | connect fd addr => exact hg.elim
      | listen fd backlog =>
        cases r with
        | true =>
          obtain ⟨x, hx, rfl, -⟩ := hd
          exact ⟨nofun, fun y hy => by cases hy; exact hg x hx, nofun, nofun⟩
        | false =>
          obtain rfl := hd.1
          exact ⟨fun a ha => by cases ha; rfl, nofun, nofun, nofun⟩
      | accept fd =>
        rcases hd with ⟨rfl, -⟩ | ⟨rfl, -⟩
        · exact ⟨nofun, nofun, fun _ => trivial, nofun⟩
        · exact ⟨fun a ha => by cases ha; rfl, nofun, nofun, nofun⟩
      | _ => exact absurd trivial hp
  · have hspec : Calm net (Places (port % 2 ^ 16)) (bindAndAccept port .sock) ec e _ :=
      calm_bindAndAccept hs hm hr
    refine ((Ensures.le hspec fun hm => unmet_silently hm).invariant hc connected_of_unmet).mono
      (fun _ _ hg => hg) ?_
    rintro r e' ⟨⟨-, -, fd, -, -, hfd⟩, hno⟩
    cases hfd.symm.trans hno

/-- The one who dials gets through to its port, or is refused wherever an address leads to. -/
theorem solo_dialOut {L U : ℤ → Prop} {A : Endpoint Object → Prop}
    (hs : e.state.sockets .sock = some m) (hm : m < 0) (hr : e.Roomy) :
    Solo (switchboard net False) L A U
      (fun x p e' => x = port ∧ Ensures (silently (switchboard net False)) (fun _ _ => True) p e'
        fun r e'' => r.1 = true ∧ r.2 = ec ∧ Connected e'')
      (fun r e' => r.1 = false ∧ e'.state.sockets .sock = some m ∧
        ∀ info, net.getaddrinfo host port = .ok info →
          ∀ p ∈ info, net.leads p.addr = some port → U port)
      ((dialOut host port .sock).run ec) e := by
  unfold dialOut
  rw [StateT.run_bind]
  refine Solo.bind (E := fun r e' => r.2 = ec ∧ e' = e.set .s (some (-1)))
    (Calm.solo (local_construct calm_within id ⟨rfl, rfl⟩)) ?_
  rintro ⟨_, ec⟩ _ ⟨rfl, rfl⟩
  simp only
  have hs₁ : (e.set .s (some (-1))).state.sockets .s = some (-1) := by simp
  rw [StateT.run_bind]
  refine Solo.bind (E := fun r e' => r.1 = false ∧ (∃ n < 0, e'.state.sockets .s = some n) ∧
    e'.state.sockets .sock = some m ∧ ∀ info, net.getaddrinfo host port = .ok info →
      ∀ p ∈ info, net.leads p.addr = some port → U port) ?_ ?_
  · rw [StateT.run_bind]
    have hkept : ∀ {n e'}, Tried .s n (e.set .s (some (-1))) e' →
        e'.state.sockets .sock = some m := fun ht => by
      rw [ht.sockets]
      simpa using hs
    refine Solo.bind (Solo.mono (solo_socketConnect hs₁ (by decide) hr) ?_ id) ?_
    · rintro x p e' ⟨rfl, fd, hfd, ht, hc, hp⟩
      refine ⟨rfl, ensures_bind.mpr (ensures_bind.mpr (hp.mono (fun _ _ _ => trivial) ?_))⟩
      rintro _ e'' ⟨rfl, rfl⟩
      -- from here on, the connected descriptor is moved to the session's socket
      change Calm net (fun _ _ => True) (Lifetime.Socket.assign .sock .s >>= fun _ => pure true) ec e''
        fun a ec' e' => Calm net (fun _ _ => True) (Lifetime.Socket.destroy .s >>= fun _ => pure a)
          ec' e' fun a' ec'' e''' => a' = true ∧ ec'' = ec ∧ Connected e'''
      refine wp_bind.mpr (local_assign calm_within (fun _ => trivial) (by decide) (hkept ht) hm ht.apply ?_)
      have hmoved : ((e''.set .sock (some fd)).set .s (some (-1))).state.sockets .s = some (-1) := by
        simp
      have hdone : Calm net (fun _ _ => True) (Lifetime.Socket.destroy .s >>= fun _ => pure true) ec
          ((e''.set .sock (some fd)).set .s (some (-1)))
          fun a ec'' e''' => a = true ∧ ec'' = ec ∧ Connected e''' :=
        wp_bind.mpr (local_destroy_of_neg calm_within (fun _ => trivial) hmoved (by decide)
          ⟨rfl, rfl, fd, hfd, rfl, hc⟩)
      exact hdone
    · rintro ⟨_, ec'⟩ e' ⟨rfl, ⟨n, hn, ht⟩, hU⟩
      exact ⟨rfl, ⟨n, hn, ht.apply⟩, hkept ht, hU⟩
  · rintro ⟨_, ec'⟩ e' ⟨rfl, ⟨n, hn, hi⟩, hsock, hU⟩
    exact Calm.solo (wp_bind.mpr (local_destroy_of_neg calm_within id hi hn ⟨rfl, by simpa using hsock, hU⟩))

end Xfer.Cli
