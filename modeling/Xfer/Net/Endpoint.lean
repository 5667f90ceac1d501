import Xfer.Net.Descriptors
import Xfer.Process.Meeting
import Mathlib.Data.Set.Finite.Lattice
import Mathlib.Order.Bounds.Basic

/-! # Getting connected

What the system calls of `Socket` do on a network of two hosts, one of which may
listen at a port and the other one connect to it. A call that can fail for want
of resources or because of the network does so only in an outage, or when there
is no descriptor left.
-/

namespace Xfer.Net.Lifetime

open Process Code

variable {ι : Type}

/-- The objects and descriptors of a process, what a descriptor is bound to, and the ones that
listen and that are connected. -/
structure Endpoint (ι : Type) where
  state : State ι
  bound : Option (ℤ × ℤ) := none
  listening : Option ℤ := none
  connected : Option ℤ := none

/-- What names resolve to, and to which port of the other host an address leads: none but the one
that it has been made for. -/
structure Resolver where
  getaddrinfo : Bytes → ℤ → Except ℤ (List AddrInfo)
  leads : Bytes → Option ℤ
  leads_eq : ∀ {host port info p x}, getaddrinfo host port = .ok info → p ∈ info →
    leads p.addr = some x → x = port

namespace Endpoint

variable (e : Endpoint ι)

/-- The same endpoint with other objects or descriptors. -/
def on (w : State ι) : Endpoint ι := { e with state := w }

def set [DecidableEq ι] (i : ι) (v : Option ℤ) : Endpoint ι := e.on (e.state.set i v)

/-- There is no number for another descriptor. -/
def Full : Prop := ∀ n, 0 ≤ n → n ∈ e.state.held ∨ n ∈ e.state.foreign

/-- A descriptor that is not in use is taken into use. -/
def acquire (fd : ℤ) : Endpoint ι :=
  e.on { e.state with held := insert fd e.state.held, log := e.state.log ++ [.acquired fd] }

def Fresh (fd : ℤ) : Prop := 0 ≤ fd ∧ fd ∉ e.state.held ∧ fd ∉ e.state.foreign

/-- A descriptor goes out of use, and what it was for is over. -/
def release (fd : ℤ) : Endpoint ι where
  state := { e.state with held := e.state.held \ {fd}, log := e.state.log ++ [.released fd] }
  bound := e.bound.filter (·.1 ≠ fd)
  listening := e.listening.filter (· ≠ fd)
  connected := e.connected.filter (· ≠ fd)

end Endpoint

variable [DecidableEq ι]

/-- What the calls do. The members of an object that does not live have any value. -/
def switchboard (net : Resolver) (outage : Prop) :
    Switchboard (Call.Result (ι := ι)) (Endpoint ι) UInt8 ℤ := fun e c d r e' =>
  match c, r with
  | .construct i fd, _ => d = .data .silent ∧ e' = e.set i (some fd)
  | .fd i, fd => d = .data .silent ∧ e' = e ∧ ∀ n, e.state.sockets i = some n → fd = n
  | .setFd i fd, _ => d = .data .silent ∧ e' = e.set i (some fd)
  | .drop i, _ => d = .data .silent ∧ e' = e.set i none
  | .adopt fd, _ => d = .data .silent ∧ e' = e.on (if 0 ≤ fd then
      { e.state with held := insert fd e.state.held, foreign := e.state.foreign \ {fd},
                     log := e.state.log ++ [.acquired fd] } else e.state)
  | .getaddrinfo host port, r => d = .data .silent ∧ e' = e ∧ r = net.getaddrinfo host port
  | .socket .., fd => d = .data .silent ∧
      (e.Fresh fd ∧ e' = e.acquire fd ∨ fd < 0 ∧ (outage ∨ e.Full) ∧ e' = e)
  | .connect fd addr, true => ∃ x, net.leads addr = some x ∧ d = .dial x ∧
      e' = { e with connected := some fd }
  | .connect _ addr, false => e' = e ∧ (d = .data .silent ∧ (outage ∨ net.leads addr = none) ∨
      ∃ x, net.leads addr = some x ∧ d = .refused x)
  | .setsockopt _, _ => d = .data .silent ∧ e' = e
  | .bind fd port, true => d = .data .silent ∧ e' = { e with bound := some (fd, port) }
  | .bind .., false => d = .data .silent ∧ e' = e ∧ outage
  | .listen fd _, true => ∃ x, e.bound = some (fd, x) ∧ d = .listen x ∧
      e' = { e with listening := some fd }
  | .listen fd _, false => d = .data .silent ∧ e' = e ∧ (outage ∨ ∀ x, e.bound ≠ some (fd, x))
  | .accept fd, peer =>
      (d = .accept ∧ e.listening = some fd ∧ e.Fresh peer ∧
        e' = { e.acquire peer with connected := some peer }) ∨
      (d = .data .silent ∧ peer < 0 ∧ (outage ∨ e.listening ≠ some fd ∨ e.Full) ∧ e' = e)
  | .close _ fd, _ => d = (if e.listening = some fd then .hush else .data .silent) ∧ e' = e.release fd
  | .errno, _ => d = .data .silent ∧ e' = e

namespace Endpoint

variable {e : Endpoint ι} {i : ι} {v : Option ℤ} {fd : ℤ}

@[simp] theorem sockets_set : (e.set i v).state.sockets = Function.update e.state.sockets i v := rfl
@[simp] theorem held_set : (e.set i v).state.held = e.state.held := rfl
@[simp] theorem foreign_set : (e.set i v).state.foreign = e.state.foreign := rfl
@[simp] theorem bound_set : (e.set i v).bound = e.bound := rfl
@[simp] theorem listening_set : (e.set i v).listening = e.listening := rfl
@[simp] theorem connected_set : (e.set i v).connected = e.connected := rfl

omit [DecidableEq ι]

@[simp] theorem sockets_acquire : (e.acquire fd).state.sockets = e.state.sockets := rfl
@[simp] theorem held_acquire : (e.acquire fd).state.held = insert fd e.state.held := rfl
@[simp] theorem foreign_acquire : (e.acquire fd).state.foreign = e.state.foreign := rfl
@[simp] theorem bound_acquire : (e.acquire fd).bound = e.bound := rfl
@[simp] theorem listening_acquire : (e.acquire fd).listening = e.listening := rfl
@[simp] theorem connected_acquire : (e.acquire fd).connected = e.connected := rfl
@[simp] theorem sockets_release : (e.release fd).state.sockets = e.state.sockets := rfl
@[simp] theorem foreign_release : (e.release fd).state.foreign = e.state.foreign := rfl

/-- Only finitely many descriptors are in use. -/
def Roomy (e : Endpoint ι) : Prop := e.state.held.Finite ∧ e.state.foreign.Finite

theorem Roomy.exists_fresh (h : e.Roomy) : ∃ n, e.Fresh n := by
  obtain ⟨m, hm⟩ := (h.1.union h.2).bddAbove
  refine ⟨max 0 (m + 1), le_max_left .., fun hin => ?_, fun hin => ?_⟩
  · have := hm (Set.mem_union_left _ hin)
    omega
  · have := hm (Set.mem_union_right _ hin)
    omega

theorem Roomy.not_full (h : e.Roomy) : ¬ e.Full := fun hf => by
  obtain ⟨n, hn, hheld, hforeign⟩ := h.exists_fresh
  exact (hf n hn).elim hheld hforeign

theorem Roomy.acquire (h : e.Roomy) (fd : ℤ) : (e.acquire fd).Roomy := ⟨h.1.insert fd, h.2⟩

theorem Roomy.release (h : e.Roomy) (fd : ℤ) : (e.release fd).Roomy := ⟨h.1.subset Set.sdiff_subset, h.2⟩

theorem fresh_or_full (e : Endpoint ι) : (∃ n, e.Fresh n) ∨ e.Full := by
  by_cases h : ∃ n, e.Fresh n
  · exact Or.inl h
  · refine Or.inr fun n hn => ?_
    by_contra hno
    exact h ⟨n, hn, fun hm => hno (Or.inl hm), fun hm => hno (Or.inr hm)⟩

end Endpoint

variable {net : Resolver} {outage : Prop} {e e' : Endpoint ι}

/-- Every call is answered, and a peer that can be reached can be found not to be listening. -/
theorem switchboard_prompt (net : Resolver) (outage : Prop) :
    Prompt (switchboard net outage : Switchboard (Call.Result (ι := ι)) (Endpoint ι) UInt8 ℤ) where
  answers e c := by
    have hneg : (-1 : ℤ) < 0 := by decide
    cases c with
    | fd i =>
      cases hi : e.state.sockets i with
      | none => exact ⟨.data .silent, (0 : ℤ), e, rfl, rfl, by simp [hi]⟩
      | some n => exact ⟨.data .silent, n, e, rfl, rfl, by simp [hi]⟩
    | getaddrinfo host port => exact ⟨.data .silent, net.getaddrinfo host port, e, rfl, rfl, rfl⟩
    | socket domain type protocol =>
      rcases e.fresh_or_full with ⟨n, hn⟩ | hf
      · exact ⟨.data .silent, n, _, rfl, Or.inl ⟨hn, rfl⟩⟩
      · exact ⟨.data .silent, (-1 : ℤ), e, rfl, Or.inr ⟨hneg, Or.inr hf, rfl⟩⟩
    | connect fd addr =>
      cases hx : net.leads addr with
      | none => exact ⟨.data .silent, false, e, rfl, Or.inl ⟨rfl, Or.inr hx⟩⟩
      | some x => exact ⟨.refused x, false, e, rfl, Or.inr ⟨x, hx, rfl⟩⟩
    | bind fd port => exact ⟨.data .silent, true, _, rfl, rfl⟩
    | listen fd backlog =>
      by_cases hb : ∃ x, e.bound = some (fd, x)
      · obtain ⟨x, hx⟩ := hb
        exact ⟨.listen x, true, _, x, hx, rfl, rfl⟩
      · exact ⟨.data .silent, false, e, rfl, rfl, Or.inr fun x hx => hb ⟨x, hx⟩⟩
    | accept fd =>
      rcases e.fresh_or_full with ⟨n, hn⟩ | hf
      · by_cases hl : e.listening = some fd
        · exact ⟨.accept, n, _, Or.inl ⟨rfl, hl, hn, rfl⟩⟩
        · exact ⟨.data .silent, (-1 : ℤ), e, Or.inr ⟨rfl, hneg, Or.inr (Or.inl hl), rfl⟩⟩
      · exact ⟨.data .silent, (-1 : ℤ), e, Or.inr ⟨rfl, hneg, Or.inr (Or.inr hf), rfl⟩⟩
    | close self fd => exact ⟨_, (), _, rfl, rfl⟩
    | errno => exact ⟨.data .silent, .ioError, e, rfl, rfl⟩
    | _ => exact ⟨.data .silent, (), _, rfl, rfl⟩
  dial_iff {e c x} := by
    cases c with
    | connect fd addr =>
      constructor
      · rintro ⟨r, e', hd⟩
        cases r with
        | true =>
          obtain ⟨y, hy, he, -⟩ := hd
          obtain ⟨⟩ := he
          exact ⟨false, e, rfl, Or.inr ⟨x, hy, rfl⟩⟩
        | false =>
          obtain ⟨-, ⟨he, -⟩ | ⟨y, -, he⟩⟩ := hd <;> cases he
      · rintro ⟨r, e', hd⟩
        cases r with
        | true =>
          obtain ⟨y, -, he, -⟩ := hd
          cases he
        | false =>
          obtain ⟨-, ⟨he, -⟩ | ⟨y, hy, he⟩⟩ := hd
          · cases he
          · obtain ⟨⟩ := he
            exact ⟨true, _, x, hy, rfl, rfl⟩
    | listen fd backlog =>
      refine iff_of_false ?_ ?_ <;> rintro ⟨r, e', hd⟩
      all_goals
        cases r with
        | true => obtain ⟨y, -, he, -⟩ := hd; cases he
        | false => cases hd.1
    | bind fd port =>
      refine iff_of_false ?_ ?_ <;> rintro ⟨r, e', hd⟩
      all_goals cases r <;> cases hd.1
    | accept fd =>
      refine iff_of_false ?_ ?_ <;> rintro ⟨r, e', ⟨he, -⟩ | ⟨he, -⟩⟩ <;> cases he
    | close self fd =>
      refine iff_of_false ?_ ?_ <;> rintro ⟨r, e', he, -⟩ <;> split at he <;> cases he
    | _ => exact iff_of_false (fun ⟨_, _, he, _⟩ => by cases he) fun ⟨_, _, he, _⟩ => by cases he

end Xfer.Net.Lifetime
