import Xfer.Process.Program
import Mathlib.Data.List.Basic

/-! # Two programs joined by byte channels

A kernel labels each result of a call by what it does to the connection. The
same kernel runs a program alone, against a fixed input that ends in
end-of-stream, and runs two programs joined by two bounded channels. No run of
the pair goes on for ever.
-/

namespace Xfer.Process

open Program

variable {C : Type} {R : C → Type} {H β α₁ α₂ : Type}

/-- What a call does to the connection. -/
inductive Action (β : Type) where
  | silent
  | out (bs : List β)
  | inp (bs : List β)
  | eof
  | hangup

/-- The labelled results a call may have on a host, and the host's state afterwards. -/
abbrev Kernel (R : C → Type) (H β : Type) := H → (c : C) → Action β → R c → H → Prop

/-- A host with the input it has still to read and the output it has written. -/
structure World (H β : Type) where
  host : H
  incoming : List β
  outgoing : List β

/-- The same party after more output. -/
def World.sent (w : World H β) (bs : List β) : World H β :=
  { w with outgoing := w.outgoing ++ bs }

/-- The same party with other input to come. -/
def World.reading (w : World H β) (bs : List β) : World H β := { w with incoming := bs }

/-- The same party on another host. -/
def World.on (w : World H β) (h : H) : World H β := { w with host := h }

section World

variable (w : World H β) (xs ys : List β) (h h' : H)

@[simp] theorem World.sent_nil : w.sent [] = w := by simp [World.sent]
@[simp] theorem World.sent_sent : (w.sent xs).sent ys = w.sent (xs ++ ys) := by simp [World.sent]
@[simp] theorem World.host_sent : (w.sent xs).host = w.host := rfl
@[simp] theorem World.incoming_sent : (w.sent xs).incoming = w.incoming := rfl
@[simp] theorem World.outgoing_sent : (w.sent xs).outgoing = w.outgoing ++ xs := rfl
@[simp] theorem World.reading_self : w.reading w.incoming = w := rfl
@[simp] theorem World.reading_reading : (w.reading xs).reading ys = w.reading ys := rfl
@[simp] theorem World.host_reading : (w.reading xs).host = w.host := rfl
@[simp] theorem World.incoming_reading : (w.reading xs).incoming = xs := rfl
@[simp] theorem World.outgoing_reading : (w.reading xs).outgoing = w.outgoing := rfl
@[simp] theorem World.on_self : w.on w.host = w := rfl
@[simp] theorem World.on_on : (w.on h).on h' = w.on h' := rfl
@[simp] theorem World.host_on : (w.on h).host = h := rfl
@[simp] theorem World.incoming_on : (w.on h).incoming = w.incoming := rfl
@[simp] theorem World.outgoing_on : (w.on h).outgoing = w.outgoing := rfl
@[simp] theorem World.reading_sent : (w.sent xs).reading ys = (w.reading ys).sent xs := rfl
@[simp] theorem World.reading_on : (w.on h).reading xs = (w.reading xs).on h := rfl
@[simp] theorem World.on_sent : (w.sent xs).on h = (w.on h).sent xs := rfl

end World

/-- The effect of an action on a party whose peer's whole output is given. -/
def Action.alone : Action β → (inc out inc' out' : List β) → Prop
  | silent, i, o, i', o' => i' = i ∧ o' = o
  | out bs, i, o, i', o' => i' = i ∧ o' = o ++ bs
  | inp bs, i, o, i', o' => i = bs ++ i' ∧ o' = o
  | eof, i, o, i', o' => i = [] ∧ i' = [] ∧ o' = o
  | hangup, _, _, _, _ => False

/-- The machine on which a party runs alone. -/
def alone (K : Kernel R H β) : Machine R (World H β) := fun w c r w' =>
  ∃ a, K w.host c a r w'.host ∧ a.alone w.incoming w.outgoing w'.incoming w'.outgoing

/-- A kernel answers every call as long as the peer is there: without touching the connection, by
writing, or by reading. -/
structure Responsive (K : Kernel R H β) (reads writes : C → Prop) : Prop where
  offers : ∀ h c, (∃ r h', K h c .silent r h') ∨
    (writes c ∧ ∃ b r h', K h c (.out [b]) r h') ∨
    (reads c ∧ (∀ b, ∃ r h', K h c (.inp [b]) r h') ∧ ∃ r h', K h c .eof r h')
  out_of_hangup : ∀ {h c r h'}, K h c .hangup r h' → ∃ b r h', K h c (.out [b]) r h'

/-- A kernel answers every call, even one that writes to a peer that is gone. -/
structure Live (K : Kernel R H β) (reads writes : C → Prop) : Prop where
  offers : ∀ h c, (∃ r h', K h c .silent r h') ∨
    (writes c ∧ (∃ b r h', K h c (.out [b]) r h') ∧ ∃ r h', K h c .hangup r h') ∨
    (reads c ∧ (∀ b, ∃ r h', K h c (.inp [b]) r h') ∧ ∃ r h', K h c .eof r h')
  out_of_hangup : ∀ {h c r h'}, K h c .hangup r h' → ∃ b r h', K h c (.out [b]) r h'

variable {K : Kernel R H β} {reads writes : C → Prop}

theorem Live.responsive (hK : Live K reads writes) : Responsive K reads writes where
  offers h c := (hK.offers h c).imp_right (Or.imp_left fun hw => ⟨hw.1, hw.2.1⟩)
  out_of_hangup := hK.out_of_hangup

theorem Responsive.alone_total (hK : Responsive K reads writes) (w : World H β) (c : C) :
    ∃ r w', alone K w c r w' := by
  obtain ⟨h, i, o⟩ := w
  rcases hK.offers h c with ⟨r, h', hk⟩ | ⟨_, b, r, h', hk⟩ | ⟨_, hin, ⟨r, h', hk⟩⟩
  · exact ⟨r, ⟨h', i, o⟩, _, hk, rfl, rfl⟩
  · exact ⟨r, ⟨h', i, o ++ [b]⟩, _, hk, rfl, rfl⟩
  · cases i with
    | nil => exact ⟨r, ⟨h', [], o⟩, _, hk, rfl, rfl, rfl⟩
    | cons b i =>
      obtain ⟨r, h', hk⟩ := hin b
      exact ⟨r, ⟨h', i, o⟩, _, hk, rfl, rfl⟩

theorem Live.alone_total (hK : Live K reads writes) (w : World H β) (c : C) :
    ∃ r w', alone K w c r w' := hK.responsive.alone_total w c

theorem Action.alone_outgoing {a : Action β} {i o i' o' : List β} (h : a.alone i o i' o') :
    o <+: o' := by
  cases a <;> simp only [Action.alone] at h
  case out bs => exact ⟨bs, h.2.symm⟩
  case eof => exact h.2.2 ▸ List.prefix_rfl
  all_goals exact h.2 ▸ List.prefix_rfl

theorem Exec.outgoing_prefix {α : Type} {p : Program R α} {w w' : World H β} {a : α}
    (h : Exec (alone K) p w a w') : w.outgoing <+: w'.outgoing := by
  induction h with
  | ret => exact List.prefix_rfl
  | call hm _ ih =>
    obtain ⟨_, _, ha⟩ := hm
    exact (Action.alone_outgoing ha).trans ih

/-- What a program alone is known to have written in the end bounds what it has written so far. -/
theorem Responsive.outgoing_prefix (hK : Responsive K reads writes) {α : Type} {p : Program R α}
    {w : World H β} {X : List β} {A : α → World H β → Prop}
    (h : Ensures (alone K) (fun _ _ => True) p w fun a w' => A a w' ∧ w'.outgoing = X) : w.outgoing <+: X := by
  obtain ⟨a, w', he⟩ := exists_exec hK.alone_total p w
  exact (h.of_exec he).2 ▸ Exec.outgoing_prefix he

/-- Two programs, their hosts, and the bytes in flight in either direction. -/
structure Net (R : C → Type) (H β α₁ α₂ : Type) where
  left : Program R α₁
  leftHost : H
  right : Program R α₂
  rightHost : H
  toRight : List β
  toLeft : List β

/-- A program that has returned has closed its end of the connection. -/
def Closed {α : Type} (p : Program R α) : Prop := ∃ a, p = ret a

/-- The effect of an action on channels of capacity `cap`, towards a peer that is done or not. -/
def Action.channels (cap : ℕ) (done : Prop) : Action β → (out inp out' inp' : List β) → Prop
  | silent, o, i, o', i' => o' = o ∧ i' = i
  | out bs, o, i, o', i' => ¬ done ∧ o.length + bs.length ≤ cap ∧ o' = o ++ bs ∧ i' = i
  | inp bs, o, i, o', i' => i = bs ++ i' ∧ o' = o
  | eof, o, i, o', i' => done ∧ i = [] ∧ i' = [] ∧ o' = o
  | hangup, o, i, o', i' => done ∧ o' = o ∧ i' = i

/-- One party makes one call. -/
inductive Net.Step (K : Kernel R H β) (cap : ℕ) :
    Net R H β α₁ α₂ → Net R H β α₁ α₂ → Prop
  | left {c : C} {k : R c → Program R α₁} {a : Action β} {r : R c} {h h' g : H}
      {q : Program R α₂} {o i o' i' : List β} : K h c a r h' →
      a.channels cap (Closed q) o i o' i' →
      Step K cap ⟨.call c k, h, q, g, o, i⟩ ⟨k r, h', q, g, o', i'⟩
  | right {c : C} {k : R c → Program R α₂} {a : Action β} {r : R c} {h g g' : H}
      {p : Program R α₁} {o i o' i' : List β} : K g c a r g' →
      a.channels cap (Closed p) i o i' o' →
      Step K cap ⟨p, h, .call c k, g, o, i⟩ ⟨p, h, k r, g', o', i'⟩

theorem Net.terminates {cap : ℕ} (n : Net R H β α₁ α₂) :
    Acc (fun n' n => Net.Step K cap n n') n := by
  obtain ⟨p, h, q, g, tx, ty⟩ := n
  induction p generalizing q h g tx ty with
  | ret a =>
    induction q generalizing g tx ty with
    | ret b => exact ⟨_, fun _ hs => by cases hs⟩
    | call d l ihq =>
      refine ⟨_, fun n' hs => ?_⟩
      cases hs with
      | right => exact ihq _ _ _ _
  | call c k ihp =>
    induction q generalizing h g tx ty with
    | ret b =>
      refine ⟨_, fun n' hs => ?_⟩
      cases hs with
      | left => exact ihp _ _ _ _ _ _
    | call d l ihq =>
      refine ⟨_, fun n' hs => ?_⟩
      cases hs with
      | left => exact ihp _ _ _ _ _ _
      | right => exact ihq _ _ _ _ _

/-- Every run from the state comes to an end, and it ends in `Done`. -/
inductive Inevitably {S : Type} (step : S → S → Prop) (Done : S → Prop) : S → Prop
  | done {s : S} : Done s → Inevitably step Done s
  | step {s : S} : (∃ s', step s s') → (∀ s', step s s' → Inevitably step Done s') →
      Inevitably step Done s

/-- An invariant under which a step can be made until the end is reached. -/
theorem Inevitably.of_invariant {S : Type} {step : S → S → Prop} {Done I : S → Prop} {s : S}
    (hacc : Acc (fun s' s => step s s') s) (hI : I s) (hstep : ∀ {s s'}, I s → step s s' → I s')
    (hgo : ∀ s, I s → Done s ∨ ∃ s', step s s') : Inevitably step Done s := by
  induction hacc with
  | intro s _ ih =>
    rcases hgo s hI with hd | hs
    · exact .done hd
    · exact .step hs fun s' hs' => ih s' hs' (hstep hI hs')

/-- A call that does not touch the connection, or can read or write now, makes a step possible. -/
theorem Responsive.channels_or_waits (hK : Responsive K reads writes) (cap : ℕ) (h : H) (c : C)
    (done : Prop) (tx ty : List β) :
    (∃ a r h' tx' ty', K h c a r h' ∧ a.channels cap done tx ty tx' ty') ∨
      (¬ done ∧ (writes c ∧ cap ≤ tx.length ∨ reads c ∧ ty = [])) ∨
      (done ∧ ∃ b r h', K h c (.out [b]) r h') := by
  rcases hK.offers h c with ⟨r, h', hk⟩ | ⟨hw, b, r, h', hk⟩ | ⟨hr, hin, ⟨r, h', hk⟩⟩
  · exact Or.inl ⟨_, r, h', tx, ty, hk, rfl, rfl⟩
  · by_cases hd : done
    · exact Or.inr (Or.inr ⟨hd, b, r, h', hk⟩)
    · by_cases hfull : tx.length + [b].length ≤ cap
      · exact Or.inl ⟨_, r, h', tx ++ [b], ty, hk, hd, hfull, rfl, rfl⟩
      · exact Or.inr (Or.inl ⟨hd, Or.inl ⟨hw, Nat.le_of_lt_succ (Nat.lt_of_not_le hfull)⟩⟩)
  · cases ty with
    | nil =>
      by_cases hd : done
      · exact Or.inl ⟨_, r, h', tx, [], hk, hd, rfl, rfl, rfl⟩
      · exact Or.inr (Or.inl ⟨hd, Or.inr ⟨hr, rfl⟩⟩)
    | cons b ty =>
      obtain ⟨r, h', hk⟩ := hin b
      exact Or.inl ⟨_, r, h', tx, ty, hk, rfl, rfl⟩

theorem Live.channels_or_waits (hK : Live K reads writes) (cap : ℕ) (h : H) (c : C) (done : Prop)
    (tx ty : List β) :
    (∃ a r h' tx' ty', K h c a r h' ∧ a.channels cap done tx ty tx' ty') ∨
      (¬ done ∧ (writes c ∧ cap ≤ tx.length ∨ reads c ∧ ty = [])) := by
  rcases hK.responsive.channels_or_waits cap h c done tx ty with hs | hwait | ⟨hd, -⟩
  · exact Or.inl hs
  · exact Or.inr hwait
  · left
    rcases hK.offers h c with ⟨r, h', hk⟩ | ⟨-, -, r, h', hk⟩ | ⟨-, hin, ⟨r, h', hk⟩⟩
    · exact ⟨_, r, h', tx, ty, hk, rfl, rfl⟩
    · exact ⟨_, r, h', tx, ty, hk, hd, rfl, rfl⟩
    · cases ty with
      | nil => exact ⟨_, r, h', tx, [], hk, hd, rfl, rfl, rfl⟩
      | cons b ty =>
        obtain ⟨r, h', hk⟩ := hin b
        exact ⟨_, r, h', tx, ty, hk, rfl, rfl⟩

end Xfer.Process
