import Xfer.Process.Network
import Mathlib.Logic.Relation

/-! # A party and any peer

A ledger keeps what a party has sent and received. Watched, a party may receive
anything and see its peer close at any time, so what it ensures on its ledger
holds next to every peer. Two parties that never wait for each other at the same
time never come to a standstill.
-/

namespace Xfer.Process

open Program Relation

variable {C : Type} {R : C → Type} {H β α α₁ α₂ : Type}

/-- A host with the bytes it has received and sent so far. -/
structure Ledger (H β : Type) where
  host : H
  received : List β
  sent : List β

/-- The same party after more output. -/
def Ledger.send (w : Ledger H β) (bs : List β) : Ledger H β := { w with sent := w.sent ++ bs }

/-- The same party after more input. -/
def Ledger.receive (w : Ledger H β) (bs : List β) : Ledger H β :=
  { w with received := w.received ++ bs }

section Ledger

variable (w : Ledger H β) (bs : List β)

@[simp] theorem Ledger.sent_send : (w.send bs).sent = w.sent ++ bs := rfl
@[simp] theorem Ledger.received_send : (w.send bs).received = w.received := rfl
@[simp] theorem Ledger.sent_receive : (w.receive bs).sent = w.sent := rfl
@[simp] theorem Ledger.received_receive : (w.receive bs).received = w.received ++ bs := rfl

end Ledger

/-- Two ledgers with the same entries; the hosts may differ. -/
def Ledger.Level (w w' : Ledger H β) : Prop := w'.received = w.received ∧ w'.sent = w.sent

theorem Ledger.Level.refl (w : Ledger H β) : w.Level w := ⟨rfl, rfl⟩

theorem Ledger.Level.trans {w w' w'' : Ledger H β} (h : w.Level w') (h' : w'.Level w'') :
    w.Level w'' :=
  ⟨h'.1.trans h.1, h'.2.trans h.2⟩

/-- The entry of an action in a ledger. -/
def Action.recorded : Action β → (received sent received' sent' : List β) → Prop
  | out bs, i, o, i', o' => i' = i ∧ o' = o ++ bs
  | inp bs, i, o, i', o' => i' = i ++ bs ∧ o' = o
  | _, i, o, i', o' => i' = i ∧ o' = o

/-- The machine on which a party meets any peer. -/
def watched (K : Kernel R H β) : Machine R (Ledger H β) := fun w c r w' =>
  ∃ a, K w.host c a r w'.host ∧ a.recorded w.received w.sent w'.received w'.sent

/-- The property holds whenever a call is issued, and in the end. -/
def Throughout (M : Machine R (Ledger H β)) (P : Ledger H β → Prop) (p : Program R α)
    (w : Ledger H β) (Q : α → Ledger H β → Prop) : Prop :=
  Ensures M (fun w _ => P w) p w fun a w' => P w' ∧ Q a w'

variable {K : Kernel R H β} {reads writes : C → Prop} {Gp Gq : Ledger H β → C → Prop} {cap : ℕ}

theorem watched_sent {c : C} {r : R c} {w w' : Ledger H β} (h : watched K w c r w') :
    w.sent <+: w'.sent := by
  obtain ⟨a, -, ha⟩ := h
  cases a with
  | out bs => exact ⟨bs, ha.2.symm⟩
  | _ => exact ha.2 ▸ List.prefix_rfl

theorem Live.watched_total (hK : Live K reads writes) (w : Ledger H β) (c : C) :
    ∃ r w', watched K w c r w' := by
  obtain ⟨h, i, o⟩ := w
  rcases hK.offers h c with ⟨r, h', hk⟩ | ⟨-, ⟨b, r, h', hk⟩, -⟩ | ⟨-, -, ⟨r, h', hk⟩⟩
  · exact ⟨r, ⟨h', i, o⟩, _, hk, rfl, rfl⟩
  · exact ⟨r, ⟨h', i, o ++ [b]⟩, _, hk, rfl, rfl⟩
  · exact ⟨r, ⟨h', i, o⟩, _, hk, rfl, rfl⟩

theorem Exec.sent_prefix {p : Program R α} {w w' : Ledger H β} {a : α}
    (h : Exec (watched K) p w a w') : w.sent <+: w'.sent := by
  induction h with
  | ret => exact List.prefix_rfl
  | call hm _ ih => exact (watched_sent hm).trans ih

/-- What holds in the end, and of less sent if of more, holds throughout: every call comes before
the end of some run. -/
theorem Live.throughout (hK : Live K reads writes) {P : Ledger H β → Prop}
    (hP : ∀ {w w'}, w.sent <+: w'.sent → P w' → P w) {p : Program R α} {w : Ledger H β}
    {Q : α → Ledger H β → Prop}
    (h : Ensures (watched K) (fun _ _ => True) p w fun a w' => P w' ∧ Q a w') :
    Throughout (watched K) P p w Q := by
  induction p generalizing w with
  | ret a => exact h
  | call c k ih =>
    obtain ⟨a, w', he⟩ := exists_exec hK.watched_total (call c k) w
    exact ⟨hP (Exec.sent_prefix he) (h.of_exec he).1, fun r w' hm => ih r (h.2 r w' hm)⟩

/-- Every call of the program meets the guard, whatever the peer does. -/
abbrev Heeds (K : Kernel R H β) (G : Ledger H β → C → Prop) (p : Program R α) (w : Ledger H β) :
    Prop :=
  Ensures (watched K) G p w fun _ _ => True

/-- Neither guard lets its party wait for the other one while the other one waits for it. -/
structure NeverBothWait (reads writes : C → Prop) (Gp Gq : Ledger H β → C → Prop) : Prop where
  reading : ∀ {h g xs ys c d}, reads c → reads d → Gp ⟨h, ys, xs⟩ c → Gq ⟨g, xs, ys⟩ d → False
  writing : ∀ {h g xs ys tx ty c d}, tx ≠ [] → ty ≠ [] → writes c → writes d →
    Gp ⟨h, ys, xs ++ tx⟩ c → Gq ⟨g, xs, ys ++ ty⟩ d → False

/-- Each party heeds its guard, and what one has sent the other one has received, except for what
is in flight. -/
def Net.Heedful (K : Kernel R H β) (Gp Gq : Ledger H β → C → Prop) (n : Net R H β α₁ α₂) : Prop :=
  ∃ xs ys, Heeds K Gp n.left ⟨n.leftHost, ys, xs ++ n.toRight⟩ ∧
    Heeds K Gq n.right ⟨n.rightHost, xs, ys ++ n.toLeft⟩

theorem Heeds.call {c : C} {k : R c → Program R α} {h h' : H} {i o i' o' : List β} {r : R c}
    {a : Action β} (hp : Heeds K Gp (.call c k) ⟨h, i, o⟩) (hk : K h c a r h')
    (ha : a.recorded i o i' o') : Heeds K Gp (k r) ⟨h', i', o'⟩ :=
  hp.2 r ⟨h', i', o'⟩ ⟨a, hk, ha⟩

theorem Heeds.step {c : C} {k : R c → Program R α₁} {done : Prop} {h h' : H}
    {xs ys tx ty tx' ty' : List β} {r : R c} {a : Action β}
    (hp : Heeds K Gp (.call c k) ⟨h, ys, xs ++ tx⟩) (hk : K h c a r h')
    (ha : a.channels cap done tx ty tx' ty') :
    ∃ bs, ty = bs ++ ty' ∧ Heeds K Gp (k r) ⟨h', ys ++ bs, xs ++ tx'⟩ := by
  cases a with
  | silent =>
    obtain ⟨rfl, rfl⟩ := ha
    exact ⟨[], rfl, hp.call hk ⟨List.append_nil _, rfl⟩⟩
  | out bs =>
    obtain ⟨-, -, rfl, rfl⟩ := ha
    exact ⟨[], rfl, hp.call hk ⟨List.append_nil _, (List.append_assoc ..).symm⟩⟩
  | inp bs =>
    obtain ⟨rfl, rfl⟩ := ha
    exact ⟨bs, rfl, hp.call hk ⟨rfl, rfl⟩⟩
  | eof =>
    obtain ⟨-, rfl, rfl, rfl⟩ := ha
    exact ⟨[], rfl, hp.call hk ⟨List.append_nil _, rfl⟩⟩
  | hangup =>
    obtain ⟨-, rfl, rfl⟩ := ha
    exact ⟨[], rfl, hp.call hk ⟨List.append_nil _, rfl⟩⟩

theorem Net.Heedful.step {n n' : Net R H β α₁ α₂} (hn : n.Heedful K Gp Gq)
    (hs : Net.Step K cap n n') : n'.Heedful K Gp Gq := by
  obtain ⟨xs, ys, hp, hq⟩ := hn
  cases hs with
  | left hk ha =>
    obtain ⟨bs, rfl, hp'⟩ := hp.step hk ha
    exact ⟨xs, ys ++ bs, hp', by rwa [List.append_assoc]⟩
  | right hk ha =>
    obtain ⟨bs, rfl, hq'⟩ := hq.step hk ha
    exact ⟨xs ++ bs, ys, by rwa [List.append_assoc], hq'⟩

theorem Net.Heedful.steps {n n' : Net R H β α₁ α₂} (hn : n.Heedful K Gp Gq)
    (hs : ReflTransGen (Net.Step K cap) n n') : n'.Heedful K Gp Gq := by
  induction hs with
  | refl => exact hn
  | tail _ hs ih => exact ih.step hs

/-- The party is about to write. -/
def Outspoken {α : Type} (K : Kernel R H β) (p : Program R α) (h : H) : Prop :=
  ∃ c k b r h', p = call c k ∧ K h c (.out [b]) r h'

/-- As long as the parties have not both returned, one of them can make a step, or it is about to
write to the other one, which is gone. -/
theorem Net.Heedful.progress (hK : Responsive K reads writes) (hcap : 0 < cap)
    (hw : NeverBothWait reads writes Gp Gq) {n : Net R H β α₁ α₂} (hn : n.Heedful K Gp Gq)
    (hopen : ¬ (Closed n.left ∧ Closed n.right)) : (∃ n', Net.Step K cap n n') ∨
      (Closed n.right ∧ Outspoken K n.left n.leftHost) ∨
      (Closed n.left ∧ Outspoken K n.right n.rightHost) := by
  obtain ⟨p, h, q, g, tx, ty⟩ := n
  obtain ⟨xs, ys, hp, hq⟩ := hn
  cases p with
  | ret a =>
    cases q with
    | ret b => exact absurd ⟨⟨a, rfl⟩, ⟨b, rfl⟩⟩ hopen
    | call d l =>
      rcases hK.channels_or_waits cap g d (Closed (ret a : Program R α₁)) ty tx with
        ⟨_, _, _, _, _, hk, ha⟩ | ⟨hd, -⟩ | ⟨hd, b, r, g', hk⟩
      · exact Or.inl ⟨_, .right hk ha⟩
      · exact absurd ⟨a, rfl⟩ hd
      · exact Or.inr (Or.inr ⟨hd, d, l, b, r, g', rfl, hk⟩)
  | call c k =>
    rcases hK.channels_or_waits cap h c (Closed q) tx ty with
      ⟨_, _, _, _, _, hk, ha⟩ | ⟨hd, hwait⟩ | ⟨hd, b, r, h', hk⟩
    · exact Or.inl ⟨_, .left hk ha⟩
    · cases q with
      | ret b => exact absurd ⟨b, rfl⟩ hd
      | call d l =>
        rcases hK.channels_or_waits cap g d (Closed (.call c k : Program R α₁)) ty tx with
          ⟨_, _, _, _, _, hk, ha⟩ | ⟨-, hwait'⟩ | ⟨⟨a, ha⟩, -⟩
        · exact Or.inl ⟨_, .right hk ha⟩
        · exfalso
          have hne : ∀ {t : List β}, cap ≤ t.length → t ≠ [] := fun ht =>
            List.length_pos_iff.mp (Nat.lt_of_lt_of_le hcap ht)
          rcases hwait with ⟨hc, htx⟩ | ⟨hc, rfl⟩ <;> rcases hwait' with ⟨hd', hty⟩ | ⟨hd', ht⟩
          · exact hw.writing (hne htx) (hne hty) hc hd' hp.1 hq.1
          · exact hne htx ht
          · exact hne hty rfl
          · subst ht
            have hp₁ : Gp ⟨h, ys, xs ++ []⟩ c := hp.1
            have hq₁ : Gq ⟨g, xs, ys ++ []⟩ d := hq.1
            rw [List.append_nil] at hp₁ hq₁
            exact hw.reading hc hd' hp₁ hq₁
        · cases ha
    · exact Or.inr (Or.inl ⟨hd, c, k, b, r, h', rfl, hk⟩)

theorem Net.never_stuck (hK : Live K reads writes) (hcap : 0 < cap)
    (hw : NeverBothWait reads writes Gp Gq) {p : Program R α₁} {q : Program R α₂} {h g : H}
    (hp : Heeds K Gp p ⟨h, [], []⟩) (hq : Heeds K Gq q ⟨g, [], []⟩) {n : Net R H β α₁ α₂}
    (hr : ReflTransGen (Net.Step K cap) ⟨p, h, q, g, [], []⟩ n)
    (hopen : ¬ (Closed n.left ∧ Closed n.right)) : ∃ n', Net.Step K cap n n' := by
  have hstart : Net.Heedful K Gp Gq ⟨p, h, q, g, [], []⟩ := ⟨[], [], hp, hq⟩
  have hgo := (hstart.steps hr).progress hK.responsive hcap hw hopen
  obtain ⟨p, h, q, g, tx, ty⟩ := n
  rcases hgo with hs | ⟨hd, c, k, -, -, -, hc, -⟩ | ⟨hd, c, k, -, -, -, hc, -⟩
  · exact hs
  · obtain rfl : p = call c k := hc
    rcases hK.channels_or_waits cap h c (Closed q) tx ty with ⟨_, _, _, _, _, hk, ha⟩ | ⟨hno, -⟩
    · exact ⟨_, .left hk ha⟩
    · exact absurd hd hno
  · obtain rfl : q = call c k := hc
    rcases hK.channels_or_waits cap g c (Closed p) ty tx with ⟨_, _, _, _, _, hk, ha⟩ | ⟨hno, -⟩
    · exact ⟨_, .right hk ha⟩
    · exact absurd hd hno

end Xfer.Process
