import Xfer.Process.Apart
import Xfer.Process.Embedding

/-! # Two programs that are to be connected

Before two programs can exchange bytes, one of them has to listen at some place
and the other one to dial it. Calls are labelled by what they do to this end.
From when it is dialled on, a connection is there; until then a party may be
refused, and who listens waits for as long as nobody dials.
-/

namespace Xfer.Process

open Program

variable {C : Type} {R : C → Type} {H β P α α₁ α₂ : Type} {cap : ℕ}

/-- What a call does to the connection, or to get one. -/
inductive Deed (β P : Type) where
  | data (a : Action β)
  | listen (place : P)
  | hush
  | accept
  | dial (place : P)
  | refused (place : P)

/-- The labelled results a call may have on a host, and the host's state afterwards. -/
abbrev Switchboard (R : C → Type) (H β P : Type) := H → (c : C) → Deed β P → R c → H → Prop

/-- What a call does to a connection that is there; nobody dials then. -/
def Deed.linked : Deed β P → Option (Action β)
  | data a => some a
  | dial _ => none
  | _ => some .silent

/-- The kernel of parties that are connected. -/
def linked (D : Switchboard R H β P) : Kernel R H β := fun h c a r h' =>
  ∃ d, D h c d r h' ∧ d.linked = some a

/-- A deed of a party that is on its own, where the other one answers at some places; the place where
it listens itself, before and afterwards. -/
def Deed.solo (answers : P → Prop) : Deed β P → (own own' : Option P) → Prop
  | data .silent, o, o' => o' = o
  | listen p, _, o' => o' = some p
  | hush, _, o' => o' = none
  | refused p, o, o' => o' = o ∧ ¬ answers p
  | _, _, _ => False

/-- A program answers where it listens until it returns. -/
def Answers (p : Program R α) (place : Option P) (x : P) : Prop := place = some x ∧ ¬ Closed p

/-- Two programs that are not connected yet, with the places where they listen, or that are. -/
inductive Meeting (R : C → Type) (H β P α₁ α₂ : Type) where
  | apart (left : Program R α₁) (leftHost : H) (leftPlace : Option P) (right : Program R α₂)
      (rightHost : H) (rightPlace : Option P)
  | joined (n : Net R H β α₁ α₂)

/-- One party makes one call. -/
inductive Meeting.Step (D : Switchboard R H β P) (cap : ℕ) :
    Meeting R H β P α₁ α₂ → Meeting R H β P α₁ α₂ → Prop
  | left {c : C} {k : R c → Program R α₁} {d : Deed β P} {r : R c} {h h' g : H}
      {q : Program R α₂} {a a' b : Option P} : D h c d r h' → d.solo (Answers q b) a a' →
      Step D cap (.apart (.call c k) h a q g b) (.apart (k r) h' a' q g b)
  | right {c : C} {k : R c → Program R α₂} {d : Deed β P} {r : R c} {h g g' : H}
      {p : Program R α₁} {a b b' : Option P} : D g c d r g' → d.solo (Answers p a) b b' →
      Step D cap (.apart p h a (.call c k) g b) (.apart p h a (k r) g' b')
  | leftDials {c : C} {k : R c → Program R α₁} {x : P} {r : R c} {h h' g : H}
      {q : Program R α₂} {a b : Option P} : D h c (.dial x) r h' → Answers q b x →
      Step D cap (.apart (.call c k) h a q g b) (.joined ⟨k r, h', q, g, [], []⟩)
  | rightDials {c : C} {k : R c → Program R α₂} {x : P} {r : R c} {h g g' : H}
      {p : Program R α₁} {a b : Option P} : D g c (.dial x) r g' → Answers p a x →
      Step D cap (.apart p h a (.call c k) g b) (.joined ⟨p, h, k r, g', [], []⟩)
  | joined {n n' : Net R H β α₁ α₂} : Net.Step (linked D) cap n n' → Step D cap (.joined n) (.joined n')

variable {D : Switchboard R H β P}

theorem Meeting.joined_terminates {n : Net R H β α₁ α₂} :
    Acc (fun m' m : Meeting R H β P α₁ α₂ => Meeting.Step D cap m m') (.joined n) := by
  induction (Net.terminates n : Acc (fun n' n => Net.Step (linked D) cap n n') n) with
  | intro n _ ih =>
    refine ⟨_, fun m' hs => ?_⟩
    cases hs with
    | joined hs => exact ih _ hs

theorem Meeting.terminates (m : Meeting R H β P α₁ α₂) :
    Acc (fun m' m => Meeting.Step D cap m m') m := by
  cases m with
  | joined n => exact joined_terminates
  | apart p h a q g b =>
    induction p generalizing q h g a b with
    | ret x =>
      induction q generalizing g b with
      | ret y => exact ⟨_, fun _ hs => by cases hs⟩
      | call d l ihq =>
        refine ⟨_, fun m' hs => ?_⟩
        cases hs with
        | right => exact ihq _ _ _
        | rightDials => exact joined_terminates
    | call c k ihp =>
      induction q generalizing h g a b with
      | ret y =>
        refine ⟨_, fun m' hs => ?_⟩
        cases hs with
        | left => exact ihp _ _ _ _ _ _
        | leftDials => exact joined_terminates
      | call d l ihq =>
        refine ⟨_, fun m' hs => ?_⟩
        cases hs with
        | left => exact ihp _ _ _ _ _ _
        | right => exact ihq _ _ _ _ _
        | leftDials => exact joined_terminates
        | rightDials => exact joined_terminates

theorem Meeting.inevitably_joined {Done : Net R H β α₁ α₂ → Prop}
    {Outcome : Meeting R H β P α₁ α₂ → Prop} {n : Net R H β α₁ α₂}
    (h : Inevitably (Net.Step (linked D) cap) Done n) (hd : ∀ n, Done n → Outcome (.joined n)) :
    Inevitably (Meeting.Step D cap) Outcome (.joined n) := by
  induction h with
  | done h => exact .done (hd _ h)
  | step hs _ ih =>
    obtain ⟨n', hn'⟩ := hs
    refine .step ⟨.joined n', .joined hn'⟩ fun m' hm' => ?_
    cases hm' with
    | joined hs => exact ih _ hs

/-- Calls are answered, and one that may get through to a place may be refused there, as the other
party is listening or not. -/
structure Prompt (D : Switchboard R H β P) : Prop where
  answers : ∀ h c, ∃ d r h', D h c d r h'
  dial_iff : ∀ {h c x}, (∃ r h', D h c (.dial x) r h') ↔ ∃ r h', D h c (.refused x) r h'

/-- What a party does on its own: it listens nowhere but at `L`, waits for somebody as `A` says, is
refused only at `U`, goes on as `J` says when it gets through, and ends as `E` says if it ends without
a connection. -/
def Solo (D : Switchboard R H β P) (L : P → Prop) (A : H → Prop) (U : P → Prop) (J : P → Program R α → H → Prop)
    (E : α → H → Prop) : Program R α → H → Prop
  | ret a, h => E a h
  | call c k, h => ∀ d r h', D h c d r h' → match d with
    | .data .silent => Solo D L A U J E (k r) h'
    | .listen x => L x ∧ Solo D L A U J E (k r) h'
    | .hush => Solo D L A U J E (k r) h'
    | .refused x => U x → Solo D L A U J E (k r) h'
    | .dial x => J x (k r) h'
    | .accept => A h
    | _ => False

/-- The program waits for somebody who dials. -/
def Waiting (D : Switchboard R H β P) (p : Program R α) (h : H) : Prop :=
  ∃ c k, p = call c k ∧ (∃ r h', D h c .accept r h') ∧ ∀ {d r h'}, D h c d r h' → d = .accept

/-- The program has ended without a connection, or waits for one. -/
def Rests (D : Switchboard R H β P) (A : H → Prop) (E : α → H → Prop) (p : Program R α) (h : H) :
    Prop :=
  (∃ a, p = ret a ∧ E a h) ∨ Waiting D p h ∧ A h

variable {L L₁ L₂ U : P → Prop} {A A₁ A₂ : H → Prop} {J : P → Program R α → H → Prop} {E : α → H → Prop}
  {J₁ : P → Program R α₁ → H → Prop} {J₂ : P → Program R α₂ → H → Prop} {E₁ : α₁ → H → Prop}
  {E₂ : α₂ → H → Prop} {p : Program R α₁} {q : Program R α₂} {h g : H} {a b : Option P}

theorem Solo.rests {p : Program R α} (a : Option P) (answers : P → Prop) (hD : Prompt D)
    (hp : Solo D L A U J E p h)
    (hno : ∀ c k, p = call c k → ∀ d r h', D h c d r h' → ¬ ∃ a', d.solo answers a a')
    (hdial : ∀ c k, p = call c k → ∀ x r h', D h c (.dial x) r h' → ¬ answers x) : Rests D A E p h := by
  cases p with
  | ret a => exact Or.inl ⟨a, rfl, hp⟩
  | call c k =>
    have honly : ∀ {d r h'}, D h c d r h' → d = .accept := by
      intro d r h' hd
      have hsolo := hno c k rfl d r h' hd
      have hcase := hp d r h' hd
      cases d with
      | accept => rfl
      | data act =>
        cases act with
        | silent => exact absurd ⟨_, rfl⟩ hsolo
        | _ => exact hcase.elim
      | listen x => exact absurd ⟨_, rfl⟩ hsolo
      | hush => exact absurd ⟨_, rfl⟩ hsolo
      | refused x =>
        obtain ⟨r', h'', hd'⟩ := hD.dial_iff.mpr ⟨r, h', hd⟩
        exact absurd ⟨_, rfl, hdial c k rfl x r' h'' hd'⟩ hsolo
      | dial x =>
        obtain ⟨r', h'', hd'⟩ := hD.dial_iff.mp ⟨r, h', hd⟩
        exact absurd ⟨_, rfl, hdial c k rfl x r h' hd⟩ (hno c k rfl _ r' h'' hd')
    obtain ⟨d, r, h', hd⟩ := hD.answers h c
    obtain rfl := honly hd
    exact Or.inr ⟨⟨c, k, rfl, ⟨r, h', hd⟩, honly⟩, hp _ r h' hd⟩

theorem Solo.step {c : C} {k : R c → Program R α} {answers : P → Prop} {d : Deed β P} {r : R c}
    {h' : H} {a' : Option P} (hp : Solo D L A U J E (.call c k) h) (hd : D h c d r h')
    (hs : d.solo answers a a') (hU : ∀ x, ¬ answers x → U x) (ha : ∀ x, a = some x → L x) :
    Solo D L A U J E (k r) h' ∧ ∀ x, a' = some x → L x := by
  have hcase := hp d r h' hd
  cases d with
  | data act =>
    cases act with
    | silent =>
      obtain rfl := hs
      exact ⟨hcase, ha⟩
    | _ => exact hs.elim
  | listen x =>
    obtain rfl := hs
    exact ⟨hcase.2, fun _ he => Option.some.inj he ▸ hcase.1⟩
  | hush =>
    obtain rfl := hs
    exact ⟨hcase, fun _ he => by cases he⟩
  | refused x =>
    obtain ⟨rfl, hno⟩ := hs
    exact ⟨hcase (hU x hno), ha⟩
  | accept => exact hs.elim
  | dial x => exact hs.elim

theorem Deed.solo_silent {answers : P → Prop} {d : Deed β P} {a a' : Option P}
    (hs : d.solo answers a a') : d.linked = some .silent := by
  cases d with
  | data act =>
    cases act with
    | silent => rfl
    | _ => exact hs.elim
  | accept => exact hs.elim
  | dial x => exact hs.elim
  | _ => rfl

section Compose

variable {γ : Type} {x : Program R α} {E' : γ → H → Prop} {J' : P → Program R γ → H → Prop}

theorem Solo.mono {J' : P → Program R α → H → Prop} {E' : α → H → Prop} (hx : Solo D L A U J E x h)
    (hJ : ∀ {y p h}, J y p h → J' y p h) (hE : ∀ {a h}, E a h → E' a h) : Solo D L A U J' E' x h := by
  induction x generalizing h with
  | ret a => exact hE hx
  | call c k ih =>
    intro d r h' hd
    have hcase := hx d r h' hd
    cases d with
    | data act =>
      cases act with
      | silent => exact ih r hcase
      | _ => exact hcase
    | listen y => exact ⟨hcase.1, ih r hcase.2⟩
    | hush => exact ih r hcase
    | refused y => exact fun hy => ih r (hcase hy)
    | dial y => exact hJ hcase
    | accept => exact hcase

theorem Solo.bind {f : α → Program R γ} (hx : Solo D L A U (fun y p h => J' y (p >>= f) h) E x h)
    (hf : ∀ {a h}, E a h → Solo D L A U J' E' (f a) h) : Solo D L A U J' E' (x >>= f) h := by
  induction x generalizing h with
  | ret a => exact hf hx
  | call c k ih =>
    intro d r h' hd
    have hcase := hx d r h' hd
    cases d with
    | data act =>
      cases act with
      | silent => exact ih r hcase
      | _ => exact hcase
    | listen y => exact ⟨hcase.1, ih r hcase.2⟩
    | hush => exact ih r hcase
    | refused y => exact fun hy => ih r (hcase hy)
    | dial y => exact hcase
    | accept => exact hcase

section Embed

variable {C₁ C₂ H₁ H₂ : Type} {R₁ : C₁ → Type} {R₂ : C₂ → Type} {i : C₁ → C₂}
  {out : ∀ c, R₂ (i c) → R₁ c} {D₁ : Switchboard R₁ H₁ β P} {D₂ : Switchboard R₂ H₂ β P}
  {S : H₂ → H₁ → Prop}

/-- What the larger signature's switchboard does with the calls of the smaller one, that one's own
does, with the same deeds. -/
def Mirrors (i : C₁ → C₂) (out : ∀ c, R₂ (i c) → R₁ c) (D₁ : Switchboard R₁ H₁ β P)
    (D₂ : Switchboard R₂ H₂ β P) (S : H₂ → H₁ → Prop) : Prop :=
  ∀ {h₂ h₁ c d r h₂'}, S h₂ h₁ → D₂ h₂ (i c) d r h₂' → ∃ h₁', D₁ h₁ c d (out c r) h₁' ∧ S h₂' h₁'

theorem Solo.embed {x : Program R₁ γ} {h₁ : H₁} {h₂ : H₂} {J₁ : P → Program R₁ γ → H₁ → Prop}
    {J₂ : P → Program R₂ γ → H₂ → Prop} {A₁ : H₁ → Prop} {A₂ : H₂ → Prop} {E₁ : γ → H₁ → Prop}
    {E₂ : γ → H₂ → Prop}
    (hS : Mirrors i out D₁ D₂ S) (hx : Solo D₁ L A₁ U J₁ E₁ x h₁) (hh : S h₂ h₁)
    (hJ : ∀ {y p h₁ h₂}, S h₂ h₁ → J₁ y p h₁ → J₂ y (Program.embed i out p) h₂)
    (hA : ∀ {h₁ h₂}, S h₂ h₁ → A₁ h₁ → A₂ h₂) (hE : ∀ {a h₁ h₂}, S h₂ h₁ → E₁ a h₁ → E₂ a h₂) :
    Solo D₂ L A₂ U J₂ E₂ (Program.embed i out x) h₂ := by
  induction x generalizing h₁ h₂ with
  | ret a => exact hE hh hx
  | call c k ih =>
    intro d r h₂' hd
    obtain ⟨h₁', hd₁, hh'⟩ := hS hh hd
    have hcase := hx d (out c r) h₁' hd₁
    cases d with
    | data act =>
      cases act with
      | silent => exact ih _ hcase hh'
      | _ => exact hcase
    | listen y => exact ⟨hcase.1, ih _ hcase.2 hh'⟩
    | hush => exact ih _ hcase hh'
    | refused y => exact fun hy => ih _ (hcase hy) hh'
    | dial y => exact hJ hh' hcase
    | accept => exact hA hh hcase

end Embed

/-- The machine of calls that do not touch the connection. -/
def silently (D : Switchboard R H β P) : Machine R H := fun h c r h' => linked D h c .silent r h'

/-- The machine of a party that nobody dials. -/
def unmet (D : Switchboard R H β P) : Machine R H := fun h c r h' =>
  ∃ d, D h c d r h' ∧ d.linked = some .silent ∧ d ≠ .accept

theorem Solo.of_ensures {G : H → C → Prop}
    (hG : ∀ {h c d r h'}, G h c → D h c d r h' → (∀ a, d = .data a → a = .silent) ∧
      (∀ y, d = .listen y → L y) ∧ (d = .accept → A h) ∧ ∀ y, d ≠ .dial y)
    (hx : Ensures (unmet D) G x h E) : Solo D L A U J E x h := by
  induction x generalizing h with
  | ret a => exact hx
  | call c k ih =>
    intro d r h' hd
    obtain ⟨hdata, hlisten, haccept, hdial⟩ := hG hx.1 hd
    have hnext : d.linked = some .silent → d ≠ .accept → Solo D L A U J E (k r) h' := fun hs hne =>
      ih r (hx.2 r h' ⟨d, hd, hs, hne⟩)
    cases d with
    | data act =>
      obtain rfl := hdata act rfl
      exact hnext rfl (by simp)
    | listen y => exact ⟨hlisten y rfl, hnext rfl (by simp)⟩
    | hush => exact hnext rfl (by simp)
    | refused y => exact fun _ => hnext rfl (by simp)
    | dial y => exact absurd rfl (hdial y)
    | accept => exact haccept rfl

theorem unmet_silently {c : C} {r : R c} {h' : H} (hm : unmet D h c r h') : silently D h c r h' := by
  obtain ⟨d, hd, hs, -⟩ := hm
  exact ⟨d, hd, hs⟩

end Compose

/-- A property of a program that calls keep as long as they do not touch the connection. -/
def Lasting (D : Switchboard R H β P) (N : Program R α → H → Prop) : Prop :=
  ∀ {c k h r h'}, N (call c k) h → linked D h c .silent r h' → N (k r) h'

/-- Two parties on their own come to where both rest, unless one of them gets through to the other
one; and then to where connected parties come to. -/
theorem Meeting.inevitably {N₁ : Program R α₁ → H → Prop} {N₂ : Program R α₂ → H → Prop}
    {Done : Net R H β α₁ α₂ → Prop} {Outcome : Meeting R H β P α₁ α₂ → Prop} (hD : Prompt D)
    (hN₁ : Lasting D N₁) (hN₂ : Lasting D N₂)
    (hl : ∀ {x p h q g}, J₁ x p h → L₂ x → N₂ q g →
      Inevitably (Net.Step (linked D) cap) Done ⟨p, h, q, g, [], []⟩)
    (hr : ∀ {x p h q g}, J₂ x q g → L₁ x → N₁ p h →
      Inevitably (Net.Step (linked D) cap) Done ⟨p, h, q, g, [], []⟩)
    (hdone : ∀ n, Done n → Outcome (.joined n))
    (hrest : ∀ {p h a q g b}, Rests D A₁ E₁ p h → Rests D A₂ E₂ q g →
      (¬ ∃ m', Meeting.Step D cap (.apart p h a q g b) m') → Outcome (.apart p h a q g b))
    (hp : Solo D L₁ A₁ (fun _ => True) J₁ E₁ p h) (hq : Solo D L₂ A₂ (fun _ => True) J₂ E₂ q g)
    (hp' : N₁ p h) (hq' : N₂ q g) (ha : ∀ x, a = some x → L₁ x) (hb : ∀ x, b = some x → L₂ x) :
    Inevitably (Meeting.Step D cap) Outcome (.apart p h a q g b) := by
  generalize hm : (Meeting.apart p h a q g b : Meeting R H β P α₁ α₂) = m
  induction (Meeting.terminates m : Acc (fun m' m => Meeting.Step D cap m m') m)
    generalizing p h a q g b with
  | intro m _ ih =>
    subst hm
    by_cases hgo : ∃ m', Meeting.Step D cap (.apart p h a q g b) m'
    · refine .step hgo fun m' hs => ?_
      cases id hs with
      | left hd hsolo =>
        obtain ⟨hp₁, ha₁⟩ := hp.step hd hsolo (fun _ _ => trivial) ha
        exact ih _ hs hp₁ hq (hN₁ hp' ⟨_, hd, Deed.solo_silent hsolo⟩) hq' ha₁ hb rfl
      | right hd hsolo =>
        obtain ⟨hq₁, hb₁⟩ := hq.step hd hsolo (fun _ _ => trivial) hb
        exact ih _ hs hp hq₁ hp' (hN₂ hq' ⟨_, hd, Deed.solo_silent hsolo⟩) ha hb₁ rfl
      | leftDials hd hans =>
        exact Meeting.inevitably_joined (hl (hp _ _ _ hd) (hb _ hans.1) hq') hdone
      | rightDials hd hans =>
        exact Meeting.inevitably_joined (hr (hq _ _ _ hd) (ha _ hans.1) hp') hdone
    · refine .done (hrest ?_ ?_ hgo)
      · refine hp.rests a (Answers q b) hD ?_ ?_
        · rintro c k rfl d r h' hd ⟨a', hs⟩
          exact hgo ⟨_, .left hd hs⟩
        · rintro c k rfl x r h' hd hans
          exact hgo ⟨_, .leftDials hd hans⟩
      · refine hq.rests b (Answers p a) hD ?_ ?_
        · rintro c k rfl d r h' hd ⟨a', hs⟩
          exact hgo ⟨_, .right hd hs⟩
        · rintro c k rfl x r h' hd hans
          exact hgo ⟨_, .rightDials hd hans⟩

theorem Waiting.not_closed {p : Program R α} (h : Waiting D p g) : ¬ Closed p := by
  rintro ⟨a, rfl⟩
  obtain ⟨c, k, he, -⟩ := h
  cases he

/-- Where one party waits already, the other one is not refused at the place where it listens. -/
theorem Meeting.inevitably_met {Done : Net R H β α₁ α₂ → Prop}
    {Outcome : Meeting R H β P α₁ α₂ → Prop} {x : P} (hD : Prompt D)
    (hl : ∀ {p h}, J₁ x p h → Inevitably (Net.Step (linked D) cap) Done ⟨p, h, q, g, [], []⟩)
    (hdone : ∀ n, Done n → Outcome (.joined n))
    (hrest : ∀ {p h a}, Rests D A₁ E₁ p h →
      (¬ ∃ m', Meeting.Step D cap (.apart p h a q g (some x)) m') →
      Outcome (.apart p h a q g (some x)))
    (hp : Solo D (fun _ => False) A₁ (· ≠ x) J₁ E₁ p h) (hq : Waiting D q g) :
    Inevitably (Meeting.Step D cap) Outcome (.apart p h none q g (some x)) := by
  have hanswers : ∀ y, Answers q (some x) y ↔ y = x := fun y =>
    ⟨fun h => (Option.some.inj h.1).symm, fun h => ⟨congrArg some h.symm, hq.not_closed⟩⟩
  generalize hm : (Meeting.apart p h none q g (some x) : Meeting R H β P α₁ α₂) = m
  induction (Meeting.terminates m : Acc (fun m' m => Meeting.Step D cap m m') m)
    generalizing p h with
  | intro m _ ih =>
    subst hm
    by_cases hgo : ∃ m', Meeting.Step D cap (.apart p h none q g (some x)) m'
    · refine .step hgo fun m' hs => ?_
      cases id hs with
      | left hd hsolo =>
        obtain ⟨hp₁, ha₁⟩ := hp.step hd hsolo (fun y hno he => hno ((hanswers y).mpr he))
          fun _ he => by cases he
        rename_i a' _
        obtain rfl : a' = none := by
          cases a' with
          | none => rfl
          | some y => exact (ha₁ y rfl).elim
        exact ih _ hs hp₁ rfl
      | right hd hsolo =>
        obtain ⟨_, _, he, -, honly⟩ := hq
        cases he
        obtain rfl := honly hd
        exact hsolo.elim
      | leftDials hd hans =>
        obtain rfl := (hanswers _).mp hans
        exact Meeting.inevitably_joined (hl (hp _ _ _ hd)) hdone
      | rightDials hd hans =>
        obtain ⟨_, _, he, -, honly⟩ := hq
        cases he
        cases honly hd
    · refine .done (hrest (hp.rests none (Answers q (some x)) hD ?_ ?_) hgo)
      · rintro c k rfl d r h' hd ⟨a', hs⟩
        exact hgo ⟨_, .left hd hs⟩
      · rintro c k rfl y r h' hd hans
        exact hgo ⟨_, .leftDials hd hans⟩

section Swap

/-- The same two parties, the other way round. -/
def Net.swap (n : Net R H β α₁ α₂) : Net R H β α₂ α₁ where
  left := n.right
  leftHost := n.rightHost
  right := n.left
  rightHost := n.leftHost
  toRight := n.toLeft
  toLeft := n.toRight

def Meeting.swap : Meeting R H β P α₁ α₂ → Meeting R H β P α₂ α₁
  | apart p h a q g b => apart q g b p h a
  | joined n => joined n.swap

theorem Net.Step.swap {K : Kernel R H β} {n n' : Net R H β α₁ α₂} (hs : Net.Step K cap n n') :
    Net.Step K cap n.swap n'.swap := by
  cases hs with
  | left hk ha => exact .right hk ha
  | right hk ha => exact .left hk ha

theorem Meeting.Step.swap {m m' : Meeting R H β P α₁ α₂} (hs : Meeting.Step D cap m m') :
    Meeting.Step D cap m.swap m'.swap := by
  cases hs with
  | left hd hs => exact .right hd hs
  | right hd hs => exact .left hd hs
  | leftDials hd ha => exact .rightDials hd ha
  | rightDials hd ha => exact .leftDials hd ha
  | joined hs => exact .joined hs.swap

theorem Meeting.swap_swap (m : Meeting R H β P α₁ α₂) : m.swap.swap = m := by
  cases m <;> rfl

theorem Meeting.inevitably_swap {Outcome : Meeting R H β P α₁ α₂ → Prop}
    {m : Meeting R H β P α₁ α₂} (h : Inevitably (Meeting.Step D cap) Outcome m) :
    Inevitably (Meeting.Step D cap) (fun m => Outcome m.swap) m.swap := by
  induction h with
  | done h =>
    refine .done ?_
    rwa [swap_swap]
  | step hs _ ih =>
    obtain ⟨m', hs⟩ := hs
    refine .step ⟨m'.swap, hs.swap⟩ fun m'' hs' => ?_
    have := ih m''.swap (by simpa only [swap_swap] using hs'.swap)
    rwa [swap_swap] at this

theorem Net.inevitably_swap {K : Kernel R H β} {Done : Net R H β α₁ α₂ → Prop}
    {n : Net R H β α₁ α₂} (h : Inevitably (Net.Step K cap) Done n) :
    Inevitably (Net.Step K cap) (fun n => Done n.swap) n.swap := by
  induction h with
  | done h => exact .done h
  | step hs _ ih =>
    obtain ⟨n', hs⟩ := hs
    exact .step ⟨n'.swap, hs.swap⟩ fun n'' hs' => ih n''.swap hs'.swap

end Swap

/-- A program with its host and the place where it listens. -/
structure Party (R : C → Type) (H P α : Type) where
  program : Program R α
  host : H
  place : Option P

/-- A party that nobody answers makes one call. -/
inductive Party.Step (D : Switchboard R H β P) : Party R H P α → Party R H P α → Prop
  | call {c : C} {k : R c → Program R α} {d : Deed β P} {r : R c} {h h' : H} {a a' : Option P} :
      D h c d r h' → d.solo (fun _ => False) a a' → Step D ⟨.call c k, h, a⟩ ⟨k r, h', a'⟩

/-- A party that nobody answers comes to rest. -/
theorem Solo.inevitably_rests {p : Program R α} {N : Program R α → H → Prop}
    {I : H → Option P → Prop} (hD : Prompt D) (hN : Lasting D N)
    (hI : ∀ {h c d r h' a a'}, I h a → D h c d r h' → d.solo (fun _ => False) a a' → I h' a')
    (hp : Solo D L A (fun _ => True) J E p h) (hn : N p h) (hi : I h a)
    (ha : ∀ x, a = some x → L x) :
    Inevitably (Party.Step D) (fun y => Rests D A E y.program y.host ∧ N y.program y.host ∧
      I y.host y.place ∧ ∀ x, y.place = some x → L x) ⟨p, h, a⟩ := by
  induction p generalizing h a with
  | ret x => exact .done ⟨Or.inl ⟨x, rfl, hp⟩, hn, hi, ha⟩
  | call c k ih =>
    by_cases hgo : ∃ y, Party.Step D ⟨.call c k, h, a⟩ y
    · refine .step hgo fun y hs => ?_
      cases hs with
      | call hd hs =>
        obtain ⟨hp', ha'⟩ := hp.step hd hs (fun _ _ => trivial) ha
        exact ih _ hp' (hN hn ⟨_, hd, Deed.solo_silent hs⟩) (hI hi hd hs) ha'
    · refine .done ⟨hp.rests a (fun _ => False) hD ?_ ?_, hn, hi, ha⟩
      · rintro c' k' he d r h' hd ⟨a', hs⟩
        cases he
        exact hgo ⟨_, .call hd hs⟩
      · exact fun _ _ _ _ _ _ _ hno => hno

end Xfer.Process
