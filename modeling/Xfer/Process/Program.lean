import Mathlib.Logic.Basic

/-! # Programs over a signature of calls

A program is a well-founded tree: it returns a value, or issues a call and goes
on with whatever result comes back. A machine says which results a call may
have. `Exec` is the resulting big-step semantics and `Ensures` its weakest
precondition, with a guard that every call issued on the way has to meet.
-/

namespace Xfer.Process

variable {C : Type} {R : C → Type} {α β W σ : Type}

/-- A program that issues calls `c : C` with results in `R c` and returns an `α`. -/
inductive Program (R : C → Type) (α : Type) where
  | ret (a : α)
  | call (c : C) (k : R c → Program R α)

/-- The results a call may have in a state, and the states it may lead to. -/
abbrev Machine (R : C → Type) (W : Type) := W → (c : C) → R c → W → Prop

namespace Program

def bind : Program R α → (α → Program R β) → Program R β
  | ret a, f => f a
  | call c k, f => call c fun r => (k r).bind f

instance : Monad (Program R) where
  pure := ret
  bind := bind

@[simp] theorem pure_eq (a : α) : (pure a : Program R α) = ret a := rfl

@[simp] theorem ret_bind (a : α) (f : α → Program R β) : (ret a >>= f) = f a := rfl

@[simp] theorem call_bind (c : C) (k : R c → Program R α) (f : α → Program R β) :
    (call c k >>= f) = call c fun r => k r >>= f := rfl

instance : LawfulMonad (Program R) := LawfulMonad.mk' _
  (by
    intro α p
    change p.bind ret = p
    induction p with
    | ret a => rfl
    | call c k ih => exact congrArg (call c) (funext ih))
  (fun _ _ => rfl)
  (by
    intro α β γ p f g
    change (p.bind f).bind g = p.bind fun a => (f a).bind g
    induction p with
    | ret a => rfl
    | call c k ih => exact congrArg (call c) (funext ih))

/-- Every call in the tree, reachable or not, meets the predicate. -/
def Uses (P : C → Prop) : Program R α → Prop
  | ret _ => True
  | call c k => P c ∧ ∀ r, (k r).Uses P

theorem Uses.bind {P : C → Prop} {p : Program R α} {f : α → Program R β} (hp : p.Uses P)
    (hf : ∀ a, (f a).Uses P) : (p >>= f).Uses P := by
  induction p with
  | ret a => exact hf a
  | call c k ih => exact ⟨hp.1, fun r => ih r (hp.2 r)⟩

theorem Uses.mono {P P' : C → Prop} {p : Program R α} (h : p.Uses P) (hP : ∀ c, P c → P' c) :
    p.Uses P' := by
  induction p with
  | ret a => trivial
  | call c k ih => exact ⟨hP c h.1, fun r => ih r (h.2 r)⟩

/-- The program may return `a` in state `w'` when started in state `w`. -/
inductive Exec (M : Machine R W) : Program R α → W → α → W → Prop
  | ret (a : α) (w : W) : Exec M (.ret a) w a w
  | call {c : C} {k : R c → Program R α} {w w' w'' : W} {r : R c} {a : α} :
      M w c r w' → Exec M (k r) w' a w'' → Exec M (.call c k) w a w''

/-- Every call is issued in a state that meets the guard, and every result meets `Q`. -/
def Ensures (M : Machine R W) (G : W → C → Prop) :
    Program R α → W → (α → W → Prop) → Prop
  | ret a, w, Q => Q a w
  | call c k, w, Q => G w c ∧ ∀ r w', M w c r w' → Ensures M G (k r) w' Q

variable {M : Machine R W} {G G' : W → C → Prop} {p : Program R α} {w w' : W}
  {Q Q' : α → W → Prop}

theorem Ensures.mono (h : Ensures M G p w Q) (hG : ∀ w c, G w c → G' w c)
    (hQ : ∀ a w, Q a w → Q' a w) : Ensures M G' p w Q' := by
  induction p generalizing w with
  | ret a => exact hQ _ _ h
  | call c k ih => exact ⟨hG _ _ h.1, fun r w' hm => ih r (h.2 r w' hm)⟩

theorem ensures_true : Ensures M (fun _ _ => True) p w fun _ _ => True := by
  induction p generalizing w with
  | ret a => trivial
  | call c k ih => exact ⟨trivial, fun r w' _ => ih r⟩

theorem ensures_bind {f : α → Program R β} {Q : β → W → Prop} :
    Ensures M G (p >>= f) w Q ↔ Ensures M G p w fun a w' => Ensures M G (f a) w' Q := by
  induction p generalizing w with
  | ret a => exact Iff.rfl
  | call c k ih =>
    simp only [call_bind, Ensures, ih]

/-- An invariant of the calls that a program uses holds in the end, and it may be what makes them
meet the guard. -/
theorem Ensures.keep {P : C → Prop} {I : W → Prop}
    (h : Ensures M (fun _ _ => True) p w Q) (hp : p.Uses P) (hi : I w)
    (hI : ∀ {w c r w'}, I w → P c → M w c r w' → I w') (hG : ∀ {w c}, I w → P c → G w c) :
    Ensures M G p w fun a w' => Q a w' ∧ I w' := by
  induction p generalizing w with
  | ret a => exact ⟨h, hi⟩
  | call c k ih => exact ⟨hG hi hp.1, fun r w' hm => ih r (h.2 r w' hm) (hp.2 r) (hI hi hp.1 hm)⟩

theorem Ensures.of_exec {a : α} (h : Ensures M G p w Q) (he : Exec M p w a w') : Q a w' := by
  induction he with
  | ret => exact h
  | call hm _ ih => exact ih (h.2 _ _ hm)

theorem ensures_iff_exec :
    Ensures M (fun _ _ => True) p w Q ↔ ∀ a w', Exec M p w a w' → Q a w' := by
  constructor
  · exact fun h a w' he => h.of_exec he
  · intro h
    induction p generalizing w with
    | ret a => exact h a w (.ret a w)
    | call c k ih => exact ⟨trivial, fun r w' hm => ih r fun a w'' he => h a w'' (.call hm he)⟩

theorem exists_exec (hM : ∀ w c, ∃ r w', M w c r w') (p : Program R α) (w : W) :
    ∃ a w', Exec M p w a w' := by
  induction p generalizing w with
  | ret a => exact ⟨a, w, .ret a w⟩
  | call c k ih =>
    obtain ⟨r, w', hm⟩ := hM w c
    obtain ⟨a, w'', he⟩ := ih r w'
    exact ⟨a, w'', .call hm he⟩

theorem Exec.mono {M' : Machine R W} {a : α} (h : Exec M p w a w')
    (hM : ∀ {w c r w'}, M w c r w' → M' w c r w') : Exec M' p w a w' := by
  induction h with
  | ret a w => exact .ret a w
  | call hm _ ih => exact .call (hM hm) ih

/-- An invariant of the machine holds in the end. -/
theorem Ensures.invariant {I : W → Prop} (h : Ensures M G p w Q) (hi : I w)
    (hI : ∀ {w c r w'}, I w → M w c r w' → I w') : Ensures M G p w fun a w' => Q a w' ∧ I w' := by
  induction p generalizing w with
  | ret a => exact ⟨h, hi⟩
  | call c k ih => exact ⟨h.1, fun r w' hm => ih r (h.2 r w' hm) (hI hi hm)⟩

theorem Ensures.and {G' : W → C → Prop} (h : Ensures M G p w Q) (h' : Ensures M G' p w Q') :
    Ensures M G p w fun a w' => Q a w' ∧ Q' a w' := by
  induction p generalizing w with
  | ret a => exact ⟨h, h'⟩
  | call c k ih => exact ⟨h.1, fun r w' hm => ih r (h.2 r w' hm) (h'.2 r w' hm)⟩

theorem Ensures.le {M' : Machine R W} (h : Ensures M G p w Q)
    (hM : ∀ {w c r w'}, M' w c r w' → M w c r w') : Ensures M' G p w Q := by
  induction p generalizing w with
  | ret a => exact h
  | call c k ih => exact ⟨h.1, fun r w' hm => ih r (h.2 r w' (hM hm))⟩

end Program

/-- A program with local variables of type `σ`. -/
abbrev Code (R : C → Type) (σ : Type) := StateT σ (Program R)

namespace Code

open Program

def issue (c : C) : Code R σ (R c) := fun s => .call c fun r => .ret (r, s)

variable (M : Machine R W) (G : W → C → Prop)

/-- The weakest precondition of a program with local variables. -/
def wp (x : Code R σ α) (s : σ) (w : W) (Q : α → σ → W → Prop) : Prop :=
  Ensures M G (x.run s) w fun r w' => Q r.1 r.2 w'

variable {M G} {x : Code R σ α} {s : σ} {w : W} {Q Q' : α → σ → W → Prop}

@[simp] theorem wp_pure (a : α) : wp M G (pure a : Code R σ α) s w Q ↔ Q a s w := Iff.rfl

@[simp] theorem wp_bind {f : α → Code R σ β} {Q : β → σ → W → Prop} :
    wp M G (x >>= f) s w Q ↔ wp M G x s w fun a s' w' => wp M G (f a) s' w' Q := by
  unfold wp
  rw [StateT.run_bind, ensures_bind]

@[simp] theorem wp_map {f : α → β} {Q : β → σ → W → Prop} :
    wp M G (f <$> x) s w Q ↔ wp M G x s w fun a s' w' => Q (f a) s' w' := by
  change wp M G (x >>= fun a => pure (f a)) s w Q ↔ _
  simp only [wp_bind, wp_pure]

@[simp] theorem wp_get {Q : σ → σ → W → Prop} : wp M G (get : Code R σ σ) s w Q ↔ Q s s w :=
  Iff.rfl

@[simp] theorem wp_set {s' : σ} {Q : PUnit → σ → W → Prop} :
    wp M G (set s' : Code R σ PUnit) s w Q ↔ Q ⟨⟩ s' w := Iff.rfl

@[simp] theorem wp_modify {f : σ → σ} {Q : PUnit → σ → W → Prop} :
    wp M G (modify f : Code R σ PUnit) s w Q ↔ Q ⟨⟩ (f s) w := Iff.rfl

theorem wp_issue {c : C} {Q : R c → σ → W → Prop} :
    wp M G (issue c : Code R σ (R c)) s w Q ↔ G w c ∧ ∀ r w', M w c r w' → Q r s w' := Iff.rfl

theorem wp_mono (h : wp M G x s w Q) (hQ : ∀ a s w, Q a s w → Q' a s w) : wp M G x s w Q' :=
  h.mono (fun _ _ hg => hg) fun _ _ hq => hQ _ _ _ hq

/-- Whatever its local variables hold, the program issues only such calls. -/
def Only (P : C → Prop) (x : Code R σ α) : Prop := ∀ s, (x.run s).Uses P

section Only

variable {P P' : C → Prop} {f : α → Code R σ β}

theorem Only.mono (h : Only P x) (hP : ∀ c, P c → P' c) : Only P' x := fun s => (h s).mono hP

theorem only_pure (a : α) : Only P (pure a : Code R σ α) := fun _ => trivial

theorem only_modify (g : σ → σ) : Only P (modify g : Code R σ PUnit) := fun _ => trivial

theorem only_get : Only P (get : Code R σ σ) := fun _ => trivial

theorem only_issue {c : C} (h : P c) : Only P (issue c : Code R σ (R c)) := fun _ =>
  ⟨h, fun _ => trivial⟩

theorem Only.bind (hx : Only P x) (hf : ∀ a, Only P (f a)) : Only P (x >>= f) := by
  intro s
  rw [StateT.run_bind]
  exact (hx s).bind fun r => hf r.1 r.2

theorem Only.map {g : α → β} (hx : Only P x) : Only P (g <$> x) := hx.bind fun a => only_pure (g a)

theorem Only.keep {I : W → Prop} (hx : Only P x) (h : wp M (fun _ _ => True) x s w Q) (hi : I w)
    (hI : ∀ {w c r w'}, I w → P c → M w c r w' → I w') (hG : ∀ {w c}, I w → P c → G w c) :
    wp M G x s w fun a s' w' => Q a s' w' ∧ I w' :=
  Ensures.keep h (hx s) hi hI hG

/-- Calls that keep an invariant under which they meet the guard need no guard in the
specification. -/
theorem Only.guard {I : W → Prop} (hx : Only P x) (h : wp M (fun _ _ => True) x s w Q) (hi : I w)
    (hI : ∀ {w c r w'}, I w → P c → M w c r w' → I w') (hG : ∀ {w c}, I w → P c → G w c) :
    wp M G x s w Q :=
  wp_mono (hx.keep h hi hI hG) fun _ _ _ hq => hq.1

end Only

end Code

end Xfer.Process
