import Xfer.Process.Program

/-! # What a program returns, whatever is answered

Some of what a program returns, and of what it leaves in its local variables,
has nothing to do with the machine that it runs on: it holds at every leaf of
the tree.
-/

namespace Xfer.Process

variable {C : Type} {R : C → Type} {α β σ W : Type}

/-- Whatever is answered, what is returned is such. -/
def Program.All (Q : α → Prop) : Program R α → Prop
  | .ret a => Q a
  | .call _ k => ∀ r, (k r).All Q

namespace Program

variable {p : Program R α} {Q Q' : α → Prop}

theorem All.bind {f : α → Program R β} {Q' : β → Prop} (hp : p.All Q)
    (hf : ∀ a, Q a → (f a).All Q') : (p >>= f).All Q' := by
  induction p with
  | ret a => exact hf a hp
  | call c k ih => exact fun r => ih r (hp r)

theorem All.mono (hp : p.All Q) (hQ : ∀ a, Q a → Q' a) : p.All Q' := by
  induction p with
  | ret a => exact hQ a hp
  | call c k ih => exact fun r => ih r (hp r)

theorem all_true : p.All fun _ => True := by
  induction p with
  | ret a => trivial
  | call c k ih => exact fun r => ih r

theorem All.ensures {M : Machine R W} {w : W} (hp : p.All Q) :
    Ensures M (fun _ _ => True) p w fun a _ => Q a := by
  induction p generalizing w with
  | ret a => exact hp
  | call c k ih => exact ⟨trivial, fun r _ _ => ih r (hp r)⟩

theorem Uses.bind_of_all {P : C → Prop} {f : α → Program R β} (hp : p.Uses P) (ha : p.All Q)
    (hf : ∀ a, Q a → (f a).Uses P) : (p >>= f).Uses P := by
  induction p with
  | ret a => exact hf a ha
  | call c k ih => exact ⟨hp.1, fun r => ih r (hp.2 r) (ha r)⟩

end Program

namespace Code

/-- Whatever is answered, what it returns and what its local variables were and become are so
related. -/
def Gives (x : Code R σ α) (Q : σ → α → σ → Prop) : Prop :=
  ∀ s, (x.run s).All fun r => Q s r.1 r.2

variable {x : Code R σ α} {Q Q' : σ → α → σ → Prop} {s : σ}

theorem gives_pure {a : α} (h : ∀ s, Q s a s) : Gives (pure a : Code R σ α) Q := h

theorem gives_issue {c : C} {Q : σ → R c → σ → Prop} (h : ∀ s r, Q s r s) :
    Gives (issue c : Code R σ (R c)) Q := h

theorem gives_modify {g : σ → σ} {Q : σ → PUnit → σ → Prop} (h : ∀ s, Q s ⟨⟩ (g s)) :
    Gives (modify g : Code R σ PUnit) Q := h

theorem gives_true : Gives x fun _ _ _ => True := fun _ => Program.all_true

theorem Gives.bind {f : α → Code R σ β} {P : α → σ → β → σ → Prop} {K : σ → β → σ → Prop}
    (hx : Gives x Q) (hf : ∀ a, Gives (f a) (P a))
    (h : ∀ s a t b s', Q s a t → P a t b s' → K s b s') : Gives (x >>= f) K := by
  intro s
  rw [StateT.run_bind]
  apply (hx s).bind
  rintro ⟨a, t⟩ ha
  apply (hf a t).mono
  rintro ⟨b, s'⟩ hb
  exact h s a t b s' ha hb

theorem Gives.mono (hx : Gives x Q) (hQ : ∀ s a s', Q s a s' → Q' s a s') : Gives x Q' :=
  fun s => (hx s).mono fun r => hQ s r.1 r.2

theorem Gives.wp {M : Machine R W} {w : W} (hx : Gives x Q) :
    wp M (fun _ _ => True) x s w fun a s' _ => Q s a s' := (hx s).ensures

theorem Gives.only {P : C → Prop} {K : α → Prop} {f : α → Code R σ β} (hg : Gives x fun _ a _ => K a)
    (hx : Only P x) (hf : ∀ a, K a → Only P (f a)) : Only P (x >>= f) := by
  intro s
  rw [StateT.run_bind]
  exact (hx s).bind_of_all (hg s) fun r hr => hf r.1 hr r.2

end Code

end Xfer.Process
