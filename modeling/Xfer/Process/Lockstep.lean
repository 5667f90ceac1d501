import Xfer.Process.Record

/-! # Two programs in the same surroundings

Surroundings answer every call in one way, which may depend on everything that
has happened before. Two programs are in lockstep if they issue the same calls
and go on in lockstep whatever is answered, unless one of them stops early, with
a call that the other one issues as well.
-/

namespace Xfer.Process

open Program

variable {C : Type} {R : C → Type} {α β α' β' V W : Type}

/-- Surroundings in some state: what they answer to a call, and their state afterwards. -/
abbrev Surroundings (R : C → Type) (V : Type) := V → (c : C) → R c × V

/-- The surroundings with their answers written down. -/
def Surroundings.logged (E : Surroundings R V) : Surroundings R (V × List ((c : C) × R c)) :=
  fun v c => ((E v.1 c).1, (E v.1 c).2, v.2 ++ [⟨c, (E v.1 c).1⟩])

namespace Program

/-- What a program returns in these surroundings, and the state in which it leaves them. -/
def eval (E : Surroundings R V) : Program R α → V → α × V
  | ret a, v => (a, v)
  | call c k, v => (k (E v c).1).eval E (E v c).2

variable {E : Surroundings R V} {v : V}

theorem eval_bind (p : Program R α) (f : α → Program R β) :
    (p >>= f).eval E v = (f (p.eval E v).1).eval E (p.eval E v).2 := by
  induction p generalizing v with
  | ret a => rfl
  | call c k ih => exact ih _

theorem Ensures.eval {M : Machine R W} {G : W → C → Prop} {π : V → W} {p : Program R α}
    {Q : α → W → Prop} (hE : ∀ v c, M (π v) c (E v c).1 (π (E v c).2))
    (h : Ensures M G p (π v) Q) : Q (p.eval E v).1 (π (p.eval E v).2) := by
  induction p generalizing v with
  | ret a => exact h
  | call c k ih => exact ih _ (h.2 _ _ (hE v c))

theorem eval_of_uses {P : C → Prop} {p : Program R α} (hp : p.Uses P)
    (h : ∀ v c, P c → (E v c).2 = v) : (p.eval E v).2 = v := by
  induction p generalizing v with
  | ret a => rfl
  | call c k ih => exact (ih _ (hp.2 _)).trans (h v c hp.1)

theorem eval_logged (p : Program R α) (log : List ((c : C) × R c)) :
    ∃ more, p.eval E.logged (v, log) = ((p.eval E v).1, (p.eval E v).2, log ++ more) := by
  induction p generalizing v log with
  | ret a => exact ⟨[], by rw [List.append_nil]; rfl⟩
  | call c k ih =>
    obtain ⟨more, h⟩ := ih (E v c).1 (v := (E v c).2) (log ++ [⟨c, (E v c).1⟩])
    refine ⟨⟨c, (E v c).1⟩ :: more, h.trans ?_⟩
    rw [List.append_assoc]
    rfl

/-- Two programs that issue the same calls and end in related results, except that the left one may
stop after one of the calls `last`. -/
inductive Lockstep (last : C → Prop) (stop : α → Prop) (same : α → β → Prop) :
    Program R α → Program R β → Prop
  | ret {a : α} {b : β} : same a b → Lockstep last stop same (.ret a) (.ret b)
  | call {c : C} {k : R c → Program R α} {l : R c → Program R β} :
      (∀ r, Lockstep last stop same (k r) (l r)) → Lockstep last stop same (.call c k) (.call c l)
  | cut {c : C} {k : R c → Program R α} {l : R c → Program R β} : last c →
      (∀ r, ∃ a, k r = .ret a ∧ stop a) → Lockstep last stop same (.call c k) (.call c l)

variable {last : C → Prop} {stop : α → Prop} {stop' : α' → Prop} {same : α → β → Prop}
  {same' : α' → β' → Prop} {p : Program R α} {q : Program R β}

theorem Lockstep.refl {same : α → α → Prop} (hs : ∀ a, same a a) (p : Program R α) :
    Lockstep last stop same p p := by
  induction p with
  | ret a => exact .ret (hs a)
  | call c k ih => exact .call ih

theorem Lockstep.bind {f : α → Program R α'} {g : β → Program R β'}
    (h : Lockstep last stop same p q)
    (hfg : ∀ a b, same a b → Lockstep last stop' same' (f a) (g b))
    (hstop : ∀ a, stop a → ∃ a', f a = .ret a' ∧ stop' a') :
    Lockstep last stop' same' (p >>= f) (q >>= g) := by
  induction h with
  | ret hs => exact hfg _ _ hs
  | call _ ih => exact .call ih
  | cut hl hk =>
    refine .cut hl fun r => ?_
    obtain ⟨a, ha, hs⟩ := hk r
    rw [ha]
    exact hstop a hs

theorem Lockstep.eval_of_uncut (h : Lockstep (fun _ => False) stop same p q) :
    same (p.eval E v).1 (q.eval E v).1 ∧ (p.eval E v).2 = (q.eval E v).2 := by
  induction h generalizing v with
  | ret hs => exact ⟨hs, rfl⟩
  | call _ ih => exact ih _
  | cut hl => exact hl.elim

/-- Where one of two programs does not stop early, they end together; otherwise what it has done is
what the other one does first. -/
theorem Lockstep.eval (h : Lockstep last stop same p q) (log : List ((c : C) × R c)) :
    (same (p.eval E.logged (v, log)).1 (q.eval E.logged (v, log)).1 ∧
        (p.eval E.logged (v, log)).2 = (q.eval E.logged (v, log)).2) ∨
      stop (p.eval E.logged (v, log)).1 ∧
        (∃ before c r, last c ∧ (p.eval E.logged (v, log)).2.2 = before ++ [⟨c, r⟩]) ∧
        (p.eval E.logged (v, log)).2.2 <+: (q.eval E.logged (v, log)).2.2 := by
  induction h generalizing v log with
  | ret hs => exact Or.inl ⟨hs, rfl⟩
  | call _ ih => exact ih _ _
  | @cut c k l hl hk =>
    obtain ⟨a, ha, hs⟩ := hk (E v c).1
    obtain ⟨more, hq⟩ := eval_logged (E := E) (v := (E v c).2) (l (E v c).1)
      (log ++ [⟨c, (E v c).1⟩])
    right
    change stop ((k (E v c).1).eval E.logged _).1 ∧
      (∃ before c' r, last c' ∧ ((k (E v c).1).eval E.logged _).2.2 = before ++ [⟨c', r⟩]) ∧
      ((k (E v c).1).eval E.logged _).2.2 <+: ((l (E v c).1).eval E.logged _).2.2
    rw [ha]
    refine ⟨hs, ⟨log, c, (E v c).1, hl, rfl⟩, ?_⟩
    exact ⟨more, (congrArg (fun r => r.2.2) hq).symm⟩

end Program

end Xfer.Process
