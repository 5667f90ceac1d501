import Xfer.Process.Program
import Mathlib.Order.Nat

/-! # Loops that need not end

A loop repeats a program until it leaves. Its runs that end are described by
invariants, that all of them end by a variant, and that one of them does not by
a set of states from which the loop can always go on.
-/

namespace Xfer.Process

open Program Code

variable {C : Type} {R : C → Type} {τ σ α W : Type}

/-- A loop with variables of type `σ`: a round goes on with `.inl` or leaves with `.inr`. -/
structure Loop (R : C → Type) (τ σ α : Type) where
  start : Code R τ (σ ⊕ α)
  body : σ → Code R τ (σ ⊕ α)

namespace Loop

variable {L : Loop R τ σ α} {M : Machine R W} {I : σ → τ → W → Prop} {Q : α → τ → W → Prop}
  {x : Code R τ (σ ⊕ α)} {t t' : τ} {w w' : W} {a : α}

/-- One round goes on as `I` says or leaves as `Q` says. -/
def Round (M : Machine R W) (x : Code R τ (σ ⊕ α)) (t : τ) (w : W) (I : σ → τ → W → Prop)
    (Q : α → τ → W → Prop) : Prop :=
  wp M (fun _ _ => True) x t w fun r t' w' => Sum.elim (fun v => I v t' w') (fun a => Q a t' w') r

theorem round_iff : Round M x t w I Q ↔
    (∀ v t' w', Exec M (x.run t) w (.inl v, t') w' → I v t' w') ∧
      ∀ a t' w', Exec M (x.run t) w (.inr a, t') w' → Q a t' w' := by
  rw [Round, wp, ensures_iff_exec]
  constructor
  · exact fun h => ⟨fun v t' w' he => h _ _ he, fun a t' w' he => h _ _ he⟩
  · rintro ⟨hI, hQ⟩ ⟨v | a, t'⟩ w' he
    · exact hI v t' w' he
    · exact hQ a t' w' he

theorem Round.mono {I' : σ → τ → W → Prop} {Q' : α → τ → W → Prop} (h : Round M x t w I Q)
    (hI : ∀ v t w, I v t w → I' v t w) (hQ : ∀ a t w, Q a t w → Q' a t w) :
    Round M x t w I' Q' := by
  refine wp_mono h fun r t w hr => ?_
  cases r with
  | inl v => exact hI v t w hr
  | inr a => exact hQ a t w hr

/-- The loop can leave with `a` when `x` is its next round. -/
inductive EndsFrom (L : Loop R τ σ α) (M : Machine R W) :
    Code R τ (σ ⊕ α) → τ → W → α → τ → W → Prop
  | leave {x : Code R τ (σ ⊕ α)} {t t' : τ} {w w' : W} {a : α} :
      Exec M (x.run t) w (.inr a, t') w' → EndsFrom L M x t w a t' w'
  | next {x : Code R τ (σ ⊕ α)} {t t' t'' : τ} {w w' w'' : W} {v : σ} {a : α} :
      Exec M (x.run t) w (.inl v, t') w' → EndsFrom L M (L.body v) t' w' a t'' w'' →
      EndsFrom L M x t w a t'' w''

/-- The loop comes to an end, whatever happens, and it ends as `Q` says, when `x` is its next
round. -/
inductive ReturnsFrom (L : Loop R τ σ α) (M : Machine R W) (Q : α → τ → W → Prop) :
    Code R τ (σ ⊕ α) → τ → W → Prop
  | intro {x : Code R τ (σ ⊕ α)} {t : τ} {w : W} :
      (∀ v t' w', Exec M (x.run t) w (.inl v, t') w' → ReturnsFrom L M Q (L.body v) t' w') →
      (∀ a t' w', Exec M (x.run t) w (.inr a, t') w' → Q a t' w') → ReturnsFrom L M Q x t w

/-- The loop can end with `a`. -/
abbrev Ends (L : Loop R τ σ α) (M : Machine R W) (t : τ) (w : W) (a : α) (t' : τ) (w' : W) :
    Prop := L.EndsFrom M L.start t w a t' w'

/-- The loop comes to an end, whatever happens, and it ends as `Q` says. -/
abbrev Returns (L : Loop R τ σ α) (M : Machine R W) (Q : α → τ → W → Prop) (t : τ) (w : W) :
    Prop := L.ReturnsFrom M Q L.start t w

theorem Ends.of_invariant (h : L.Ends M t w a t' w') (hs : Round M L.start t w I Q)
    (hb : ∀ {v t w}, I v t w → Round M (L.body v) t w I Q) : Q a t' w' := by
  unfold Ends at h
  generalize L.start = x at h hs
  induction h with
  | leave he => exact (round_iff.mp hs).2 _ _ _ he
  | next he _ ih => exact ih (hb ((round_iff.mp hs).1 _ _ _ he))

/-- A loop returns if each of its rounds makes a measure smaller. -/
theorem returns_of_variant (μ : σ → W → ℕ) (hs : Round M L.start t w I Q)
    (hb : ∀ {v t w}, I v t w →
      Round M (L.body v) t w (fun v' t' w' => I v' t' w' ∧ μ v' w' < μ v w) Q) :
    L.Returns M Q t w := by
  have hbody : ∀ n v t w, I v t w → μ v w = n → L.ReturnsFrom M Q (L.body v) t w := by
    intro n
    induction n using Nat.strong_induction_on with
    | _ n ih =>
      intro v t w hI hn
      obtain ⟨hgo, hleave⟩ := round_iff.mp (hb hI)
      refine .intro (fun v' t' w' he => ?_) hleave
      obtain ⟨hI', hlt⟩ := hgo _ _ _ he
      exact ih _ (hn ▸ hlt) _ _ _ hI' rfl
  obtain ⟨hgo, hleave⟩ := round_iff.mp hs
  exact .intro (fun v t w he => hbody _ v t w (hgo _ _ _ he) rfl) hleave

/-- A loop that can go on from every state of a kind to another one of that kind does not always
return. -/
theorem not_returns_of_trap {T : σ → τ → W → Prop} {v : σ}
    (hs : Exec M (L.start.run t) w (.inl v, t') w') (hT : T v t' w')
    (hb : ∀ {v t w}, T v t w → ∃ v' t' w', Exec M ((L.body v).run t) w (.inl v', t') w' ∧
      T v' t' w') : ¬ L.Returns M Q t w := by
  have hbody : ∀ x t w, L.ReturnsFrom M Q x t w → ∀ v t' w',
      Exec M (x.run t) w (.inl v, t') w' → ¬ T v t' w' := by
    intro x t w h
    induction h with
    | intro _ _ ih =>
      intro v t' w' he hT
      obtain ⟨v', t'', w'', he', hT'⟩ := hb hT
      exact ih v t' w' he v' t'' w'' he' hT'
  exact fun h => hbody _ _ _ h v t' w' hs hT

end Loop

end Xfer.Process
