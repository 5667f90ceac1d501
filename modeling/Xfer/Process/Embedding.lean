import Xfer.Process.Program

/-! # Programs over a larger signature

The calls of a program can be taken for some of the calls of a larger signature.
What the program ensures on its own machine it ensures on the larger one, as far
as that does the same with its calls.
-/

namespace Xfer.Process

variable {C₁ C₂ : Type} {R₁ : C₁ → Type} {R₂ : C₂ → Type} {α β W₁ W₂ σ₁ σ₂ : Type}

namespace Program

variable (i : C₁ → C₂) (out : ∀ c, R₂ (i c) → R₁ c)

/-- The same program where its calls are some of many. -/
def embed : Program R₁ α → Program R₂ α
  | ret a => ret a
  | call c k => call (i c) fun r => embed (k (out c r))

variable {i out} {p : Program R₁ α}

variable {M₁ : Machine R₁ W₁} {G₁ : W₁ → C₁ → Prop} {M₂ : Machine R₂ W₂} {G₂ : W₂ → C₂ → Prop}
  {w₁ : W₁} {w₂ : W₂} {Q : α → W₁ → Prop}

/-- States of the two machines correspond, and calls that meet the guard keep them so. -/
structure Corresponds (i : C₁ → C₂) (out : ∀ c, R₂ (i c) → R₁ c) (M₁ : Machine R₁ W₁)
    (G₁ : W₁ → C₁ → Prop) (M₂ : Machine R₂ W₂) (G₂ : W₂ → C₂ → Prop) (S : W₂ → W₁ → Prop) :
    Prop where
  guard : ∀ {w₂ w₁ c}, S w₂ w₁ → G₁ w₁ c → G₂ w₂ (i c)
  step : ∀ {w₂ w₁ c r w₂'}, S w₂ w₁ → G₁ w₁ c → M₂ w₂ (i c) r w₂' →
    ∃ w₁', M₁ w₁ c (out c r) w₁' ∧ S w₂' w₁'

variable {S : W₂ → W₁ → Prop}

theorem Ensures.embed (hS : Corresponds i out M₁ G₁ M₂ G₂ S) (h : Ensures M₁ G₁ p w₁ Q)
    (hw : S w₂ w₁) :
    Ensures M₂ G₂ (embed i out p) w₂ fun a w₂' => ∃ w₁', S w₂' w₁' ∧ Q a w₁' := by
  induction p generalizing w₁ w₂ with
  | ret a => exact ⟨w₁, hw, h⟩
  | call c k ih =>
    refine ⟨hS.guard hw h.1, fun r w₂' hm => ?_⟩
    obtain ⟨w₁', hm₁, hw'⟩ := hS.step hw h.1 hm
    exact ih (out c r) (h.2 _ w₁' hm₁) hw'

theorem embed_id : (Program.embed id (fun _ r => r) p : Program R₁ α) = p := by
  induction p with
  | ret a => rfl
  | call c k ih => exact congrArg (call c) (funext ih)

/-- What a program ensures on one machine it ensures on another one that does the same with it. -/
theorem Ensures.simulate {M₂ : Machine R₁ W₂} {G₂ : W₂ → C₁ → Prop}
    (hS : Corresponds id (fun _ r => r) M₁ G₁ M₂ G₂ S) (h : Ensures M₁ G₁ p w₁ Q) (hw : S w₂ w₁) :
    Ensures M₂ G₂ p w₂ fun a w₂' => ∃ w₁', S w₂' w₁' ∧ Q a w₁' := by
  have := Ensures.embed hS h hw
  rwa [embed_id] at this

theorem Exec.embed (hS : Corresponds i out M₁ (fun _ _ => True) M₂ G₂ S) {a : α} {w₂' : W₂}
    (he : Exec M₂ (Program.embed i out p) w₂ a w₂') (hw : S w₂ w₁) :
    ∃ w₁', Exec M₁ p w₁ a w₁' ∧ S w₂' w₁' := by
  induction p generalizing w₁ w₂ with
  | ret a =>
    cases he with
    | ret => exact ⟨w₁, .ret _ _, hw⟩
  | call c k ih =>
    cases he with
    | call hm he =>
      obtain ⟨w₁', hm₁, hw'⟩ := hS.step hw trivial hm
      obtain ⟨w₁'', he₁, hw''⟩ := ih _ he hw'
      exact ⟨w₁'', .call hm₁ he₁, hw''⟩

theorem Uses.embed {P : C₂ → Prop} (h : p.Uses fun c => P (i c)) : (Program.embed i out p).Uses P := by
  induction p with
  | ret a => trivial
  | call c k ih => exact ⟨h.1, fun r => ih (out c r) (h.2 (out c r))⟩

end Program

namespace Code

open Program

variable (i : C₁ → C₂) (out : ∀ c, R₂ (i c) → R₁ c) (get : σ₂ → σ₁) (put : σ₂ → σ₁ → σ₂)

/-- The same program where its calls are some of many, and its variables part of others. -/
def embed (x : Code R₁ σ₁ α) : Code R₂ σ₂ α := fun s =>
  Program.embed i out (x.run (get s)) >>= fun r => .ret (r.1, put s r.2)

variable {i out get put} {x : Code R₁ σ₁ α} {s : σ₂}
  {M₁ : Machine R₁ W₁} {G₁ : W₁ → C₁ → Prop} {M₂ : Machine R₂ W₂} {G₂ : W₂ → C₂ → Prop}
  {w₁ : W₁} {w₂ : W₂} {S : W₂ → W₁ → Prop} {Q : α → σ₁ → W₁ → Prop}

theorem wp_embed (hS : Corresponds i out M₁ G₁ M₂ G₂ S) (h : wp M₁ G₁ x (get s) w₁ Q)
    (hw : S w₂ w₁) :
    wp M₂ G₂ (embed i out get put x) s w₂ fun a s' w₂' =>
      ∃ t w₁', s' = put s t ∧ S w₂' w₁' ∧ Q a t w₁' := by
  refine ensures_bind.mpr ((Ensures.embed hS h hw).mono (fun _ _ hg => hg) ?_)
  rintro ⟨a, t⟩ w₂' ⟨w₁', hw', hq⟩
  exact ⟨t, w₁', rfl, hw', hq⟩

end Code

end Xfer.Process
