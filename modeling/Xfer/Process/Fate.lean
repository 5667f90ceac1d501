import Xfer.Process.Program

/-! # Programs that can be killed

A call may be one in which the program is killed, so that it never returns. What
the program ensures of its results, and wherever it can be killed, holds however
its run ends.
-/

namespace Xfer.Process.Program

variable {C : Type} {R : C → Type} {α W D : Type}

/-- How a run of the program ends: with a result, or killed in a call, and by what. -/
inductive Fate (M : Machine R W) (K : W → C → D → Prop) : Program R α → W → α ⊕ D → W → Prop
  | ret (a : α) (w : W) : Fate M K (.ret a) w (.inl a) w
  | call {c : C} {k : R c → Program R α} {w w' w'' : W} {r : R c} {x : α ⊕ D} :
      M w c r w' → Fate M K (k r) w' x w'' → Fate M K (.call c k) w x w''
  | killed {c : C} {k : R c → Program R α} {w : W} {d : D} :
      K w c d → Fate M K (.call c k) w (.inr d) w

variable {M : Machine R W} {K : W → C → D → Prop} {p : Program R α} {w w' : W} {x : α ⊕ D}

theorem Ensures.of_fate {Q : α ⊕ D → W → Prop}
    (h : Ensures M (fun w c => ∀ d, K w c d → Q (.inr d) w) p w fun a => Q (.inl a))
    (hf : Fate M K p w x w') : Q x w' := by
  induction hf with
  | ret => exact h
  | call hm _ ih => exact ih (h.2 _ _ hm)
  | killed hk => exact h.1 _ hk

/-- Of its results, and of the calls in which it can be killed, a program ensures that its run has come
to them. -/
theorem ensures_fate : Ensures M (fun w' c => ∀ d, K w' c d → Fate M K p w (.inr d) w') p w
    fun a w' => Fate M K p w (.inl a) w' := by
  induction p generalizing w with
  | ret a => exact .ret a w
  | call c k ih =>
    refine ⟨fun d hk => .killed hk, fun r w' hm => (ih r).mono (fun _ _ hg d hk => ?_) fun _ _ hf => ?_⟩
    · exact .call hm (hg d hk)
    · exact .call hm hf

end Xfer.Process.Program
