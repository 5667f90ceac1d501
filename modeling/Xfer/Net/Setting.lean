import Xfer.Net.Liveness
import Xfer.Net.Oblivious

/-! # Settings

A setting is a kernel, a host, a network and a peer that leave nothing open:
what is answered to a call follows from what has happened. Whatever holds of
every run holds of the one in a setting.
-/

namespace Xfer.Net

open Process Posix Code Program

/-- Surroundings with a state of their own, which answer only as the kernel may. -/
structure Setting (f : Faults) where
  State : Type
  side : State → Side
  answer : Surroundings Call.Result State
  lawful : ∀ v c, machine f (side v) c (answer v c).1 (side (answer v c).2)

namespace Setting

variable {f : Faults} {α β : Type} {s : Refs}

/-- What a session returns in a setting, its variables afterwards, and the state that it leaves. -/
def run (X : Setting f) (x : Session α) (s : Refs) (v : X.State) : (α × Refs) × X.State :=
  (x.run s).eval X.answer v

variable {X : Setting f} {v : X.State}

@[simp] theorem run_pure (a : α) : X.run (pure a) s v = ((a, s), v) := rfl

theorem run_bind {x : Session α} {g : α → Session β} :
    X.run (x >>= g) s v =
      X.run (g (X.run x s v).1.1) (X.run x s v).1.2 (X.run x s v).2 := by
  unfold run
  rw [StateT.run_bind, eval_bind]

theorem run_of_always {x : Session α} {Q : α → Refs → Side → Prop}
    (h : Always f x s (X.side v) Q) :
    Q (X.run x s v).1.1 (X.run x s v).1.2 (X.side (X.run x s v).2) :=
  Ensures.eval (G := fun _ _ => True) X.lawful h

theorem run_of_only {x : Session α} {P : Call → Prop} (hx : Only P x)
    (h : ∀ v c, P c → (X.answer v c).2 = v) : (X.run x s v).2 = v :=
  eval_of_uses (hx s) h

/-- What does not look at the error code goes the same way whatever it is. -/
theorem run_of_oblivious {x : Session α} {P : Call → Prop} {t : Refs} (hx : Oblivious P x)
    (h : SameButEc s t) :
    (X.run x s v).1.1 = (X.run x t v).1.1 ∧ (X.run x s v).2 = (X.run x t v).2 :=
  (hx.lockstep h).eval_of_uncut.imp_left And.left

/-- The kernel with one of its answers to each call. -/
noncomputable def resolved (f : Faults) : Setting f where
  State := Side
  side := id
  answer w c := (((kernel_live f).alone_total w c).choose,
    ((kernel_live f).alone_total w c).choose_spec.choose)
  lawful w c := ((kernel_live f).alone_total w c).choose_spec.choose_spec

theorem resolved_of_always {x : Session α} {w : Side} {Q : α → Refs → Side → Prop}
    (h : Always f x s w Q) :
    Q ((resolved f).run x s w).1.1 ((resolved f).run x s w).1.2 ((resolved f).run x s w).2 :=
  run_of_always (X := resolved f) h

end Setting

end Xfer.Net
