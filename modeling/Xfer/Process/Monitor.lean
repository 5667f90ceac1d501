import Xfer.Process.Record

/-! # Monitors

A monitor watches the calls of a program and their answers, and by what it has
seen it admits the next call or not. A program all of whose calls are admitted,
whatever is answered, leaves an acceptable log on every machine.
-/

namespace Xfer.Process

open Program Code

variable {C : Type} {R : C → Type} {τ α β W S : Type}

structure Monitor (R : C → Type) (S : Type) where
  admits : S → C → Prop
  next : S → (c : C) → R c → S

namespace Monitor

variable (O : Monitor R S)

/-- Anything may be answered, and nothing is kept but what the monitor knows. -/
def machine : Machine R S := fun s c r s' => s' = O.next s c r

/-- Whatever is answered, all calls are admitted. -/
def Passes (x : Code R τ α) (t : τ) (s : S) (Q : α → τ → S → Prop) : Prop :=
  wp O.machine O.admits x t s Q

/-- The call is admitted, and no answer to it changes the state. -/
def Keeps (s : S) (c : C) : Prop := O.admits s c ∧ ∀ r, O.next s c r = s

/-- The calls of the log are admitted one after the other. -/
inductive Accepts : S → List ((c : C) × R c) → S → Prop
  | nil (s : S) : Accepts s [] s
  | cons {s s' : S} {c : C} {r : R c} {log : List ((c : C) × R c)} : O.admits s c →
      Accepts (O.next s c r) log s' → Accepts s (⟨c, r⟩ :: log) s'

variable {O} {x : Code R τ α} {t : τ} {s s' : S} {Q : α → τ → S → Prop}

theorem Accepts.concat {log : List ((c : C) × R c)} {c : C} (h : O.Accepts s log s')
    (hc : O.admits s' c) (r : R c) : O.Accepts s (log ++ [⟨c, r⟩]) (O.next s' c r) := by
  induction h with
  | nil s => exact .cons hc (.nil _)
  | cons hadmits _ ih => exact .cons hadmits (ih hc)

theorem Passes.bind {f : α → Code R τ β} {Q' : β → τ → S → Prop} (h : O.Passes x t s Q)
    (hf : ∀ a t s, Q a t s → O.Passes (f a) t s Q') : O.Passes (x >>= f) t s Q' :=
  wp_bind.mpr (wp_mono h hf)

theorem passes_issue {c : C} {Q : R c → τ → S → Prop} (hc : O.admits s c)
    (hq : ∀ r, Q r t (O.next s c r)) : O.Passes (issue c : Code R τ (R c)) t s Q :=
  wp_issue.mpr ⟨hc, fun r _ hs => hs ▸ hq r⟩

theorem passes_of_only (hx : Only (O.Keeps s) x) : O.Passes x t s fun _ _ s' => s' = s := by
  have hany : wp O.machine (fun _ _ => True) x t s fun _ _ _ => True := ensures_true
  have hkeep := hx.keep (I := (· = s)) (G := O.admits) hany rfl
    (fun {_ c r _} hs hc hm => hm.trans (hs ▸ hc.2 r)) fun {_ c} hs hc => hs ▸ hc.1
  exact wp_mono hkeep fun _ _ _ hq => hq.2

/-- On every machine, the log of a program that passes is accepted. -/
theorem Passes.logged {M : Machine R W} {s₀ : S} {w : W} {log : List ((c : C) × R c)}
    (h : O.Passes x t s Q) (hlog : O.Accepts s₀ log s) :
    wp (logged M) (fun _ _ => True) x t (w, log) fun a t' y =>
      ∃ s', O.Accepts s₀ y.2 s' ∧ Q a t' s' := by
  unfold Passes wp at h
  unfold wp
  generalize x.run t = p at h ⊢
  induction p generalizing s w log with
  | ret a => exact ⟨s, hlog, h⟩
  | call c k ih =>
    obtain ⟨hc, hk⟩ := h
    refine ⟨trivial, ?_⟩
    rintro r ⟨w', log'⟩ ⟨-, rfl⟩
    exact ih r (hlog.concat hc r) (hk r _ rfl)

end Monitor

end Xfer.Process
