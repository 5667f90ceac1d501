import Xfer.Process.Program
import Mathlib.Order.Nat

/-! # Machines that keep a record

A run is the same whether or not something is written down about it: the
answers, the steps, or what is left of a ration. A program whose calls cost no
more than others have earned before them does so on every machine.
-/

namespace Xfer.Process

open Program Code

variable {C : Type} {R : C → Type} {τ α W : Type}

/-- The machine with its answers written down. -/
def logged (M : Machine R W) : Machine R (W × List ((c : C) × R c)) := fun w c r w' =>
  M w.1 c r w'.1 ∧ w'.2 = w.2 ++ [⟨c, r⟩]

theorem wp_logged_mem {M : Machine R W} {x : Code R τ α} {t : τ} {y : W × List ((c : C) × R c)}
    {e : (c : C) × R c} (he : e ∈ y.2) :
    wp (logged M) (fun _ _ => True) x t y fun _ _ y' => e ∈ y'.2 := by
  have hinv := ensures_true.invariant (M := logged M) (p := x.run t) (I := fun y => e ∈ y.2) he
    fun hy hm => hm.2 ▸ List.mem_append_left _ hy
  exact hinv.mono (fun _ _ hg => hg) fun _ _ hq => hq.2

theorem wp_logged_issue {M : Machine R W} {c : C} {f : R c → Code R τ α} {t : τ}
    {y : W × List ((c : C) × R c)} :
    wp (logged M) (fun _ _ => True) (issue c >>= f) t y fun _ _ y' => ∃ r, ⟨c, r⟩ ∈ y'.2 := by
  rw [wp_bind, wp_issue]
  refine ⟨trivial, fun r y' hm => ?_⟩
  have hmem : ⟨c, r⟩ ∈ y'.2 := hm.2 ▸ List.mem_append_right _ (List.mem_singleton_self _)
  exact wp_mono (wp_logged_mem hmem) fun _ _ _ h => ⟨r, h⟩

theorem Code.Only.logged {M : Machine R W} {P : C → Prop} {x : Code R τ α} {t : τ}
    {y : W × List ((c : C) × R c)} (hx : Only P x) (hy : ∀ e ∈ y.2, P e.1) :
    wp (Process.logged M) (fun _ _ => True) x t y fun _ _ y' => ∀ e ∈ y'.2, P e.1 := by
  have hany : wp (Process.logged M) (fun _ _ => True) x t y fun _ _ _ => True := ensures_true
  refine wp_mono (hx.keep hany hy ?_ fun _ _ => trivial) fun _ _ _ hq => hq.2
  rintro ⟨w, log⟩ c r ⟨w', log'⟩ hlog hc ⟨-, rfl⟩
  exact List.forall_mem_append.mpr ⟨hlog, List.forall_mem_singleton.mpr hc⟩

/-- The machine on which answers have a price, with only so much to spend. -/
def rationed (cost : (c : C) → R c → ℕ) (M : Machine R W) : Machine R (W × ℕ) := fun w c r w' =>
  M w.1 c r w'.1 ∧ w.2 = cost c r + w'.2

theorem wp_rationed {cost : (c : C) → R c → ℕ} {M : Machine R W} {x : Code R τ α} {t : τ}
    {w : W × ℕ} {Q : α → τ → W → Prop} (h : wp M (fun _ _ => True) x t w.1 Q) :
    wp (rationed cost M) (fun _ _ => True) x t w fun a t' w' => Q a t' w'.1 ∧ w'.2 ≤ w.2 := by
  unfold wp at h ⊢
  generalize x.run t = p at h ⊢
  induction p generalizing w with
  | ret r => exact ⟨h, le_rfl⟩
  | call c k ih =>
    refine ⟨trivial, fun r w' ⟨hm, hw⟩ => ?_⟩
    refine (ih r (h.2 r w'.1 hm)).mono (fun _ _ hg => hg) ?_
    rintro a w'' ⟨hq, hle⟩
    exact ⟨hq, by omega⟩

/-- The machine with its steps written down: the call, and the states before and after it. -/
def traced (M : Machine R W) : Machine R (W × List (W × C × W)) := fun w c r w' =>
  M w.1 c r w'.1 ∧ w'.2 = w.2 ++ [(w.1, c, w'.1)]

theorem Code.Only.traced {M : Machine R W} {P : C → Prop} {x : Code R τ α} {t : τ} {w : W}
    {steps : List (W × C × W)} {Q : α → τ → W → Prop} (hx : Only P x)
    (h : wp M (fun _ _ => True) x t w Q) :
    wp (Process.traced M) (fun _ _ => True) x t (w, steps) fun a t' y =>
      ∃ w' more, y = (w', steps ++ more) ∧ Q a t' w' ∧ ∀ u ∈ more, P u.2.1 := by
  unfold wp at h ⊢
  have hp := hx t
  generalize x.run t = p at h hp ⊢
  induction p generalizing w steps with
  | ret r => exact ⟨w, [], by rw [List.append_nil], h, by simp⟩
  | call c k ih =>
    refine ⟨trivial, ?_⟩
    rintro r ⟨w', steps'⟩ ⟨hm, hs⟩
    obtain rfl : steps' = steps ++ [(w, c, w')] := hs
    refine (ih r (h.2 r w' hm) (hp.2 r)).mono (fun _ _ hg => hg) ?_
    rintro a _ ⟨w'', more, rfl, hq, hmore⟩
    refine ⟨w'', (w, c, w') :: more, ?_, hq, List.forall_mem_cons.mpr ⟨hp.1, hmore⟩⟩
    rw [List.append_assoc, List.singleton_append]

section Credit

variable (cost : C → ℕ) (gain : (c : C) → R c → ℕ)

/-- Only the credit is kept, which answers add to and calls are paid from. -/
def credited : Machine R ℕ := fun n c r n' => n' + cost c = n + gain c r

/-- The calls can be paid for. -/
def Solvent (x : Code R τ α) (t : τ) (n : ℕ) (Q : α → τ → ℕ → Prop) : Prop :=
  wp (credited cost gain) (fun n c => cost c ≤ n) x t n Q

/-- What the calls in a log have cost. -/
def costs : List ((c : C) × R c) → ℕ
  | [] => 0
  | e :: log => cost e.1 + costs log

variable {cost gain} {x : Code R τ α} {t : τ} {n : ℕ}

theorem costs_append (log : List ((c : C) × R c)) (e : (c : C) × R c) :
    costs cost (log ++ [e]) = costs cost log + cost e.1 := by
  induction log with
  | nil => simp [costs]
  | cons e' log ih => simp only [List.cons_append, costs, ih, Nat.add_assoc]

theorem solvent_pure {a : α} {Q : α → τ → ℕ → Prop} :
    Solvent cost gain (pure a : Code R τ α) t n Q ↔ Q a t n := Iff.rfl

theorem Solvent.bind {β : Type} {f : α → Code R τ β} {Q : α → τ → ℕ → Prop} {Q' : β → τ → ℕ → Prop}
    (hx : Solvent cost gain x t n Q)
    (hf : ∀ a t n, Q a t n → Solvent cost gain (f a) t n Q') :
    Solvent cost gain (x >>= f) t n Q' :=
  wp_bind.mpr (wp_mono hx hf)

theorem solvent_of_only (hx : Only (cost · = 0) x) :
    Solvent cost gain x t n fun _ _ _ => True :=
  hx.guard (I := fun _ => True) ensures_true trivial (fun _ _ _ => trivial)
    fun {n c} _ (hc : cost c = 0) => hc ▸ Nat.zero_le n

/-- Where answers are taken from a supply, the calls cost no more than the supply and the credit. -/
theorem Solvent.logged {M : Machine R W} {μ : W → ℕ} {w : W × List ((c : C) × R c)}
    {Q : α → τ → ℕ → Prop} (hM : ∀ {w c r w'}, M w c r w' → μ w' + gain c r ≤ μ w)
    (h : Solvent cost gain x t n Q) :
    wp (Process.logged M) (fun _ _ => True) x t w fun _ _ w' =>
      costs cost w'.2 + μ w'.1 ≤ costs cost w.2 + μ w.1 + n := by
  unfold Solvent at h
  unfold wp at h ⊢
  generalize x.run t = p at h ⊢
  induction p generalizing w n with
  | ret r =>
    change costs cost w.2 + μ w.1 ≤ _
    omega
  | call c k ih =>
    refine ⟨trivial, fun r w' ⟨hm, hw⟩ => ?_⟩
    have hsupply := hM hm
    have hc : cost c ≤ n := h.1
    have hstep : credited cost gain n c r (n + gain c r - cost c) := by
      unfold credited
      omega
    refine (ih r (h.2 r _ hstep)).mono (fun _ _ hg => hg) fun a w'' hle => ?_
    rw [hw, costs_append] at hle
    simp only at hle
    omega

end Credit

end Xfer.Process
