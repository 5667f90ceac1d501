import Xfer.Common.Format
import Mathlib.Tactic.Common

/-! # The progress bar

The counter, the throttling and the lines that are drawn, over any number of
calls. `Progress::Render` formats one line into a buffer of 512 bytes and writes
as many bytes of the buffer as `snprintf` has returned.
-/

namespace Xfer.Common

/-- What `clock_gettime(CLOCK_MONOTONIC)` reads. -/
structure Timespec where
  sec : UInt64
  nsec : UInt64
  sec_lt : sec.toNat < 2 ^ 63
  nsec_lt : nsec.toNat < 10 ^ 9

def nowSec (ts : Timespec) : Float := ts.sec.toFloat + ts.nsec.toFloat * 1e-9

/-- `static_cast<std::uint64_t>` of a `double`: it truncates where the result can be represented,
and is undefined elsewhere. -/
structure Conversion where
  toUInt64 : Float → UInt64
  truncates : ∀ x, -1.0 < x → x < 18446744073709551616.0 → toUInt64 x = x.toUInt64

/-- `common::Progress`; the clock's readings are arguments of the functions that take them. -/
structure Progress where
  label : Bytes
  total : UInt64
  done : UInt64 := 0
  startTime : Float
  lastRender : Float
  enabled : Bool
  finished : Bool := false

namespace Progress

def setLabel (p : Progress) (label : Bytes) : Progress := { p with label := label }

variable (conv : Conversion) (p : Progress) (final : Bool) (now : Float)

def speed : Float :=
  let elapsed := now - p.startTime
  let safeElapsed := if elapsed < 1e-6 then 1e-6 else elapsed
  p.done.toFloat / safeElapsed

def eta : Float := if p.total > p.done then (p.total - p.done).toFloat / p.speed now else 0.0

def pct : Float := if p.total > 0 then 100.0 * p.done.toFloat / p.total.toFloat else 100.0

/-- What is formatted for the line, before it is put together. -/
def fields : List Bytes :=
  [padTo 5 (fixed 1 p.pct), formatBytes p.done, formatBytes p.total,
    formatBytes (conv.toUInt64 (p.speed now)), formatDuration (p.eta now)]

/-- The text that the format of `Render` stands for. -/
def line : Bytes :=
  [0x0D, 0x1B, 0x5B, 0x4B] ++ cstr p.label ++ ascii "  " ++ padTo 5 (fixed 1 p.pct) ++
    ascii "%  [" ++ formatBytes p.done ++ ascii "/" ++ formatBytes p.total ++ ascii ", " ++
    formatBytes (conv.toUInt64 (p.speed now)) ++ ascii "/s, eta " ++ formatDuration (p.eta now) ++
    ascii "]"

/-- A call of `fwrite`: how many bytes it writes of a buffer in which these have been stored. -/
structure Fwrite where
  stored : Bytes
  count : ℕ
  newline : Bool

/-- `Render` returns without writing anything if `snprintf` fails. -/
def render : Option Fwrite :=
  let (n, stored) := snprintf 512 (p.line conv now)
  if n < 0 then none else some ⟨stored, n.toNat, final⟩

/-- `Add` renders at most once in 100 ms. -/
def add (delta : UInt64) (now now' : Float) : Progress × Option Fwrite :=
  let p := { p with done := p.done + delta }
  if ¬ p.enabled ∨ p.finished then (p, none)
  else if now - p.lastRender < 0.1 then (p, none)
  else
    let p := { p with lastRender := now }
    (p, p.render conv false now')

def finish : Progress × Option Fwrite :=
  if p.finished then (p, none)
  else
    let p := { p with finished := true }
    (p, if p.enabled then p.render conv true now else none)

/-- The calls of the class, with the readings of the clock that they take. -/
inductive Op where
  | setLabel (label : Bytes)
  | setTotal (total : UInt64)
  | add (delta : UInt64) (now now' : Float)
  | finish (now : Float)
  | setEnabled (enabled : Bool)

def step : Op → Progress × Option Fwrite
  | .setLabel label => (p.setLabel label, none)
  | .setTotal total => ({ p with total := total }, none)
  | .add delta now now' => p.add conv delta now now'
  | .finish now => p.finish conv now
  | .setEnabled enabled => ({ p with enabled := enabled }, none)

/-- Whatever the bar writes, it writes it with `Render`. -/
theorem step_writes {op : Op} {w : Fwrite} (h : (p.step conv op).2 = some w) :
    ∃ final now, (p.step conv op).1.render conv final now = some w := by
  cases op with
  | add delta now now' =>
    unfold step add at h ⊢
    simp only at h ⊢
    split at h
    · cases h
    · split at h
      · cases h
      · rename_i h₁ h₂
        rw [if_neg h₁, if_neg h₂]
        simp only at h ⊢
        exact ⟨false, now', h⟩
  | finish now =>
    unfold step finish at h ⊢
    simp only at h ⊢
    split at h
    · cases h
    · rename_i h₁
      rw [if_neg h₁]
      simp only at h ⊢
      split at h
      · exact ⟨true, now, h⟩
      · cases h
  | _ => cases h

section Runs

variable {conv} {p} {op : Op} {ops : List Op} {w : Fwrite}

/-- What an operation adds to the counter. -/
def Op.delta : Op → UInt64
  | .add delta _ _ => delta
  | _ => 0

/-- The bar after some calls, and all that they have written. -/
def run (conv : Conversion) (p : Progress) : List Op → Progress × List Fwrite
  | [] => (p, [])
  | op :: ops =>
    let (p, w) := p.step conv op
    let (p, ws) := p.run conv ops
    (p, w.toList ++ ws)

/-- The bar before and after each of some calls. -/
def stages (conv : Conversion) (p : Progress) : List Op → List Progress
  | [] => [p]
  | op :: ops => p :: (p.step conv op).1.stages conv ops

/-- The bar has been drawn anew only if a tenth of a second has passed since it was drawn. -/
def Throttled (p q : Progress) : Prop :=
  q.lastRender = p.lastRender ∨ ¬ q.lastRender - p.lastRender < 0.1

theorem add_cases (conv : Conversion) (p : Progress) (delta : UInt64) (now now' : Float) :
    p.add conv delta now now' = ({ p with done := p.done + delta }, none) ∨
      (p.enabled = true ∧ p.finished = false ∧ ¬ now - p.lastRender < 0.1 ∧
        p.add conv delta now now' = ({ p with done := p.done + delta, lastRender := now },
          render conv { p with done := p.done + delta, lastRender := now } false now')) := by
  unfold add
  simp only
  split
  · exact Or.inl rfl
  · rename_i hgo
    simp only [not_or, Bool.not_eq_true, Bool.not_eq_false] at hgo
    split
    · exact Or.inl rfl
    · rename_i hdue
      exact Or.inr ⟨hgo.1, hgo.2, hdue, rfl⟩

theorem finish_cases (conv : Conversion) (p : Progress) (now : Float) :
    (p.finished = true ∧ p.finish conv now = (p, none)) ∨
      (p.finished = false ∧ p.finish conv now = ({ p with finished := true },
        if p.enabled then render conv { p with finished := true } true now else none)) := by
  unfold finish
  split
  · rename_i h
    exact Or.inl ⟨h, rfl⟩
  · rename_i h
    exact Or.inr ⟨Bool.eq_false_of_not_eq_true h, rfl⟩

theorem step_done : (p.step conv op).1.done = p.done + op.delta := by
  cases op with
  | add delta now now' =>
    rw [step]
    obtain h | ⟨-, -, -, h⟩ := add_cases conv p delta now now'
    · rw [h, Op.delta]
    · rw [h, Op.delta]
  | finish now =>
    rw [step]
    obtain ⟨-, h⟩ | ⟨-, h⟩ := finish_cases conv p now
    · rw [h]
      exact (UInt64.add_zero _).symm
    · rw [h]
      exact (UInt64.add_zero _).symm
  | _ => exact (UInt64.add_zero _).symm

theorem newline_of_render {final : Bool} {now : Float} (h : p.render conv final now = some w) :
    w.newline = final := by
  unfold render at h
  simp only at h
  split at h
  · cases h
  · obtain rfl := Option.some.inj h
    rfl

/-- A line is ended by the call that finishes the bar, and by no other. -/
theorem step_newline (h : (p.step conv op).2 = some w) :
    w.newline = (p.step conv op).1.finished := by
  cases op with
  | add delta now now' =>
    rw [step] at h ⊢
    obtain ha | ⟨-, hf, -, ha⟩ := add_cases conv p delta now now'
    · rw [ha] at h
      cases h
    · rw [ha] at h ⊢
      simp only at h ⊢
      rw [newline_of_render h, hf]
  | finish now =>
    rw [step] at h ⊢
    obtain ⟨-, ha⟩ | ⟨-, ha⟩ := finish_cases conv p now
    · rw [ha] at h
      cases h
    · rw [ha] at h ⊢
      simp only at h ⊢
      split at h
      · exact newline_of_render h
      · cases h
  | _ => cases h

theorem step_of_finished (h : p.finished = true) :
    (p.step conv op).2 = none ∧ (p.step conv op).1.finished = true := by
  cases op with
  | add delta now now' =>
    rw [step]
    obtain ha | ⟨-, hf, -⟩ := add_cases conv p delta now now'
    · rw [ha]
      exact ⟨rfl, h⟩
    · rw [h] at hf
      cases hf
  | finish now =>
    rw [step]
    obtain ⟨-, ha⟩ | ⟨hf, -⟩ := finish_cases conv p now
    · rw [ha]
      exact ⟨rfl, h⟩
    · rw [h] at hf
      cases hf
  | _ => exact ⟨rfl, h⟩

theorem finished_of_finish {now : Float} : (p.step conv (.finish now)).1.finished = true := by
  rw [step]
  obtain ⟨h, ha⟩ | ⟨-, ha⟩ := finish_cases conv p now
  · rw [ha]
    exact h
  · rw [ha]

theorem throttled_step : Throttled p (p.step conv op).1 := by
  cases op with
  | add delta now now' =>
    rw [step]
    obtain ha | ⟨-, -, hdue, ha⟩ := add_cases conv p delta now now'
    · rw [ha]
      exact Or.inl rfl
    · rw [ha]
      exact Or.inr hdue
  | finish now =>
    rw [step]
    obtain ⟨-, ha⟩ | ⟨-, ha⟩ := finish_cases conv p now
    · rw [ha]
      exact Or.inl rfl
    · rw [ha]
      exact Or.inl rfl
  | _ => exact Or.inl rfl

theorem step_of_disabled (h : p.enabled = false) (hop : op ≠ .setEnabled true) :
    (p.step conv op).2 = none ∧ (p.step conv op).1.enabled = false := by
  cases op with
  | add delta now now' =>
    rw [step]
    obtain ha | ⟨he, -⟩ := add_cases conv p delta now now'
    · rw [ha]
      exact ⟨rfl, h⟩
    · rw [h] at he
      cases he
  | finish now =>
    rw [step]
    obtain ⟨-, ha⟩ | ⟨-, ha⟩ := finish_cases conv p now
    · rw [ha]
      exact ⟨rfl, h⟩
    · rw [ha, h]
      exact ⟨rfl, rfl⟩
  | setEnabled b =>
    cases b with
    | false => exact ⟨rfl, rfl⟩
    | true => exact absurd rfl hop
  | _ => exact ⟨rfl, h⟩

theorem run_of_finished (h : p.finished = true) : (p.run conv ops).2 = [] := by
  induction ops generalizing p with
  | nil => rfl
  | cons op ops ih =>
    obtain ⟨hw, hf⟩ : (p.step conv op).2 = none ∧ (p.step conv op).1.finished = true :=
      step_of_finished h
    simp only [run, hw, ih hf]
    rfl

theorem run_append {ops' : List Op} :
    (p.run conv (ops ++ ops')).2 = (p.run conv ops).2 ++ ((p.run conv ops).1.run conv ops').2 := by
  induction ops generalizing p with
  | nil => rfl
  | cons op ops ih =>
    simp only [List.cons_append, run, ih, List.append_assoc]

theorem run_done : (p.run conv ops).1.done = ops.foldl (fun n op => n + op.delta) p.done := by
  induction ops generalizing p with
  | nil => rfl
  | cons op ops ih =>
    simp only [run, List.foldl_cons, ih, step_done]

theorem run_newline : ∃ drawn last, (p.run conv ops).2 = drawn ++ Option.toList last ∧
    (∀ w ∈ drawn, w.newline = false) ∧ ∀ w ∈ last, w.newline = true := by
  induction ops generalizing p with
  | nil => exact ⟨[], none, rfl, by simp, by simp⟩
  | cons op ops ih =>
    cases hw : (p.step conv op).2 with
    | none =>
      obtain ⟨drawn, last, hrun, h⟩ := ih (p := (p.step conv op).1)
      refine ⟨drawn, last, ?_, h⟩
      simp only [run, hw, hrun, Option.toList_none, List.nil_append]
    | some w =>
      have hnl := step_newline hw
      cases hf : (p.step conv op).1.finished with
      | true =>
        refine ⟨[], some w, ?_, by simp, by simp [hnl, hf]⟩
        simp only [run, hw, run_of_finished hf, List.append_nil, List.nil_append]
      | false =>
        obtain ⟨drawn, last, hrun, hd, hl⟩ := ih (p := (p.step conv op).1)
        refine ⟨w :: drawn, last, ?_, List.forall_mem_cons.mpr ⟨hnl.trans hf, hd⟩, hl⟩
        simp only [run, hw, hrun, Option.toList_some, List.cons_append, List.nil_append]

theorem run_finish {now : Float} {ops' : List Op} :
    (p.run conv (ops ++ .finish now :: ops')).2 = (p.run conv (ops ++ [.finish now])).2 := by
  rw [run_append, run_append]
  simp only [run, run_of_finished finished_of_finish]

theorem isChain_stages : (p.stages conv ops).IsChain Throttled := by
  induction ops generalizing p with
  | nil => exact List.IsChain.singleton p
  | cons op ops ih =>
    have hrest := ih (p := (p.step conv op).1)
    rw [stages]
    cases ops with
    | nil => exact .cons_cons throttled_step hrest
    | cons op' ops => exact .cons_cons throttled_step hrest

theorem run_of_disabled (h : p.enabled = false) (hops : .setEnabled true ∉ ops) :
    (p.run conv ops).2 = [] := by
  induction ops generalizing p with
  | nil => rfl
  | cons op ops ih =>
    rw [List.mem_cons, not_or] at hops
    obtain ⟨hw, he⟩ : (p.step conv op).2 = none ∧ (p.step conv op).1.enabled = false :=
      step_of_disabled h (Ne.symm hops.1)
    simp only [run, hw, ih he hops.2, Option.toList_none, List.append_nil]

/-- Over any number of calls: the counter adds up; at most one line is ended, the last one, and
nothing is written once the bar is finished; it is drawn at most once in a tenth of a second; and
it is not drawn at all while it is disabled. -/
theorem run_draws (conv : Conversion) (p : Progress) (ops : List Op) :
    (p.run conv ops).1.done = ops.foldl (fun n op => n + op.delta) p.done ∧
    (∃ drawn last, (p.run conv ops).2 = drawn ++ Option.toList last ∧
      (∀ w ∈ drawn, w.newline = false) ∧ ∀ w ∈ last, w.newline = true) ∧
    (∀ now ops', (p.run conv (ops ++ .finish now :: ops')).2 =
      (p.run conv (ops ++ [.finish now])).2) ∧
    (p.stages conv ops).IsChain Throttled ∧
    (p.enabled = false → .setEnabled true ∉ ops → (p.run conv ops).2 = []) :=
  ⟨run_done, run_newline, fun _ _ => run_finish, isChain_stages, run_of_disabled⟩

end Runs

end Progress

end Xfer.Common
