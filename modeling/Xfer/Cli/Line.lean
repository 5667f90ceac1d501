import Xfer.Cli.Parse

/-! # Command lines as groups of arguments

Behind the subcommand a command line is a sequence of groups: a standalone flag,
a flag with its value, or a path. The scanner handles one group after the other,
whatever the values look like.
-/

namespace Xfer.Cli

open Xfer.Common (ascii)

inductive Subcommand
  | send | recv | receive | help | version
  deriving DecidableEq

namespace Subcommand

def token : Subcommand → Bytes
  | send => ascii "send"
  | recv => ascii "recv"
  | receive => ascii "receive"
  | help => ascii "help"
  | version => ascii "version"

def mode : Subcommand → Mode
  | send => .send
  | recv => .receive
  | receive => .receive
  | help => .help
  | version => .version

theorem subcommand_token (s : Subcommand) : subcommand s.token = some s.mode := by
  cases s <;> rfl

theorem head?_token (s : Subcommand) : s.token.head? ≠ some dash := by
  cases s <;> decide

theorem mode_eq_send_iff {s : Subcommand} : s.mode = .send ↔ s = send := by
  cases s <;> decide

end Subcommand

/-- The standalone flags without a text of their own. -/
inductive Switch
  | help | version | verbose | noProgress | recursive | followSymlinks | noZeroCopy | noVerify
  | listen
  deriving DecidableEq

namespace Switch

/-- The spellings; some flags have a long one only. -/
def token (long : Bool) : Switch → Bytes
  | help => if long then ascii "--help" else ascii "-h"
  | version => if long then ascii "--version" else ascii "-V"
  | verbose => if long then ascii "--verbose" else ascii "-v"
  | noProgress => ascii "--no-progress"
  | recursive => if long then ascii "--recursive" else ascii "-r"
  | followSymlinks => if long then ascii "--follow-symlinks" else ascii "-L"
  | noZeroCopy => ascii "--no-zero-copy"
  | noVerify => ascii "--no-verify"
  | listen => ascii "--listen"

def set (opts : Options) : Switch → Options
  | help => { opts with mode := .help }
  | version => { opts with mode := .version }
  | verbose => { opts with verbose := true }
  | noProgress => { opts with noProgress := true }
  | recursive => { opts with recursive := true }
  | followSymlinks => { opts with followSymlinks := true }
  | noZeroCopy => { opts with noZeroCopy := true }
  | noVerify => { opts with noVerify := true }
  | listen => { opts with listen := true }

end Switch

inductive Group
  | switch (long : Bool) (f : Switch)
  | color (v : Bytes)
  | host (v : Bytes)
  | output (long : Bool) (v : Bytes)
  | port (long : Bool) (v : Bytes)
  | path (p : Bytes) (h : p.head? ≠ some dash)

namespace Group

def tokens : Group → List Bytes
  | switch long f => [f.token long]
  | color v => [ascii "--color=" ++ v]
  | host v => [ascii "--host", v]
  | output long v => [if long then ascii "--output" else ascii "-o", v]
  | port long v => [if long then ascii "--port" else ascii "-p", v]
  | path p _ => [p]

/-- What the scanner does at a group. -/
def run (opts : Options) : Group → Except Diagnostic Options
  | switch _ f => .ok (f.set opts)
  | color v =>
    if v = ascii "always" then .ok { opts with forceColor := true }
    else if v = ascii "never" then .ok { opts with forceColor := false }
    else if v = ascii "auto" then .ok opts
    else .error .color
  | host v => .ok { opts with host := v }
  | output _ v => .ok { opts with outputDir := v }
  | port _ v =>
    match parseInt v with
    | none => .error (.invalidInteger (ascii "--port"))
    | some n => .ok { opts with port := n }
  | path p _ =>
    if opts.mode = .send then .ok { opts with paths := opts.paths ++ [p] }
    else .error (.unknownOption p)

end Group

/-- What the scanner does at groups that follow each other. -/
def runAll (opts : Options) : List Group → Except Failure Options
  | [] => .ok opts
  | g :: gs =>
    match g.run opts with
    | .error d => .error ⟨d, opts⟩
    | .ok opts' => runAll opts' gs

section Scan

variable {args : List Bytes} {pos : ℕ} {opts : Options} {a v : Bytes} {t : List Bytes}

theorem getD_of_drop (h : args.drop pos = a :: t) : args.getD pos [] = a := by
  rw [List.getD_eq_getElem?_getD, ← List.head?_drop, h]
  rfl

theorem getD_succ_of_drop (h : args.drop pos = a :: v :: t) : args.getD (pos + 1) [] = v := by
  apply getD_of_drop (t := t)
  rw [← List.drop_drop, h]
  rfl

theorem not_length_le_of_drop (h : args.drop pos = a :: v :: t) : ¬ pos + 1 ≥ args.length := by
  have := congrArg List.length h
  simp only [List.length_drop, List.length_cons] at this
  omega

theorem iteration_switch (long : Bool) (f : Switch) (h : args.drop pos = f.token long :: t) :
    iteration args pos opts = .ok (pos, f.set opts) := by
  simp only [iteration, getD_of_drop h]
  cases f <;> cases long <;> simp [Switch.token, Switch.set, ascii]

theorem argStarts_append (start : Bytes) : argStarts (start ++ v) start = some v := by
  simp [argStarts]

theorem iteration_color (h : args.drop pos = (ascii "--color=" ++ v) :: t) :
    iteration args pos opts = ((Group.color v).run opts).map (pos, ·) := by
  simp only [iteration, getD_of_drop h, argStarts_append, Group.run, apply_ite (Except.map _)]
  simp [ascii, Except.map]

theorem iteration_host (h : args.drop pos = ascii "--host" :: v :: t) :
    iteration args pos opts = .ok (pos + 1, { opts with host := v }) := by
  simp only [iteration, getD_of_drop h, needVal, not_length_le_of_drop h, getD_succ_of_drop h]
  simp [ascii, argStarts, bind, Except.bind]

theorem iteration_output (long : Bool)
    (h : args.drop pos = (if long then ascii "--output" else ascii "-o") :: v :: t) :
    iteration args pos opts = .ok (pos + 1, { opts with outputDir := v }) := by
  simp only [iteration, getD_of_drop h, needVal, not_length_le_of_drop h, getD_succ_of_drop h]
  cases long <;> simp [ascii, argStarts, bind, Except.bind]

theorem iteration_port (long : Bool)
    (h : args.drop pos = (if long then ascii "--port" else ascii "-p") :: v :: t) :
    iteration args pos opts = ((Group.port long v).run opts).map (pos + 1, ·) := by
  simp only [iteration, getD_of_drop h, needInt, not_length_le_of_drop h, getD_succ_of_drop h,
    Group.run]
  cases parseInt v <;> cases long <;> simp [ascii, argStarts, bind, Except.bind, Except.map]

theorem ne_of_head?_ne {p : Bytes} (hp : p.head? ≠ some dash) (w : Bytes) : p ≠ dash :: w := by
  rintro rfl
  exact hp rfl

theorem iteration_of_head?_ne (ha : a.head? ≠ some dash) (h : args.drop pos = a :: t) :
    iteration args pos opts =
      if opts.mode = .send then .ok (pos, { opts with paths := opts.paths ++ [a] })
      else .error (.unknownOption a) := by
  have flag (w : Bytes) : a ≠ dash :: w := ne_of_head?_ne ha w
  have color : argStarts a (ascii "--color=") = none := by
    rw [argStarts, if_neg]
    rintro ⟨w, rfl⟩
    exact flag _ rfl
  have lit (w : String) (c : Bytes) (hw : ascii w = dash :: c) : a ≠ ascii w := hw ▸ flag c
  simp only [iteration, getD_of_drop h, color]
  simp [ha, lit "-h" _ rfl, lit "--help" _ rfl, lit "-V" _ rfl, lit "--version" _ rfl,
    lit "-v" _ rfl, lit "--verbose" _ rfl, lit "--no-progress" _ rfl, lit "-r" _ rfl,
    lit "--recursive" _ rfl, lit "-L" _ rfl, lit "--follow-symlinks" _ rfl,
    lit "--no-zero-copy" _ rfl, lit "--no-verify" _ rfl, lit "--listen" _ rfl,
    lit "--host" _ rfl, lit "-o" _ rfl, lit "--output" _ rfl, lit "-p" _ rfl, lit "--port" _ rfl]

theorem iteration_group (g : Group) (h : args.drop pos = g.tokens ++ t) :
    iteration args pos opts = (g.run opts).map (pos + g.tokens.length - 1, ·) := by
  cases g with
  | switch long f => exact iteration_switch long f h
  | color v => exact iteration_color h
  | host v => exact iteration_host h
  | output long v => exact iteration_output long h
  | port long v => exact iteration_port long h
  | path p hp =>
    rw [iteration_of_head?_ne hp h, Group.run]
    split <;> rfl

theorem Group.tokens_ne_nil (g : Group) : g.tokens ≠ [] := by
  cases g <;> simp [Group.tokens]

theorem scan_of_length_le (h : args.length ≤ pos) : scan args pos opts = .ok opts := by
  rw [scan, if_neg (by omega)]

theorem scan_of_error {d : Diagnostic} (hp : pos < args.length)
    (h : iteration args pos opts = .error d) : scan args pos opts = .error ⟨d, opts⟩ := by
  rw [scan, if_pos hp]
  split <;> simp_all

theorem scan_of_ok {p : ℕ × Options} (hp : pos < args.length)
    (h : iteration args pos opts = .ok p) : scan args pos opts = scan args (p.1 + 1) p.2 := by
  rw [scan, if_pos hp]
  split <;> simp_all

theorem lt_length_of_drop {l : List Bytes} (h : args.drop pos = l) (hl : l ≠ []) :
    pos < args.length := by
  by_contra hle
  exact hl (h ▸ List.drop_eq_nil_of_le (by omega))

/-- The loop goes through the groups one by one. -/
theorem scan_groups (gs : List Group) (h : args.drop pos = gs.flatMap Group.tokens ++ t) :
    scan args pos opts =
      runAll opts gs >>= scan args (pos + (gs.flatMap Group.tokens).length) := by
  induction gs generalizing pos opts with
  | nil => rfl
  | cons g gs ih =>
    have hlen := List.length_pos_iff.mpr g.tokens_ne_nil
    rw [List.flatMap_cons, List.append_assoc] at h
    have hp : pos < args.length := lt_length_of_drop h (by
      intro he
      simp_all)
    have hi : iteration args pos opts = _ := iteration_group g h
    rw [runAll]
    cases hr : g.run opts with
    | error d =>
      rw [hr] at hi
      exact scan_of_error hp hi
    | ok opts' =>
      rw [hr] at hi
      have hd : args.drop (pos + g.tokens.length) = gs.flatMap Group.tokens ++ t := by
        rw [← List.drop_drop, h, List.drop_left]
      rw [scan_of_ok hp hi]
      simp only [Nat.sub_add_cancel (show 1 ≤ pos + g.tokens.length by omega)]
      rw [ih hd, List.flatMap_cons, List.length_append, Nat.add_assoc]

theorem scan_all (gs : List Group) (h : args.drop pos = gs.flatMap Group.tokens) :
    scan args pos opts = runAll opts gs := by
  rw [scan_groups (t := []) gs (by rw [h, List.append_nil])]
  have hl := congrArg List.length h
  rw [List.length_drop] at hl
  cases runAll opts gs with
  | error f => rfl
  | ok opts' => exact scan_of_length_le (by omega)

end Scan

section Parse

variable {program : Bytes} {opts o : Options} {gs : List Group}

/-- What a group of arguments is about; of two groups of one kind the last one counts. -/
inductive Kind
  | mode | switch (f : Switch) | color | host | output | port | path
  deriving DecidableEq

def Group.kind : Group → Kind
  | switch _ .help => .mode
  | switch _ .version => .mode
  | switch _ f => .switch f
  | color _ => .color
  | host _ => .host
  | output _ _ => .output
  | port _ _ => .port
  | path _ _ => .path

/-- The arguments with a subcommand, if any, in front. -/
def argv (program : Bytes) (command : Option Subcommand) (gs : List Group) : List Bytes :=
  program :: (command.toList.map Subcommand.token ++ gs.flatMap Group.tokens)

/-- A path in front would be taken for the subcommand. -/
def Begins (command : Option Subcommand) (gs : List Group) : Prop :=
  command = none → ∃ g t, gs = g :: t ∧ g.kind ≠ .path

theorem begins_some (s : Subcommand) (gs : List Group) : Begins (some s) gs := nofun

/-- The options with which the scanner begins. -/
def startOptions (opts : Options) : Option Subcommand → Options
  | none => opts
  | some s => { opts with mode := s.mode }

theorem parse_cons {args : List Bytes} (h : args ≠ []) : parse (program :: args) opts =
    detect args opts >>= fun p => scan args p.1 p.2 >>= check := by
  have := List.length_pos_iff.mpr h
  exact if_neg (by rw [List.length_cons]; omega)

theorem detect_command (s : Subcommand) (t : List Bytes) :
    detect (s.token :: t) opts = .ok (1, { opts with mode := s.mode }) := by
  simp [detect, s.head?_token, s.subcommand_token]

theorem head?_tokens {g : Group} (h : g.kind ≠ .path) :
    ∃ a t, g.tokens = a :: t ∧ a.head? = some dash := by
  cases g with
  | switch long f => cases f <;> cases long <;> exact ⟨_, _, rfl, by decide⟩
  | color v => exact ⟨_, _, rfl, by simp [ascii, dash]⟩
  | host v => exact ⟨_, _, rfl, by decide⟩
  | output long v => cases long <;> exact ⟨_, _, rfl, by decide⟩
  | port long v => cases long <;> exact ⟨_, _, rfl, by decide⟩
  | path p hp => exact absurd rfl h

theorem detect_flag {g : Group} (hg : g.kind ≠ .path) (t : List Bytes) :
    detect (g.tokens ++ t) opts = .ok (0, opts) := by
  obtain ⟨a, u, ha, hd⟩ := head?_tokens hg
  simp [detect, ha, hd]

/-- The subcommand is looked for at the first position only. -/
theorem parse_argv {command : Option Subcommand} (h : Begins command gs) :
    parse (argv program command gs) opts = runAll (startOptions opts command) gs >>= check := by
  cases command with
  | some s =>
    have hd : detect (s.token :: gs.flatMap Group.tokens) opts = _ := detect_command s _
    change parse (program :: s.token :: gs.flatMap Group.tokens) opts = _
    rw [parse_cons (List.cons_ne_nil _ _), hd]
    exact congrArg (· >>= check) (scan_all gs rfl)
  | none =>
    obtain ⟨g, t, rfl, hg⟩ := h rfl
    have hd : detect ((g :: t).flatMap Group.tokens) opts = _ := detect_flag hg _
    change parse (program :: (g :: t).flatMap Group.tokens) opts = _
    rw [parse_cons (by simp [g.tokens_ne_nil]), hd]
    exact congrArg (· >>= check) (scan_all _ rfl)

theorem runAll_append (gs hs : List Group) : runAll opts (gs ++ hs) =
    runAll opts gs >>= fun o => runAll o hs := by
  induction gs generalizing opts with
  | nil => rfl
  | cons g gs ih =>
    simp only [List.cons_append, runAll]
    cases g.run opts with
    | error d => rfl
    | ok o => exact ih

theorem runAll_cons_eq_ok {g : Group} {gs : List Group} :
    runAll opts (g :: gs) = .ok o ↔ ∃ o', g.run opts = .ok o' ∧ runAll o' gs = .ok o := by
  rw [runAll]
  cases g.run opts <;> simp

theorem bind_eq_ok {ε α β : Type} {x : Except ε α} {f : α → Except ε β} {b : β} :
    (x >>= f) = .ok b ↔ ∃ a, x = .ok a ∧ f a = .ok b := by
  cases x with
  | error e => simp [bind, Except.bind]
  | ok a => simp [bind, Except.bind]

theorem check_eq_ok_iff : check opts = .ok o ↔
    opts = o ∧ (opts.mode = .send → opts.paths ≠ []) ∧
      1 ≤ opts.port.toInt ∧ opts.port.toInt ≤ 65535 := by
  have hr : opts.port ≤ 0 ∨ opts.port > 65535 ↔
      ¬ (1 ≤ opts.port.toInt ∧ opts.port.toInt ≤ 65535) := by
    rw [Int32.le_iff_toInt_le, gt_iff_lt, Int32.lt_iff_toInt_lt]
    change _ ≤ (0 : ℤ) ∨ (65535 : ℤ) < _ ↔ _
    omega
  unfold check
  split_ifs with h h'
  · simp [h.1, h.2]
  · rw [hr] at h'
    constructor
    · nofun
    · rintro ⟨-, -, hp⟩
      exact absurd hp h'
  · rw [hr, not_not] at h'
    rw [not_and] at h
    simpa [h'] using fun _ => h

end Parse

section Effect

variable {opts o : Options} {gs : List Group} {g g' : Group}

namespace Group

/-- The options that a group leaves where it is accepted. -/
def apply (opts : Options) : Group → Options
  | switch _ f => f.set opts
  | color v => { opts with
      forceColor := if v = ascii "always" then true else if v = ascii "never" then false
        else opts.forceColor }
  | host v => { opts with host := v }
  | output _ v => { opts with outputDir := v }
  | port _ v => { opts with port := (parseInt v).getD opts.port }
  | path p _ => { opts with paths := opts.paths ++ [p] }

/-- The value of the group can be read. -/
def Reads : Group → Prop
  | color v => v = ascii "always" ∨ v = ascii "never" ∨ v = ascii "auto"
  | port _ v => ∃ n, parseInt v = some n
  | _ => True

theorem run_eq_ok_iff : g.run opts = .ok o ↔
    g.Reads ∧ (g.kind = .path → opts.mode = .send) ∧ o = g.apply opts := by
  cases g with
  | switch long f => cases f <;> simp [run, Reads, kind, apply, eq_comm]
  | color v =>
    simp only [run, Reads, kind, apply]
    split_ifs with h1 h2 h3
    · simp [h1, eq_comm]
    · simp [h2, eq_comm]
    · simp only [h3, or_true, true_and, Except.ok.injEq]
      exact ⟨fun h => ⟨nofun, h.symm⟩, fun h => h.2.symm⟩
    · simp [h1, h2, h3]
  | host v => simp [run, Reads, kind, apply, eq_comm]
  | output long v => simp [run, Reads, kind, apply, eq_comm]
  | port long v => cases h : parseInt v <;> simp [run, Reads, kind, apply, h, eq_comm]
  | path p hp => by_cases h : opts.mode = .send <;> simp [run, Reads, kind, apply, h, eq_comm]

/-- Groups of different kinds set different options. -/
theorem apply_comm (h : g.kind ≠ g'.kind) :
    g'.apply (g.apply opts) = g.apply (g'.apply opts) := by
  cases g with
  | switch long f =>
    cases g' with
    | switch long' f' => cases f <;> cases f' <;> first | rfl | exact absurd rfl h
    | _ => cases f <;> rfl
  | _ =>
    cases g' with
    | switch long' f' => cases f' <;> rfl
    | _ => first | rfl | exact absurd rfl h

theorem mode_apply (h : g.kind ≠ .mode) : (g.apply opts).mode = opts.mode := by
  cases g with
  | switch long f => cases f <;> first | rfl | exact absurd rfl h
  | _ => rfl

theorem mode_apply_ne_send (h : g.kind = .mode) : (g.apply opts).mode ≠ .send := by
  cases g with
  | switch long f =>
    cases f with
    | help | version => simp [apply, Switch.set]
    | _ => cases h
  | _ => cases h

theorem mode_apply_eq_send_iff :
    (g.apply opts).mode = .send ↔ opts.mode = .send ∧ g.kind ≠ .mode := by
  by_cases h : g.kind = .mode
  · simp [mode_apply_ne_send h, h]
  · simp [mode_apply h, h]

end Group

/-- The options that groups leave where they are accepted. -/
def applyAll (opts : Options) (gs : List Group) : Options := gs.foldl Group.apply opts

/-- Groups are accepted if their values can be read and paths stand in front of flags that change
the mode. -/
theorem runAll_eq_ok_iff : runAll opts gs = .ok o ↔
    (∀ g ∈ gs, g.Reads ∧ (g.kind = .path → opts.mode = .send)) ∧
      gs.Pairwise (fun g h => g.kind = .mode → h.kind ≠ .path) ∧ o = applyAll opts gs := by
  induction gs generalizing opts with
  | nil => simp [runAll, applyAll, eq_comm]
  | cons g gs ih =>
    simp only [runAll_cons_eq_ok, Group.run_eq_ok_iff, ih, List.pairwise_cons,
      List.forall_mem_cons]
    constructor
    · rintro ⟨_, ⟨hr, hp, rfl⟩, hgs, hw, rfl⟩
      have send (h) (hh : h ∈ gs) (hk : h.kind = .path) :=
        Group.mode_apply_eq_send_iff.mp ((hgs h hh).2 hk)
      refine ⟨⟨⟨hr, hp⟩, fun h hh => ⟨(hgs h hh).1, fun hk => (send h hh hk).1⟩⟩, ⟨?_, hw⟩, rfl⟩
      exact fun h hh hm hk => (send h hh hk).2 hm
    · rintro ⟨⟨⟨hr, hp⟩, hgs⟩, ⟨hm, hw⟩, rfl⟩
      refine ⟨_, ⟨hr, hp, rfl⟩, fun h hh => ⟨(hgs h hh).1, fun hk => ?_⟩, hw, rfl⟩
      exact Group.mode_apply_eq_send_iff.mpr ⟨(hgs h hh).2 hk, fun hg => hm h hh hg hk⟩

theorem applyAll_eq_of_forall {α : Type} (π : Options → α) (x : α)
    (hg : ∀ g ∈ gs, (∀ o, π (g.apply o) = π o) ∨ ∀ o, π (g.apply o) = x)
    (hx : π opts = x ∨ ∃ g ∈ gs, ∀ o, π (g.apply o) = x) : π (applyAll opts gs) = x := by
  induction gs generalizing opts with
  | nil => simpa [applyAll] using hx
  | cons g gs ih =>
    refine ih (fun h hh => hg h (List.mem_cons_of_mem _ hh)) ?_
    rcases hx with hx | ⟨h, hh, hx⟩
    · left
      rcases hg g List.mem_cons_self with hk | hk
      · rw [hk, hx]
      · exact hk _
    · rcases List.mem_cons.mp hh with rfl | hh
      · exact .inl (hx _)
      · exact .inr ⟨h, hh, hx⟩

theorem mode_applyAll_eq_send_iff : (applyAll opts gs).mode = .send ↔
    opts.mode = .send ∧ ∀ g ∈ gs, g.kind ≠ .mode := by
  induction gs generalizing opts with
  | nil => simp [applyAll]
  | cons g gs ih =>
    change (applyAll (g.apply opts) gs).mode = _ ↔ _
    rw [ih, Group.mode_apply_eq_send_iff, List.forall_mem_cons, and_assoc]

def Group.path? : Group → Option Bytes
  | path p _ => some p
  | _ => none

theorem Group.path?_eq_none_iff : g.path? = none ↔ g.kind ≠ .path := by
  cases g with
  | switch long f => cases f <;> simp [path?, kind]
  | _ => simp [path?, kind]

theorem paths_applyAll : (applyAll opts gs).paths = opts.paths ++ gs.filterMap Group.path? := by
  induction gs generalizing opts with
  | nil => simp [applyAll]
  | cons g gs ih =>
    change (applyAll (g.apply opts) gs).paths = _
    rw [ih, List.filterMap_cons]
    cases g with
    | switch long f => cases f <;> rfl
    | path p hp => simp [Group.apply, Group.path?]
    | _ => rfl

end Effect

end Xfer.Cli
