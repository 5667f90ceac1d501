import Xfer.Cli.Number
import Xfer.Common.Format

/-! # The scanner of the command line

`cli::Parse` looks at the first argument for the subcommand, then goes through
the arguments with one position that the flags with a value advance once more.
-/

namespace Xfer.Cli

open Xfer.Common (ascii)

def dash : UInt8 := 0x2D

inductive Mode
  | unset | send | receive | help | version
  deriving DecidableEq

@[ext]
structure Options where
  mode : Mode := .unset
  verbose : Bool := false
  noProgress : Bool := false
  forceColor : Bool := false
  port : Int32 := 9876
  /-- The remote host; the sender listens if it is empty. -/
  host : Bytes := []
  listen : Bool := false
  recursive : Bool := false
  followSymlinks : Bool := false
  noZeroCopy : Bool := false
  paths : List Bytes := []
  outputDir : Bytes := []
  noVerify : Bool := false
  deriving DecidableEq

/-- Why `Parse` returns `false`. -/
inductive Diagnostic
  | usage
  | unknownSubcommand (cmd : Bytes)
  | requiresValue (flag : Bytes)
  | invalidInteger (flag : Bytes)
  | color
  | unknownOption (a : Bytes)
  | noPaths
  | portRange
  deriving DecidableEq

/-- What is printed on standard error; the help text goes to standard output. -/
def Diagnostic.stderr : Diagnostic → Bytes
  | .usage => []
  | .unknownSubcommand cmd => ascii "xfer: unknown subcommand '" ++ cmd ++ ascii "'\n"
  | .requiresValue flag => ascii "xfer: " ++ flag ++ ascii " requires a value\n"
  | .invalidInteger flag => ascii "xfer: invalid integer for " ++ flag ++ ascii "\n"
  | .color => ascii "xfer: --color= must be auto|always|never\n"
  | .unknownOption a => ascii "xfer: unknown option '" ++ a ++ ascii "'\n"
  | .noPaths => ascii "xfer: 'send' requires at least one file or directory.\n"
  | .portRange => ascii "xfer: --port must be in 1..65535\n"

/-- A failed call, with the options as it leaves them. -/
structure Failure where
  diagnostic : Diagnostic
  opts : Options

/-- `ArgStarts`: what is behind `start`. -/
def argStarts (a start : Bytes) : Option Bytes :=
  if start <+: a then some (a.drop start.length) else none

/-- The mode that a subcommand selects. -/
def subcommand (cmd : Bytes) : Option Mode :=
  if cmd = ascii "send" then some .send
  else if cmd = ascii "recv" ∨ cmd = ascii "receive" then some .receive
  else if cmd = ascii "help" ∨ cmd = ascii "-h" ∨ cmd = ascii "--help" then some .help
  else if cmd = ascii "version" ∨ cmd = ascii "-V" ∨ cmd = ascii "--version" then some .version
  else none

variable (args : List Bytes) (pos : ℕ) (opts : Options)

/-- `need_val`: the advanced position, and the value there. -/
def needVal (flag : Bytes) : Except Diagnostic (ℕ × Bytes) :=
  if pos + 1 ≥ args.length then .error (.requiresValue flag)
  else .ok (pos + 1, args.getD (pos + 1) [])

/-- `need_int`: the advanced position, and the number there. -/
def needInt (flag : Bytes) : Except Diagnostic (ℕ × Int32) :=
  if pos + 1 ≥ args.length then .error (.requiresValue flag)
  else
    match parseInt (args.getD (pos + 1) []) with
    | none => .error (.invalidInteger flag)
    | some v => .ok (pos + 1, v)

/-- The body of the loop: the position and the options at its end. -/
def iteration : Except Diagnostic (ℕ × Options) :=
  let a := args.getD pos []
  if a = ascii "-h" ∨ a = ascii "--help" then .ok (pos, { opts with mode := .help })
  else if a = ascii "-V" ∨ a = ascii "--version" then .ok (pos, { opts with mode := .version })
  else if a = ascii "-v" ∨ a = ascii "--verbose" then .ok (pos, { opts with verbose := true })
  else if a = ascii "--no-progress" then .ok (pos, { opts with noProgress := true })
  else if a = ascii "-r" ∨ a = ascii "--recursive" then .ok (pos, { opts with recursive := true })
  else if a = ascii "-L" ∨ a = ascii "--follow-symlinks" then
    .ok (pos, { opts with followSymlinks := true })
  else if a = ascii "--no-zero-copy" then .ok (pos, { opts with noZeroCopy := true })
  else if a = ascii "--no-verify" then .ok (pos, { opts with noVerify := true })
  else if a = ascii "--listen" then .ok (pos, { opts with listen := true })
  else
    match argStarts a (ascii "--color=") with
    | some v =>
      if v = ascii "always" then .ok (pos, { opts with forceColor := true })
      else if v = ascii "never" then .ok (pos, { opts with forceColor := false })
      else if v = ascii "auto" then .ok (pos, opts)
      else .error .color
    | none =>
      if a = ascii "--host" then do
        let (pos, v) ← needVal args pos (ascii "--host")
        .ok (pos, { opts with host := v })
      else if a = ascii "-o" ∨ a = ascii "--output" then do
        let (pos, v) ← needVal args pos (ascii "--output")
        .ok (pos, { opts with outputDir := v })
      else if a = ascii "-p" ∨ a = ascii "--port" then do
        let (pos, v) ← needInt args pos (ascii "--port")
        .ok (pos, { opts with port := v })
      else if a.head? ≠ some dash ∧ opts.mode = .send then
        .ok (pos, { opts with paths := opts.paths ++ [a] })
      else .error (.unknownOption a)

/-- The position does not go back. -/
def Onward {α : Type} (pos : ℕ) (r : Except Diagnostic (ℕ × α)) : Prop :=
  ∀ p, r = .ok p → pos ≤ p.1

theorem onward_ok {α : Type} (a : α) : Onward pos (.ok (pos, a)) := by
  rintro _ ⟨⟩
  exact le_rfl

theorem onward_error {α : Type} (d : Diagnostic) : Onward pos (.error d : Except Diagnostic (ℕ × α)) := by
  intro p hp
  cases hp

theorem onward_ite {α : Type} {c : Prop} [Decidable c] {r r' : Except Diagnostic (ℕ × α)}
    (h : Onward pos r) (h' : Onward pos r') : Onward pos (if c then r else r') := by
  split
  · exact h
  · exact h'

theorem onward_bind {α β : Type} {r : Except Diagnostic (ℕ × α)} (h : Onward pos r)
    {f : ℕ × α → Except Diagnostic (ℕ × β)} (hf : ∀ q, Onward q.1 (f q)) :
    Onward pos (r >>= f) := by
  cases r with
  | error d => exact onward_error pos d
  | ok q => exact fun p hp => (h q rfl).trans (hf q p hp)

theorem onward_needVal (flag : Bytes) : Onward pos (needVal args pos flag) := by
  apply onward_ite
  · exact onward_error pos _
  · rintro _ ⟨⟩
    exact Nat.le_succ pos

theorem onward_needInt (flag : Bytes) : Onward pos (needInt args pos flag) := by
  apply onward_ite
  · exact onward_error pos _
  · split
    · exact onward_error pos _
    · rintro _ ⟨⟩
      exact Nat.le_succ pos

theorem onward_iteration : Onward pos (iteration args pos opts) := by
  unfold iteration
  repeat apply onward_ite _ (onward_ok pos _)
  split
  · repeat apply onward_ite _ (onward_ok pos _)
    exact onward_error pos _
  · refine onward_ite pos (onward_bind pos (onward_needVal args pos _) ?_) ?_
    · rintro ⟨pos', v⟩
      exact onward_ok pos' _
    refine onward_ite pos (onward_bind pos (onward_needVal args pos _) ?_) ?_
    · rintro ⟨pos', v⟩
      exact onward_ok pos' _
    refine onward_ite pos (onward_bind pos (onward_needInt args pos _) ?_) ?_
    · rintro ⟨pos', v⟩
      exact onward_ok pos' _
    apply onward_ite _ (onward_ok pos _)
    exact onward_error pos _

/-- The loop over the arguments from `pos` on. -/
def scan (args : List Bytes) (pos : ℕ) (opts : Options) : Except Failure Options :=
  if pos < args.length then
    match h : iteration args pos opts with
    | .error d => .error ⟨d, opts⟩
    | .ok p => scan args (p.1 + 1) p.2
  else .ok opts
termination_by args.length - pos
decreasing_by
  have := onward_iteration args pos opts p h
  omega

/-- Where the loop begins, and the options by then. -/
def detect : Except Failure (ℕ × Options) :=
  let cmd := args.getD 0 []
  if cmd.head? ≠ some dash then
    match subcommand cmd with
    | none => .error ⟨.unknownSubcommand cmd, opts⟩
    | some mode => .ok (1, { opts with mode := mode })
  else .ok (0, opts)

/-- The tests at the end. -/
def check : Except Failure Options :=
  if opts.mode = .send ∧ opts.paths = [] then .error ⟨.noPaths, opts⟩
  else if opts.port ≤ 0 ∨ opts.port > 65535 then .error ⟨.portRange, opts⟩
  else .ok opts

/-- `Parse(argc, argv, opts)`: the options with which it returns `true`, or how it fails. -/
def parse (argv : List Bytes) (opts : Options) : Except Failure Options :=
  if argv.length < 2 then .error ⟨.usage, opts⟩
  else do
    let args := argv.drop 1
    let (pos, opts) ← detect args opts
    let opts ← scan args pos opts
    check opts

end Xfer.Cli
