import Xfer.Cli.Line

/-! # The port

The value of the port flag is a decimal integer of any size. Where its value does
not fit into 32 bits, the tests at the end see another number.
-/

namespace Xfer.Cli

open Xfer.Common (ascii)

variable {program : Bytes} {command : Option Subcommand} {pre post gs : List Group}
  {long : Bool} {s : Bytes} {opts o : Options}

theorem Group.run_setPort {g : Group} (hg : g.kind ≠ .port) (n : Int32) :
    g.run { opts with port := n } = (g.run opts).map fun o => { o with port := n } := by
  cases g with
  | switch long f => cases f <;> rfl
  | color v => simp only [Group.run, apply_ite (Except.map _)]; rfl
  | host v => rfl
  | output long v => rfl
  | port long v => exact absurd rfl hg
  | path p hp => simp only [Group.run, apply_ite (Except.map _)]; rfl

theorem runAll_setPort (hgs : ∀ g ∈ gs, g.kind ≠ .port) (n : Int32) (h : runAll opts gs = .ok o) :
    runAll { opts with port := n } gs = .ok { o with port := n } := by
  induction gs generalizing opts with
  | nil =>
    cases h
    rfl
  | cons g gs ih =>
    obtain ⟨o', hr, hs⟩ := runAll_cons_eq_ok.mp h
    refine runAll_cons_eq_ok.mpr ⟨{ o' with port := n }, ?_, ?_⟩
    · rw [Group.run_setPort (hgs g List.mem_cons_self), hr]
      rfl
    · exact ih (fun g hg => hgs g (List.mem_cons_of_mem _ hg)) hs

/-- A command line with one port flag between the other groups. -/
def withPort (program : Bytes) (command : Option Subcommand) (pre post : List Group) (long : Bool)
    (s : Bytes) : List Bytes :=
  argv program command (pre ++ .port long s :: post)

/-- Some value of the port flag makes the command line acceptable. -/
def OtherwiseAcceptable (program : Bytes) (command : Option Subcommand) (pre post : List Group)
    (long : Bool) (opts : Options) : Prop :=
  ∃ s o, parse (withPort program command pre post long s) opts = .ok o

/-- The port that a string stands for by its value. -/
def IsPort (s : Bytes) (v : ℤ) : Prop := IsDecimal s v ∧ 1 ≤ v ∧ v ≤ 65535

/-- The port flag is accepted exactly with a port, and the port is what it says. -/
def PortByValue (argv : List Bytes) (opts : Options) (s : Bytes) : Prop :=
  ((∃ o, parse argv opts = .ok o) ↔ ∃ v, IsPort s v) ∧
    ∀ o, parse argv opts = .ok o → IsPort s o.port.toInt

/-- An integer other than a port that fits into 64 bits and whose low 32 bits are a port. -/
def Wraps (v : ℤ) : Prop :=
  ¬ (1 ≤ v ∧ v ≤ 65535) ∧ -2 ^ 63 ≤ v ∧ v < 2 ^ 63 ∧ 1 ≤ v % 2 ^ 32 ∧ v % 2 ^ 32 ≤ 65535

theorem begins_withPort (s s' : Bytes) (h : Begins command (pre ++ .port long s :: post)) :
    Begins command (pre ++ .port long s' :: post) := by
  intro hc
  cases pre with
  | nil => exact ⟨_, _, rfl, nofun⟩
  | cons g t =>
    obtain ⟨g', t', he, hg⟩ := h hc
    cases he
    exact ⟨_, _, rfl, hg⟩

theorem parse_withPort (hb : Begins command (pre ++ .port long s :: post))
    (hpost : ∀ g ∈ post, g.kind ≠ .port)
    (ha : OtherwiseAcceptable program command pre post long opts) :
    ∃ o' : Options, ∀ o, parse (withPort program command pre post long s) opts = .ok o ↔
      ∃ n, parseInt s = some n ∧ 1 ≤ n.toInt ∧ n.toInt ≤ 65535 ∧ o = { o' with port := n } := by
  obtain ⟨s', _, h⟩ := ha
  rw [withPort, parse_argv (begins_withPort s s' hb), bind_eq_ok] at h
  obtain ⟨o', hrun, hc⟩ := h
  obtain ⟨rfl, hp, -⟩ := check_eq_ok_iff.mp hc
  obtain ⟨o₁, h₁, hrun⟩ := bind_eq_ok.mp (runAll_append pre _ ▸ hrun)
  obtain ⟨o₂, h₂, hrun⟩ := runAll_cons_eq_ok.mp hrun
  have hrest (n : Int32) : runAll { o₁ with port := n } post = .ok { o' with port := n } := by
    cases hs : parseInt s' with
    | none => simp [Group.run, hs] at h₂
    | some n' =>
      simp only [Group.run, hs, Except.ok.injEq] at h₂
      subst h₂
      have := runAll_setPort hpost n hrun
      exact this
  refine ⟨o', fun o => ?_⟩
  rw [withPort, parse_argv hb, runAll_append, h₁]
  change (runAll o₁ (.port long s :: post) >>= check) = _ ↔ _
  cases hs : parseInt s with
  | none => simp [runAll, Group.run, hs, bind, Except.bind]
  | some n =>
    simp only [runAll, Group.run, hs, hrest, bind, Except.bind, check_eq_ok_iff, Option.some.injEq]
    constructor
    · rintro ⟨rfl, -, h1, h2⟩
      exact ⟨n, rfl, h1, h2, rfl⟩
    · rintro ⟨_, rfl, h1, h2, rfl⟩
      exact ⟨rfl, hp, h1, h2⟩

/-- What `ParseInt` returns is a port exactly of a port and of what wraps around to one. -/
theorem isPort_or_wraps_iff (v : ℤ) :
    (1 ≤ (toLong v).toInt32.toInt ∧ (toLong v).toInt32.toInt ≤ 65535) ↔
      (1 ≤ v ∧ v ≤ 65535) ∨ Wraps v := by
  by_cases hv : 1 ≤ v ∧ v ≤ 65535
  · simp only [toInt_toInt32_toLong_of_port hv, hv, and_self, true_or]
  · rw [or_iff_right hv, Wraps, toInt_toInt32_toLong]
    split_ifs with h h'
    · omega
    · omega
    · rw [Int.bmod_def]
      norm_num
      split_ifs <;> omega

/-- Ports are validated by value exactly of strings that do not wrap around. -/
theorem portByValue_iff (program : Bytes) (command : Option Subcommand) (pre post : List Group)
    (long : Bool) (s : Bytes) (opts : Options)
    (hb : Begins command (pre ++ .port long s :: post))
    (hpost : ∀ g ∈ pre ++ post, g.kind ≠ .port)
    (ha : OtherwiseAcceptable program command pre post long opts) :
    PortByValue (withPort program command pre post long s) opts s ↔
      ¬ ∃ v, IsDecimal s v ∧ Wraps v := by
  obtain ⟨o', hparse⟩ :=
    parse_withPort hb (fun g hg => hpost g (List.mem_append_right _ hg)) ha
  simp only [PortByValue, hparse]
  constructor
  · rintro ⟨h, -⟩ ⟨v, hv, hw⟩
    have hn := (isPort_or_wraps_iff v).mpr (.inr hw)
    obtain ⟨w, hd, hw'⟩ := h.mp ⟨_, _, parseInt_of_isDecimal hv, hn.1, hn.2, rfl⟩
    exact hw.1 (hv.unique hd ▸ hw')
  · intro h
    have port (n : Int32) (hs : parseInt s = some n) (hn : 1 ≤ n.toInt ∧ n.toInt ≤ 65535) :
        IsPort s n.toInt := by
      obtain ⟨v, hv, rfl⟩ := parseInt_eq_some_iff.mp hs
      rcases (isPort_or_wraps_iff v).mp hn with hp | hw
      · rw [toInt_toInt32_toLong_of_port hp]
        exact ⟨hv, hp⟩
      · exact absurd ⟨v, hv, hw⟩ h
    constructor
    · constructor
      · rintro ⟨_, n, hs, h1, h2, -⟩
        exact ⟨_, port n hs ⟨h1, h2⟩⟩
      · rintro ⟨v, hv, hp⟩
        have hn := (isPort_or_wraps_iff v).mpr (.inl hp)
        exact ⟨_, _, parseInt_of_isDecimal hv, hn.1, hn.2, rfl⟩
    · rintro _ ⟨n, hs, h1, h2, rfl⟩
      exact port n hs ⟨h1, h2⟩

theorem otherwiseAcceptable_recv (program : Bytes) :
    OtherwiseAcceptable program (some .recv) [] [] false {} := by
  refine ⟨ascii "9876", { mode := .receive }, ?_⟩
  rw [withPort, parse_argv (begins_some _ _)]
  rfl

theorem portByValue_recv_iff :
    PortByValue (withPort (ascii "xfer") (some .recv) [] [] false (ascii "80")) {} (ascii "80") ↔
      ¬ ∃ v, IsDecimal (ascii "80") v ∧ Wraps v :=
  portByValue_iff (ascii "xfer") (some .recv) [] [] false (ascii "80") {} (begins_some _ _) nofun
    (otherwiseAcceptable_recv _)

/-- `xfer recv -p 4294967297` listens on port 1. -/
theorem wrapped_port_accepted : withPort (ascii "xfer") (some .recv) [] [] false
      (ascii "4294967297") = ["xfer", "recv", "-p", "4294967297"].map ascii ∧
    OtherwiseAcceptable (ascii "xfer") (some .recv) [] [] false {} ∧
    parse (["xfer", "recv", "-p", "4294967297"].map ascii) {} =
      .ok { mode := .receive, port := 1 } ∧
    ¬ PortByValue (["xfer", "recv", "-p", "4294967297"].map ascii) {} (ascii "4294967297") := by
  have hp : parse (["xfer", "recv", "-p", "4294967297"].map ascii) {} =
      .ok { mode := .receive, port := 1 } :=
    (parse_argv (begins_some .recv [.port false (ascii "4294967297")])).trans rfl
  refine ⟨rfl, otherwiseAcceptable_recv _, hp, fun h => ?_⟩
  obtain ⟨v, hv, -, hle⟩ := h.1.mp ⟨_, hp⟩
  have hd : IsDecimal (ascii "4294967297") 4294967297 :=
    readInteger_eq_some_nil_iff.mp (by decide)
  have := hv.unique hd
  omega

end Xfer.Cli
