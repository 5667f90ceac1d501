import Xfer.Cli.Line

/-! # Command lines for given options

Options may be written in many ways: flags in any order and in either spelling,
paths anywhere between them. `Parse` reads the same options from all of them.
-/

namespace Xfer.Cli

open Xfer.Common (ascii)

/-- The option that a flag turns on. -/
def Switch.isSet (o : Options) : Switch → Bool
  | help => false
  | version => false
  | verbose => o.verbose
  | noProgress => o.noProgress
  | recursive => o.recursive
  | followSymlinks => o.followSymlinks
  | noZeroCopy => o.noZeroCopy
  | noVerify => o.noVerify
  | listen => o.listen

/-- What the group says about the options is true of them. -/
def Group.Agrees (o : Options) : Group → Prop
  | switch _ f => f.isSet o
  | color v => v = ascii "always" ∧ o.forceColor = true ∨ v = ascii "never" ∧ o.forceColor = false ∨
      v = ascii "auto"
  | host v => v = o.host
  | output _ v => v = o.outputDir
  | port _ v => IsDecimal v o.port.toInt
  | path p _ => p ∈ o.paths

/-- Groups that say everything about the options where they differ from what `Parse` begins with,
in any order but for the paths. -/
structure Renders (o : Options) (gs : List Group) : Prop where
  agrees : ∀ g ∈ gs, g.Agrees o
  switches : ∀ f, Switch.isSet o f → ∃ long, .switch long f ∈ gs
  color : o.forceColor = true → .color (ascii "always") ∈ gs
  host : o.host ≠ [] → .host o.host ∈ gs
  output : o.outputDir ≠ [] → ∃ long, .output long o.outputDir ∈ gs
  port : o.port ≠ 9876 → ∃ long v, .port long v ∈ gs
  paths : gs.filterMap Group.path? = o.paths

/-- Options that a subcommand can run with. -/
structure Runnable (o : Options) : Prop where
  mode : o.mode = .send ∧ o.paths ≠ [] ∨ o.mode = .receive ∧ o.paths = []
  port : 1 ≤ o.port.toInt ∧ o.port.toInt ≤ 65535

variable {program : Bytes} {s : Subcommand} {gs : List Group} {g : Group} {o opts : Options}

theorem Group.Agrees.kind_ne_mode (h : g.Agrees o) : g.kind ≠ .mode := by
  cases g with
  | switch long f =>
    cases f with
    | help | version => cases h
    | _ => nofun
  | _ => nofun

theorem parseInt_of_agrees (hp : 1 ≤ o.port.toInt ∧ o.port.toInt ≤ 65535) {v : Bytes}
    (h : IsDecimal v o.port.toInt) : parseInt v = some o.port := by
  rw [parseInt_of_isDecimal h, Option.some.injEq, ← Int32.toInt_inj]
  exact toInt_toInt32_toLong_of_port hp

theorem Group.Agrees.reads (hp : 1 ≤ o.port.toInt ∧ o.port.toInt ≤ 65535) (h : g.Agrees o) :
    g.Reads := by
  cases g with
  | color v =>
    rcases h with ⟨rfl, -⟩ | ⟨rfl, -⟩ | rfl
    · exact .inl rfl
    · exact .inr (.inl rfl)
    · exact .inr (.inr rfl)
  | port long v => exact ⟨_, parseInt_of_agrees hp h⟩
  | _ => trivial

theorem isSet_set {f : Switch} (h : f.isSet o = true) : f.isSet (f.set opts) = true := by
  cases f with
  | help | version => cases h
  | _ => rfl

theorem isSet_apply {f : Switch} (h : ∀ long, g ≠ .switch long f) :
    f.isSet (g.apply opts) = f.isSet opts := by
  cases g with
  | switch long f' =>
    have hne : f' ≠ f := fun he => h long (he ▸ rfl)
    cases f <;> cases f' <;> first | rfl | exact absurd rfl hne
  | _ => cases f <;> rfl

namespace Renders

variable (h : Renders o gs) (hr : Runnable o)
include h

theorem isSet_applyAll (f : Switch) (m : Mode) :
    f.isSet (applyAll { mode := m } gs) = f.isSet o := by
  refine applyAll_eq_of_forall f.isSet _ (fun g hg => ?_) ?_
  · by_cases hf : ∃ long, g = .switch long f
    · obtain ⟨long, rfl⟩ := hf
      have ha : f.isSet o = true := h.agrees _ hg
      rw [ha]
      exact .inr fun o' => isSet_set ha
    · exact .inl fun o' => isSet_apply fun long he => hf ⟨long, he⟩
  · cases hf : f.isSet o with
    | false =>
      left
      cases f <;> rfl
    | true =>
      obtain ⟨long, hm⟩ := h.switches f hf
      exact .inr ⟨_, hm, fun o' => isSet_set hf⟩

theorem forceColor_applyAll (m : Mode) :
    (applyAll { mode := m } gs).forceColor = o.forceColor := by
  refine applyAll_eq_of_forall Options.forceColor _ (fun g hg => ?_) ?_
  · cases g with
    | switch long f => cases f <;> exact .inl fun _ => rfl
    | color v =>
      rcases h.agrees _ hg with ⟨rfl, hc⟩ | ⟨rfl, hc⟩ | rfl
      · rw [hc]
        exact .inr fun _ => rfl
      · rw [hc]
        exact .inr fun _ => rfl
      · exact .inl fun _ => rfl
    | _ => exact .inl fun _ => rfl
  · cases hc : o.forceColor with
    | false => exact .inl rfl
    | true => exact .inr ⟨_, h.color hc, fun _ => rfl⟩

theorem host_applyAll (m : Mode) : (applyAll { mode := m } gs).host = o.host := by
  refine applyAll_eq_of_forall Options.host _ (fun g hg => ?_) ?_
  · cases g with
    | switch long f => cases f <;> exact .inl fun _ => rfl
    | host v => exact .inr fun _ => h.agrees _ hg
    | _ => exact .inl fun _ => rfl
  · by_cases hh : o.host = []
    · exact .inl hh.symm
    · exact .inr ⟨_, h.host hh, fun _ => rfl⟩

theorem outputDir_applyAll (m : Mode) : (applyAll { mode := m } gs).outputDir = o.outputDir := by
  refine applyAll_eq_of_forall Options.outputDir _ (fun g hg => ?_) ?_
  · cases g with
    | switch long f => cases f <;> exact .inl fun _ => rfl
    | output long v => exact .inr fun _ => h.agrees _ hg
    | _ => exact .inl fun _ => rfl
  · by_cases hd : o.outputDir = []
    · exact .inl hd.symm
    · obtain ⟨long, hm⟩ := h.output hd
      exact .inr ⟨_, hm, fun _ => rfl⟩

include hr in
theorem port_applyAll (m : Mode) : (applyAll { mode := m } gs).port = o.port := by
  have set {long : Bool} {v : Bytes} (hg : Group.port long v ∈ gs) (o' : Options) :
      ((Group.port long v).apply o').port = o.port := by
    rw [Group.apply, parseInt_of_agrees hr.port (h.agrees _ hg)]
    rfl
  refine applyAll_eq_of_forall Options.port _ (fun g hg => ?_) ?_
  · cases g with
    | switch long f => cases f <;> exact .inl fun _ => rfl
    | port long v => exact .inr (set hg)
    | _ => exact .inl fun _ => rfl
  · by_cases hp : o.port = 9876
    · exact .inl hp.symm
    · obtain ⟨long, v, hm⟩ := h.port hp
      exact .inr ⟨_, hm, set hm⟩

theorem mode_applyAll (m : Mode) : (applyAll { mode := m } gs).mode = m :=
  applyAll_eq_of_forall Options.mode m
    (fun g hg => .inl fun _ => Group.mode_apply (h.agrees g hg).kind_ne_mode) (.inl rfl)

include hr in
theorem applyAll_eq : applyAll { mode := o.mode } gs = o := by
  have set (f : Switch) := h.isSet_applyAll f o.mode
  apply Options.ext
  · exact h.mode_applyAll _
  · exact set .verbose
  · exact set .noProgress
  · exact h.forceColor_applyAll _
  · exact h.port_applyAll hr _
  · exact h.host_applyAll _
  · exact set .listen
  · exact set .recursive
  · exact set .followSymlinks
  · exact set .noZeroCopy
  · rw [paths_applyAll, h.paths, List.nil_append]
  · exact h.outputDir_applyAll _
  · exact set .noVerify

end Renders

/-- `Parse` undoes every rendering. -/
theorem parse_renders (program : Bytes) (s : Subcommand) (gs : List Group) (o : Options)
    (hr : Runnable o) (hs : s.mode = o.mode) (h : Renders o gs) :
    parse (argv program (some s) gs) {} = .ok o := by
  rw [parse_argv (begins_some s gs), bind_eq_ok]
  refine ⟨o, runAll_eq_ok_iff.mpr ⟨fun g hg => ⟨?_, fun hk => ?_⟩, ?_, ?_⟩,
    check_eq_ok_iff.mpr ⟨rfl, fun hm hp => ?_, hr.port⟩⟩
  · exact (h.agrees g hg).reads hr.port
  · rcases hr.mode with ⟨hm, -⟩ | ⟨-, hp⟩
    · exact hs.trans hm
    · rw [← h.paths, List.filterMap_eq_nil_iff] at hp
      exact absurd hk (Group.path?_eq_none_iff.mp (hp g hg))
  · exact List.pairwise_of_forall_mem_list fun g hg _ _ hk =>
      absurd hk (h.agrees g hg).kind_ne_mode
  · rw [startOptions, hs]
    exact (h.applyAll_eq hr).symm
  · rcases hr.mode with ⟨-, hp'⟩ | ⟨hm', -⟩
    · exact hp' hp
    · rw [hm'] at hm
      cases hm

/-- Values and paths may look like flags and subcommands. -/
theorem parse_lookalikes :
    parse (argv (ascii "xfer") (some .send) [.path (ascii "recv") (by decide),
        .host (ascii "-h"), .switch false .verbose, .port false (ascii "+80"),
        .path [] (by decide), .output true (ascii "--port")]) {} =
      .ok { mode := .send, host := ascii "-h", verbose := true, port := 80,
            paths := [ascii "recv", []], outputDir := ascii "--port" } := by
  refine parse_renders (ascii "xfer") .send _ _ ⟨.inl ⟨rfl, List.cons_ne_nil _ _⟩, by decide⟩ rfl ?_
  have port : IsDecimal (ascii "+80") 80 := readInteger_eq_some_nil_iff.mp (by decide)
  constructor
  · simpa [Group.Agrees, Switch.isSet] using port
  · intro f hf
    cases f with
    | verbose => exact ⟨false, by simp⟩
    | _ => cases hf
  · intro hc
    cases hc
  · simp
  · exact fun _ => ⟨true, by simp⟩
  · exact fun _ => ⟨false, ascii "+80", by simp⟩
  · rfl

/-- The long spelling of everything, paths last. -/
def render (o : Options) (hp : ∀ p ∈ o.paths, p.head? ≠ some dash) : List Group :=
  ([.verbose, .noProgress, .recursive, .followSymlinks, .noZeroCopy, .noVerify, .listen].filter
      fun f => Switch.isSet o f).map (.switch true) ++
    (if o.forceColor then [.color (ascii "always")] else []) ++
    [.host o.host, .output true o.outputDir, .port true (toDecimal o.port.toInt.toNat)] ++
    o.paths.pmap .path hp

/-- All options that a subcommand can run with can be written down. -/
theorem renders_render (hr : Runnable o) (hp : ∀ p ∈ o.paths, p.head? ≠ some dash) :
    Renders o (render o hp) where
  agrees g hg := by
    have port : IsDecimal (toDecimal o.port.toInt.toNat) o.port.toInt := by
      have := isDecimal_toDecimal o.port.toInt.toNat
      rwa [Int.toNat_of_nonneg (by have := hr.port; omega)] at this
    simp only [render, List.mem_append, List.mem_map, List.mem_filter, List.mem_pmap] at hg
    rcases hg with ((⟨f, ⟨-, hf⟩, rfl⟩ | hg) | hg) | ⟨p, hm, rfl⟩
    · exact hf
    · split at hg
      · rename_i hc
        exact List.mem_singleton.mp hg ▸ .inl ⟨rfl, hc⟩
      · cases hg
    · simp only [List.mem_cons, List.not_mem_nil, or_false] at hg
      rcases hg with rfl | rfl | rfl
      · rfl
      · rfl
      · exact port
    · exact hm
  switches f hf := by
    refine ⟨true, ?_⟩
    simp only [render, List.mem_append, List.mem_map, List.mem_filter]
    refine .inl (.inl (.inl ⟨f, ⟨?_, hf⟩, rfl⟩))
    cases f <;> first | decide | cases hf
  color hc := by simp [render, hc]
  host _ := by simp [render]
  output _ := ⟨true, by simp [render]⟩
  port _ := ⟨true, toDecimal o.port.toInt.toNat, by simp [render]⟩
  paths := by
    have switches (l : List Switch) :
        (l.map (Group.switch true)).filterMap Group.path? = [] := by
      simp [Group.path?]
    have paths (l : List Bytes) (hl : ∀ p ∈ l, p.head? ≠ some dash) :
        (l.pmap Group.path hl).filterMap Group.path? = l := by
      induction l with
      | nil => rfl
      | cons p l ih => exact congrArg (p :: ·) (ih _)
    rw [render, List.filterMap_append, List.filterMap_append, List.filterMap_append, switches, paths]
    split <;> rfl

end Xfer.Cli
