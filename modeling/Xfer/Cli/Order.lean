import Xfer.Cli.Line
import Mathlib.Data.List.Pairwise
import Mathlib.Data.Set.List

/-! # The order of the arguments

The effect of a command line does not depend on where its flags stand. Whether it
is accepted does: nothing but the first argument is taken for a subcommand, and
paths are refused behind a flag that selects another mode.
-/

namespace Xfer.Cli

open Xfer.Common (ascii)

/-- A command line consists of a subcommand and groups. -/
inductive Item
  | command (s : Subcommand)
  | group (g : Group)

namespace Item

def tokens : Item → List Bytes
  | command s => [s.token]
  | group g => g.tokens

def group? : Item → Option Group
  | command _ => none
  | group g => some g

/-- What a flag is about. -/
def flag? : Item → Option Kind
  | command _ => none
  | group g => if g.kind = .path then none else some g.kind

end Item

def arguments (program : Bytes) (l : List Item) : List Bytes := program :: l.flatMap Item.tokens

def groups (l : List Item) : List Group := l.filterMap Item.group?

/-- Flags of different kinds around a subcommand, which paths follow if it is `send`. -/
structure Grammatical (l : List Item) (s : Subcommand) : Prop where
  positional : ∃ ps : List Group, l.filter (·.flag?.isNone) = .command s :: ps.map .group ∧
    (s ≠ .send → ps = [])
  distinct : (l.filterMap Item.flag?).Nodup

/-- Values can be read, the port is in its range, and `send` has a path or is not what is run. -/
structure Acceptable (l : List Item) (s : Subcommand) : Prop where
  reads : ∀ g ∈ groups l, g.Reads
  port : ∀ long v n, .port long v ∈ groups l → parseInt v = some n →
    1 ≤ n.toInt ∧ n.toInt ≤ 65535
  paths : s = .send → ∃ g ∈ groups l, g.kind = .path ∨ g.kind = .mode

/-- The subcommand comes first, and no path is behind a flag that asks for the help text or the
version. -/
structure Ordered (l : List Item) (s : Subcommand) : Prop where
  first : l.head? = some (.command s)
  paths : (groups l).Pairwise fun g h => g.kind = .mode → h.kind ≠ .path

variable {program : Bytes} {s : Subcommand} {l a b a' b' : List Item} {gs hs : List Group}
  {g h : Group} {opts o : Options}

theorem flag?_eq_none_iff {i : Item} :
    i.flag? = none ↔ (∃ s, i = .command s) ∨ ∃ g, i = .group g ∧ g.kind = .path := by
  cases i with
  | command s => simp [Item.flag?]
  | group g => simp [Item.flag?]

theorem flag?_group (hg : g.kind ≠ .path) : (Item.group g).flag? = some g.kind := if_neg hg

@[simp] theorem groups_map_group (gs : List Group) : groups (gs.map .group) = gs := by
  simp [groups, Function.comp_def, Item.group?]

@[simp] theorem groups_append (a b : List Item) : groups (a ++ b) = groups a ++ groups b :=
  List.filterMap_append

@[simp] theorem groups_group (g : Group) (b : List Item) :
    groups (.group g :: b) = g :: groups b := rfl

@[simp] theorem groups_command (s : Subcommand) (b : List Item) :
    groups (.command s :: b) = groups b := rfl

theorem exists_map_group (h : ∀ i ∈ l, ∃ g, Item.group g = i) :
    ∃ gs : List Group, gs.map .group = l := by
  have : l ∈ Set.range (List.map Item.group) := by
    rw [Set.range_list_map]
    exact h
  exact this

theorem Grammatical.split (h : Grammatical l s) :
    ∃ gs hs : List Group, l = gs.map .group ++ .command s :: hs.map .group ∧
      (∀ g ∈ gs, g.kind ≠ .path) ∧ ∀ g ∈ hs, g.kind = .path → s = .send := by
  obtain ⟨⟨ps, hl, hs⟩, -⟩ := h
  obtain ⟨a, b, rfl, ha, -, hb⟩ := List.filter_eq_cons_iff.mp hl
  have flag (i) (hi : i ∈ a) : ∃ g, Item.group g = i ∧ g.kind ≠ .path := by
    have := ha i hi
    rw [Option.isNone_iff_eq_none, flag?_eq_none_iff] at this
    cases i with
    | command s' => exact absurd (.inl ⟨s', rfl⟩) this
    | group g => exact ⟨g, rfl, fun hk => this (.inr ⟨g, rfl, hk⟩)⟩
  have rest (i) (hi : i ∈ b) (hn : i.flag? = none) : ∃ g ∈ ps, Item.group g = i := by
    have : i ∈ b.filter (·.flag?.isNone) := List.mem_filter.mpr ⟨hi, by simp [hn]⟩
    simpa [hb] using this
  obtain ⟨gs, rfl⟩ := exists_map_group fun i hi => ⟨_, (flag i hi).choose_spec.1⟩
  obtain ⟨hs', rfl⟩ : ∃ hs' : List Group, hs'.map .group = b := by
    refine exists_map_group fun i hi => ?_
    cases i with
    | command s' =>
      obtain ⟨g, -, hg⟩ := rest _ hi rfl
      exact ⟨g, hg⟩
    | group g => exact ⟨g, rfl⟩
  refine ⟨gs, hs', rfl, fun g hg => ?_, fun g hg hk => ?_⟩
  · obtain ⟨g', he, hk⟩ := flag _ (List.mem_map_of_mem hg)
    cases he
    exact hk
  · by_contra hne
    obtain ⟨g', hg', -⟩ := rest _ (List.mem_map_of_mem hg) (flag?_eq_none_iff.mpr (.inr ⟨g, rfl, hk⟩))
    rw [hs hne] at hg'
    cases hg'

theorem Grammatical.eq_of_kind_eq (hl : Grammatical l s) (hg : g ∈ groups l) (hh : h ∈ groups l)
    (hk : g.kind = h.kind) (hp : g.kind ≠ .path) : g = h := by
  have mem {g : Group} (hg : g ∈ groups l) : Item.group g ∈ l := by
    obtain ⟨i, hi, he⟩ := List.mem_filterMap.mp hg
    cases i with
    | command s => cases he
    | group g' =>
      cases he
      exact hi
  by_contra hne
  have pairwise := List.pairwise_filterMap.mp hl.distinct
  have : Std.Symm fun i j : Item => ∀ k, i.flag? = some k → ∀ k', j.flag? = some k' → k ≠ k' :=
    ⟨fun i j h k hj k' hi => (h k' hi k hj).symm⟩
  exact pairwise.forall (mem hg) (mem hh) (fun he => hne (Item.group.inj he)) _ (flag?_group hp) _
    (flag?_group (hk ▸ hp)) hk

theorem arguments_command (hs : List Group) :
    arguments program (.command s :: hs.map .group) = argv program (some s) hs := by
  simp [arguments, argv, Item.tokens, List.flatMap_map]

/-- A subcommand that does not come first is an unknown option. -/
theorem parse_late_command (hgs : ∀ g ∈ gs, g.kind ≠ .path) (hne : gs ≠ [])
    (hm : opts.mode ≠ .send) :
    parse (arguments program (gs.map .group ++ .command s :: b)) opts ≠ .ok o := by
  obtain ⟨g, t, rfl⟩ := List.exists_cons_of_ne_nil hne
  have he : arguments program ((g :: t).map .group ++ .command s :: b) =
      program :: ((g :: t).flatMap Group.tokens ++ s.token :: b.flatMap Item.tokens) := by
    simp [arguments, List.flatMap_map, Item.tokens]
  rw [he, parse_cons (by simp), List.flatMap_cons, List.append_assoc,
    detect_flag (hgs g List.mem_cons_self), ← List.append_assoc, ← List.flatMap_cons]
  change (scan _ 0 opts >>= check) ≠ _
  rw [scan_groups (g :: t) rfl]
  cases hr : runAll opts (g :: t) with
  | error f => nofun
  | ok o' =>
    obtain ⟨-, -, rfl⟩ := runAll_eq_ok_iff.mp hr
    have hm' : (applyAll opts (g :: t)).mode ≠ .send :=
      fun h => hm (mode_applyAll_eq_send_iff.mp h).1
    have hdrop : ((g :: t).flatMap Group.tokens ++ s.token :: b.flatMap Item.tokens).drop
        (0 + ((g :: t).flatMap Group.tokens).length) = s.token :: b.flatMap Item.tokens := by
      rw [Nat.zero_add, List.drop_left]
    have hi := (iteration_of_head?_ne s.head?_token hdrop).trans (if_neg hm')
    change (scan _ _ _ >>= check) ≠ _
    rw [scan_of_error (lt_length_of_drop hdrop nofun) hi]
    nofun

theorem port_apply (hg : g.kind ≠ .port) : (g.apply opts).port = opts.port := by
  cases g with
  | switch long f => cases f <;> rfl
  | port long v => exact absurd rfl hg
  | _ => rfl

theorem port_range_iff (hl : Grammatical l s) (hr : ∀ g ∈ groups l, g.Reads)
    (ho : opts.port = 9876) :
    (1 ≤ (applyAll opts (groups l)).port.toInt ∧ (applyAll opts (groups l)).port.toInt ≤ 65535) ↔
      ∀ long v n, .port long v ∈ groups l → parseInt v = some n →
        1 ≤ n.toInt ∧ n.toInt ≤ 65535 := by
  by_cases h : ∃ g ∈ groups l, g.kind = .port
  · obtain ⟨g, hg, hk⟩ := h
    obtain ⟨long, v, rfl⟩ : ∃ long v, g = .port long v := by
      cases g with
      | switch long f => cases f <;> cases hk
      | port long v => exact ⟨_, _, rfl⟩
      | _ => cases hk
    obtain ⟨n, hn⟩ := hr _ hg
    have set (o : Options) : ((Group.port long v).apply o).port = n := by simp [Group.apply, hn]
    have hport : (applyAll opts (groups l)).port = n := by
      refine applyAll_eq_of_forall Options.port n (fun g' hg' => ?_) (.inr ⟨_, hg, set⟩)
      by_cases hk' : g'.kind = .port
      · rw [← hl.eq_of_kind_eq hg hg' (hk.trans hk'.symm) (hk ▸ Kind.noConfusion)]
        exact .inr set
      · exact .inl fun o => port_apply hk'
    rw [hport]
    constructor
    · intro h long' v' n' hg' hn'
      cases hl.eq_of_kind_eq hg hg' rfl Kind.noConfusion
      cases hn.symm.trans hn'
      exact h
    · intro h
      exact h _ _ _ hg hn
  · have hport : (applyAll opts (groups l)).port = opts.port :=
      applyAll_eq_of_forall Options.port _
        (fun g hg => .inl fun o => port_apply fun hk => h ⟨g, hg, hk⟩) (.inl rfl)
    rw [hport, ho]
    exact iff_of_true (by decide) fun long v n hg _ => absurd ⟨_, hg, rfl⟩ h

/-- What is accepted does not depend on the order but for `Ordered`. -/
theorem parse_eq_ok_iff (hl : Grammatical l s) :
    parse (arguments program l) {} = .ok o ↔
      Acceptable l s ∧ Ordered l s ∧ o = applyAll { mode := s.mode } (groups l) := by
  obtain ⟨gs, hs, hl', hgs, hhs⟩ := hl.split
  cases gs with
  | cons g gs =>
    constructor
    · intro h
      rw [hl'] at h
      exact absurd h (parse_late_command hgs (List.cons_ne_nil _ _) nofun)
    · rintro ⟨-, ho, -⟩
      have := ho.first
      rw [hl'] at this
      cases this
  | nil =>
    have hgroups : groups l = hs := by simp [hl']
    have hfirst : l.head? = some (.command s) := by simp [hl']
    have hargs : arguments program l = argv program (some s) hs := by
      rw [hl']
      exact arguments_command hs
    rw [hargs, parse_argv (begins_some s hs), bind_eq_ok]
    simp only [runAll_eq_ok_iff, check_eq_ok_iff, startOptions]
    constructor
    · rintro ⟨_, ⟨hr, hw, rfl⟩, rfl, hp, hport⟩
      refine ⟨⟨fun g hg => (hr g (hgroups ▸ hg)).1, ?_, fun hsend => ?_⟩, ⟨hfirst, hgroups ▸ hw⟩,
        hgroups.symm ▸ rfl⟩
      · exact (port_range_iff hl (fun g hg => (hr g (hgroups ▸ hg)).1) rfl).mp
          (hgroups.symm ▸ hport)
      · by_contra hno
        push Not at hno
        rw [hgroups] at hno
        refine hp (mode_applyAll_eq_send_iff.mpr ⟨?_, fun g hg => (hno g hg).2⟩) ?_
        · rw [hsend]
          rfl
        · rw [paths_applyAll, List.nil_append, List.filterMap_eq_nil_iff]
          exact fun g hg => Group.path?_eq_none_iff.mpr (hno g hg).1
    · rintro ⟨ha, ho, rfl⟩
      refine ⟨_, ⟨fun g hg => ⟨ha.reads g (hgroups ▸ hg), fun hk => ?_⟩, hgroups ▸ ho.paths, rfl⟩,
        by rw [hgroups], fun hm hpaths => ?_, ?_⟩
      · rw [hhs g hg hk]
        rfl
      · obtain ⟨hsend, hmode⟩ := mode_applyAll_eq_send_iff.mp hm
        obtain ⟨g, hg, hk | hk⟩ := ha.paths (Subcommand.mode_eq_send_iff.mp hsend)
        · rw [paths_applyAll, List.nil_append, List.filterMap_eq_nil_iff] at hpaths
          exact Group.path?_eq_none_iff.mp (hpaths g (hgroups ▸ hg)) hk
        · exact hmode g (hgroups ▸ hg) hk
      · rw [← hgroups]
        exact (port_range_iff hl ha.reads rfl).mpr ha.port

/-- A group may be moved behind groups of other kinds. -/
theorem applyAll_move (gs : List Group) (hk : ∀ h ∈ hs, g.kind ≠ h.kind) :
    applyAll opts (gs ++ g :: hs) = g.apply (applyAll opts (gs ++ hs)) := by
  simp only [applyAll, List.foldl_append, List.foldl_cons]
  generalize gs.foldl Group.apply opts = o
  induction hs generalizing o with
  | nil => rfl
  | cons h hs ih =>
    rw [List.foldl_cons, List.foldl_cons, Group.apply_comm (hk h List.mem_cons_self),
      ih fun h' hh' => hk h' (List.mem_cons_of_mem _ hh')]

section Move

variable (hg : g.kind ≠ .path) (hab : a ++ b = a' ++ b')
  (hl : Grammatical (a ++ .group g :: b) s)

include hg hl in
theorem kind_ne_of_mem (hh : h ∈ groups b) : g.kind ≠ h.kind := by
  intro hk
  have hd := hl.distinct
  rw [List.filterMap_append, List.filterMap_cons_some (flag?_group hg),
    List.nodup_append, List.nodup_cons] at hd
  obtain ⟨i, hi, he⟩ := List.mem_filterMap.mp hh
  cases i with
  | command s => cases he
  | group h' =>
    cases he
    exact hd.2.1.1 (List.mem_filterMap.mpr ⟨_, hi, hk ▸ flag?_group (hk ▸ hg)⟩)

include hg hab hl in
theorem grammatical_move : Grammatical (a' ++ .group g :: b') s := by
  obtain ⟨⟨ps, hf, hs⟩, hd⟩ := hl
  have hn : (Item.group g).flag?.isNone = false := by rw [flag?_group hg]; rfl
  refine ⟨⟨ps, ?_, hs⟩, ?_⟩
  · rw [List.filter_append, List.filter_cons_of_neg (by simp [hn]), ← List.filter_append] at hf ⊢
    rw [← hab, hf]
  · rw [List.filterMap_append, List.filterMap_cons_some (flag?_group hg)] at hd ⊢
    rw [List.perm_middle.nodup_iff, ← List.filterMap_append] at hd ⊢
    rwa [← hab]

include hab in
theorem mem_groups_move : h ∈ groups (a ++ .group g :: b) ↔ h ∈ groups (a' ++ .group g :: b') := by
  have := congrArg (h ∈ groups ·) hab
  simp only [groups_append, groups_group, List.mem_append, List.mem_cons, eq_iff_iff] at this ⊢
  tauto

include hab in
theorem acceptable_move (h : Acceptable (a ++ .group g :: b) s) :
    Acceptable (a' ++ .group g :: b') s := by
  obtain ⟨hr, hp, hs⟩ := h
  refine ⟨fun h hh => hr h ((mem_groups_move hab).mpr hh),
    fun long v n hh => hp long v n ((mem_groups_move hab).mpr hh), fun he => ?_⟩
  obtain ⟨h, hh, hk⟩ := hs he
  exact ⟨h, (mem_groups_move hab).mp hh, hk⟩

include hg hab hl in
theorem applyAll_groups_move : applyAll opts (groups (a ++ .group g :: b)) =
    applyAll opts (groups (a' ++ .group g :: b')) := by
  simp only [groups_append, groups_group]
  rw [applyAll_move _ fun h => kind_ne_of_mem hg hl,
    applyAll_move _ fun h => kind_ne_of_mem hg (grammatical_move hg hab hl), ← groups_append,
    ← groups_append, hab]

end Move

/-- Moving a flag changes neither the verdict nor the options of a line that is accepted, exactly
if the line is unacceptable in any order or both lines are ordered or neither is. -/
theorem parse_move_iff (program : Bytes) (s : Subcommand) (a b a' b' : List Item) (g : Group)
    (hg : g.kind ≠ .path) (hab : a ++ b = a' ++ b') (hl : Grammatical (a ++ .group g :: b) s) :
    (parse (arguments program (a ++ .group g :: b)) {}).toOption =
        (parse (arguments program (a' ++ .group g :: b')) {}).toOption ↔
      (Acceptable (a ++ .group g :: b) s →
        (Ordered (a ++ .group g :: b) s ↔ Ordered (a' ++ .group g :: b') s)) := by
  have some_iff {l : List Item} (hl : Grammatical l s) (o : Options) :
      (parse (arguments program l) {}).toOption = some o ↔
        Acceptable l s ∧ Ordered l s ∧ o = applyAll { mode := s.mode } (groups l) := by
    rw [← parse_eq_ok_iff hl]
    cases parse (arguments program l) {} <;> simp [Except.toOption]
  have hl' := grammatical_move hg hab hl
  constructor
  · intro h ha
    have ha' := acceptable_move hab ha
    constructor
    · intro ho
      have := (some_iff hl _).mpr ⟨ha, ho, rfl⟩
      exact ((some_iff hl' _).mp (h ▸ this)).2.1
    · intro ho
      have := (some_iff hl' _).mpr ⟨ha', ho, rfl⟩
      exact ((some_iff hl _).mp (h.symm ▸ this)).2.1
  · intro h
    refine Option.ext fun o => ?_
    rw [some_iff hl, some_iff hl', applyAll_groups_move hg hab hl]
    constructor
    · rintro ⟨ha, ho, rfl⟩
      exact ⟨acceptable_move hab ha, (h ha).mp ho, rfl⟩
    · rintro ⟨ha', ho, rfl⟩
      have ha := acceptable_move hab.symm ha'
      exact ⟨ha, (h ha).mpr ho, rfl⟩

theorem grammatical_recv_verbose :
    Grammatical ([.command .recv] ++ .group (.switch false .verbose) :: []) .recv where
  positional := ⟨[], rfl, fun _ => rfl⟩
  distinct := by decide

theorem parse_move_recv_iff :
    (parse (arguments (ascii "xfer") ([.command .recv] ++ .group (.switch false .verbose) :: []))
        {}).toOption =
      (parse (arguments (ascii "xfer") ([] ++ .group (.switch false .verbose) :: [.command .recv]))
        {}).toOption ↔
      (Acceptable ([.command .recv] ++ .group (.switch false .verbose) :: []) .recv →
        (Ordered ([.command .recv] ++ .group (.switch false .verbose) :: []) .recv ↔
          Ordered ([] ++ .group (.switch false .verbose) :: [.command .recv]) .recv)) :=
  parse_move_iff (ascii "xfer") .recv [.command .recv] [] [] [.command .recv]
    (.switch false .verbose) nofun rfl grammatical_recv_verbose

/-- `xfer recv -v` is accepted, `xfer -v recv` is not. -/
theorem verbose_in_front_refused :
    arguments (ascii "xfer") ([.command .recv] ++ .group (.switch false .verbose) :: []) =
        ["xfer", "recv", "-v"].map ascii ∧
      arguments (ascii "xfer") ([] ++ .group (.switch false .verbose) :: [.command .recv]) =
        ["xfer", "-v", "recv"].map ascii ∧
      Grammatical ([.command .recv] ++ .group (.switch false .verbose) :: []) .recv ∧
      (parse (["xfer", "recv", "-v"].map ascii) {}).toOption =
        some { mode := .receive, verbose := true } ∧
      (parse (["xfer", "-v", "recv"].map ascii) {}).toOption = none := by
  refine ⟨rfl, rfl, grammatical_recv_verbose, ?_, ?_⟩
  · have : parse (["xfer", "recv", "-v"].map ascii) {} = _ :=
      parse_argv (begins_some .recv [.switch false .verbose])
    rw [this]
    rfl
  · have late (o : Options) : parse (arguments (ascii "xfer")
        ([Group.switch false .verbose].map .group ++ .command .recv :: [])) {} ≠ .ok o :=
      parse_late_command (by simp [Group.kind]) (List.cons_ne_nil _ _) (by decide)
    cases hp : parse (["xfer", "-v", "recv"].map ascii) {} with
    | error f => rfl
    | ok o => exact absurd hp (late o)

end Xfer.Cli
