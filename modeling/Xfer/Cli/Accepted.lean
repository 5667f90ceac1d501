import Xfer.Cli.Line

/-! # What the scanner accepts

Every command line that `Parse` accepts is a subcommand, if any, and groups.
-/

namespace Xfer.Cli

open Xfer.Common (ascii)

variable {args : List Bytes} {pos : ℕ} {opts o : Options}

/-- What has been read from the position on is a group. -/
def Grouped (args : List Bytes) (pos : ℕ) (r : Except Diagnostic (ℕ × Options)) : Prop :=
  ∀ p, r = .ok p → ∃ (g : Group) (t : List Bytes), args.drop pos = g.tokens ++ t ∧
    p.1 + 1 = pos + g.tokens.length

theorem grouped_ite {c : Prop} [Decidable c] {r r' : Except Diagnostic (ℕ × Options)}
    (h : c → Grouped args pos r) (h' : ¬ c → Grouped args pos r') :
    Grouped args pos (if c then r else r') := by
  split
  · exact h ‹_›
  · exact h' ‹_›

theorem grouped_error (d : Diagnostic) : Grouped args pos (.error d) := by
  rintro _ ⟨⟩

theorem drop_eq_cons (hp : pos < args.length) :
    args.drop pos = args.getD pos [] :: args.drop (pos + 1) := by
  rw [List.drop_eq_getElem_cons hp, List.getD_eq_getElem _ _ hp]

theorem grouped_one (hp : pos < args.length) (g : Group) (h : [args.getD pos []] = g.tokens) :
    Grouped args pos (.ok (pos, o)) := by
  rintro _ ⟨⟩
  exact ⟨g, args.drop (pos + 1), h ▸ drop_eq_cons hp, by rw [← h]; rfl⟩

theorem grouped_needVal (hp : pos < args.length) {flag : Bytes} {g : Bytes → Group}
    {f : ℕ × Bytes → Options} (h : ∀ v, (g v).tokens = [args.getD pos [], v]) :
    Grouped args pos (needVal args pos flag >>= fun q => .ok (q.1, f q)) := by
  intro p hp'
  unfold needVal at hp'
  split_ifs at hp' with hl
  · cases hp'
  · cases hp'
    refine ⟨g (args.getD (pos + 1) []), args.drop (pos + 2), ?_, by rw [h]; rfl⟩
    rw [drop_eq_cons hp, drop_eq_cons (by omega : pos + 1 < args.length), h]
    rfl

theorem grouped_needInt (hp : pos < args.length) {flag : Bytes} {g : Bytes → Group}
    {f : ℕ × Int32 → Options} (h : ∀ v, (g v).tokens = [args.getD pos [], v]) :
    Grouped args pos (needInt args pos flag >>= fun q => .ok (q.1, f q)) := by
  intro p hp'
  unfold needInt at hp'
  split_ifs at hp' with hl
  · cases hp'
  · cases hn : parseInt (args.getD (pos + 1) []) with
    | none =>
      rw [hn] at hp'
      cases hp'
    | some n =>
      rw [hn] at hp'
      cases hp'
      refine ⟨g (args.getD (pos + 1) []), args.drop (pos + 2), ?_, by rw [h]; rfl⟩
      rw [drop_eq_cons hp, drop_eq_cons (by omega : pos + 1 < args.length), h]
      rfl

theorem grouped_iteration (hp : pos < args.length) :
    Grouped args pos (iteration args pos opts) := by
  have one {o : Options} (long : Bool) (f : Switch) (h : args.getD pos [] = f.token long) :
      Grouped args pos (.ok (pos, o)) := grouped_one hp (.switch long f) (by rw [h]; rfl)
  have either {o : Options} (f : Switch)
      (h : args.getD pos [] = f.token false ∨ args.getD pos [] = f.token true) :
      Grouped args pos (.ok (pos, o)) := h.elim (one false f) (one true f)
  unfold iteration
  refine grouped_ite (either .help) fun _ => ?_
  refine grouped_ite (either .version) fun _ => ?_
  refine grouped_ite (either .verbose) fun _ => ?_
  refine grouped_ite (one true .noProgress) fun _ => ?_
  refine grouped_ite (either .recursive) fun _ => ?_
  refine grouped_ite (either .followSymlinks) fun _ => ?_
  refine grouped_ite (one true .noZeroCopy) fun _ => ?_
  refine grouped_ite (one true .noVerify) fun _ => ?_
  refine grouped_ite (one true .listen) fun _ => ?_
  split
  · rename_i v hv
    have color {o : Options} : Grouped args pos (.ok (pos, o)) := by
      refine grouped_one hp (.color v) ?_
      unfold argStarts at hv
      split_ifs at hv with hs
      cases hv
      rw [Group.tokens, List.prefix_iff_eq_append.mp hs]
    exact grouped_ite (fun _ => color) fun _ => grouped_ite (fun _ => color) fun _ =>
      grouped_ite (fun _ => color) fun _ => grouped_error _
  · refine grouped_ite (fun h => grouped_needVal (g := .host) hp fun v => ?_) fun _ => ?_
    · rw [h]; rfl
    refine grouped_ite (fun h => ?_) fun _ => ?_
    · rcases h with h | h
      · exact grouped_needVal hp (g := .output false) fun v => by rw [h]; rfl
      · exact grouped_needVal hp (g := .output true) fun v => by rw [h]; rfl
    refine grouped_ite (fun h => ?_) fun _ => ?_
    · rcases h with h | h
      · exact grouped_needInt hp (g := .port false) fun v => by rw [h]; rfl
      · exact grouped_needInt hp (g := .port true) fun v => by rw [h]; rfl
    refine grouped_ite (fun h => grouped_one hp (.path _ h.1) rfl) fun _ => grouped_error _

theorem exists_groups_of_scan (h : scan args pos opts = .ok o) :
    ∃ gs : List Group, args.drop pos = gs.flatMap Group.tokens := by
  fun_induction scan args pos opts with
  | case1 => cases h
  | case2 pos opts hp p hi ih =>
    obtain ⟨g, t, hd, hlen⟩ := grouped_iteration hp p hi
    obtain ⟨gs, hgs⟩ := ih h
    refine ⟨g :: gs, ?_⟩
    rw [List.flatMap_cons, ← hgs, hlen, hd, ← List.drop_drop, hd, List.drop_left]
  | case3 pos opts hp => exact ⟨[], List.drop_eq_nil_of_le (by omega)⟩

theorem exists_subcommand {cmd : Bytes} {mode : Mode} (hd : cmd.head? ≠ some dash)
    (h : subcommand cmd = some mode) : ∃ s : Subcommand, cmd = s.token := by
  unfold subcommand at h
  split_ifs at h with h1 h2 h3 h4
  · exact ⟨.send, h1⟩
  · rcases h2 with h2 | h2
    · exact ⟨.recv, h2⟩
    · exact ⟨.receive, h2⟩
  · rcases h3 with h3 | rfl | rfl
    · exact ⟨.help, h3⟩
    · exact absurd (by decide) hd
    · exact absurd (by decide) hd
  · rcases h4 with h4 | rfl | rfl
    · exact ⟨.version, h4⟩
    · exact absurd (by decide) hd
    · exact absurd (by decide) hd

/-- Whatever `Parse` accepts is a subcommand, if any, and groups. -/
theorem exists_argv_of_parse {l : List Bytes} (h : parse l opts = .ok o) :
    ∃ program command gs, l = argv program command gs ∧ Begins command gs := by
  obtain ⟨program, a, args, rfl⟩ : ∃ program a args, l = program :: a :: args := by
    match l with
    | [] | [_] => cases h
    | program :: a :: args => exact ⟨program, a, args, rfl⟩
  rw [parse_cons (List.cons_ne_nil _ _), bind_eq_ok] at h
  obtain ⟨p, hdet, h⟩ := h
  obtain ⟨_, hscan, -⟩ := bind_eq_ok.mp h
  obtain ⟨gs, hgs⟩ := exists_groups_of_scan hscan
  simp only [detect] at hdet
  split_ifs at hdet with hd
  · cases hs : subcommand ((a :: args).getD 0 []) with
    | none =>
      rw [hs] at hdet
      cases hdet
    | some mode =>
      rw [hs] at hdet
      cases hdet
      obtain ⟨s, ha⟩ := exists_subcommand hd hs
      refine ⟨program, some s, gs, ?_, begins_some s gs⟩
      change program :: a :: args = program :: s.token :: gs.flatMap Group.tokens
      rw [← hgs, ← ha]
      rfl
  · cases hdet
    refine ⟨program, none, gs, congrArg (program :: ·) hgs, fun _ => ?_⟩
    cases gs with
    | nil => cases hgs
    | cons g t =>
      refine ⟨g, t, rfl, fun hk => hd ?_⟩
      cases g with
      | switch long f => cases f <;> cases hk
      | path q hq =>
        cases hgs
        exact hq
      | _ => cases hk

end Xfer.Cli
