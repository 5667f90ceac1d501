import Xfer.Transfer.Scan
import Mathlib.Data.List.Sort

/-! # What the manifest holds

Each entry is there because of a file that a source yields, under the relative
path from the base of that source to the file, and each such file has an entry
with its relative path. Relative paths in the manifest are strictly ascending.
-/

namespace Xfer.Transfer

open Posix FileSystem

variable {fs : FileSystem} {options : SenderOptions} {paths : List Bytes} {p q pre s : Bytes}
  {b k : Key} {c : Collected}

theorem eraseDotSlash_eq (h : ∀ t, s ≠ 0x2E :: 0x2F :: t) : eraseDotSlash s = s := by
  unfold eraseDotSlash
  split
  · exact absurd rfl (h _)
  · rfl

theorem eraseDotSlash_of_notMem (h : slash ∉ s) : eraseDotSlash s = s := by
  refine eraseDotSlash_eq fun t ht => h ?_
  rw [ht]
  exact List.mem_cons_of_mem _ List.mem_cons_self

theorem slash_notMem_filename (p : Bytes) : slash ∉ filename p := by
  unfold filename
  split
  · simp
  · by_cases h : names p = []
    · simp [h]
    · rw [List.getLastD_eq_getLast?, List.getLast?_eq_some_getLast h]
      exact slash_notMem_of_mem_names (List.getLast_mem h)

theorem eraseDotSlash_foldl_join {n : Bytes} {ns : List Bytes} (hn : Plain n) (hd : n ≠ dot)
    (hns : ∀ n ∈ ns, Plain n) : eraseDotSlash (ns.foldl join n) = ns.foldl join n := by
  have hpre : ∀ {p : Bytes}, n <+: p → n <+: ns.foldl join p := by
    induction ns with
    | nil => exact id
    | cons n' ns ih =>
      intro p hp
      obtain ⟨hn', hns⟩ := List.forall_mem_cons.mp hns
      exact ih hns (hp.trans (prefix_join_name hn'))
  refine eraseDotSlash_eq fun t ht => ?_
  obtain ⟨rest, hr⟩ := hpre (List.prefix_refl n)
  rw [ht] at hr
  rcases n with _ | ⟨c, _ | ⟨c', n⟩⟩
  · exact hn.1 rfl
  · obtain ⟨rfl, -⟩ := List.cons_eq_cons.mp hr
    exact hd rfl
  · obtain ⟨-, hr⟩ := List.cons_eq_cons.mp hr
    obtain ⟨rfl, -⟩ := List.cons_eq_cons.mp hr
    exact hn.2 (List.mem_cons_of_mem _ List.mem_cons_self)

theorem eraseDotSlash_route (hk : ∀ n ∈ k, ValidName n) :
    eraseDotSlash (joinAll (route b k)) = joinAll (route b k) := by
  have hplain : ∀ n ∈ route b k, Plain n := fun n hn => (plain_of_mem_route hk n hn).1
  obtain ⟨n, ns, hr⟩ := List.exists_cons_of_ne_nil (route_ne_nil b k)
  by_cases hd : n = dot
  · -- only the way from a place to itself starts with a dot
    have hkb : k = b := by
      by_contra hne
      unfold route at hr
      rw [if_neg hne] at hr
      have hm : n ∈ List.replicate (dropCommon k b).2.length dotdot ++ (dropCommon k b).1 :=
        hr ▸ List.mem_cons_self
      obtain ⟨cs, hkc, -⟩ := dropCommon_spec k b
      rcases List.mem_append.mp hm with hm | hm
      · rw [List.eq_of_mem_replicate hm] at hd
        exact absurd hd (by decide)
      · exact (hk n (hkc ▸ List.mem_append_right _ hm)).2.1 hd
    rw [route, if_pos hkb]
    rfl
  · rw [hr] at hplain ⊢
    obtain ⟨hn, hns⟩ := List.forall_mem_cons.mp hplain
    rw [joinAll, List.foldl_cons, join_nil_left]
    exact eraseDotSlash_foldl_join hn hd hns

/-- The relative path under which the file at `k`, found as `q`, is entered. -/
def relName (fs : FileSystem) (pre q : Bytes) (k : Key) : Bytes :=
  match fs.find pre with
  | some b => joinAll (route b k)
  | none => filename q

theorem relPathOf_eq (hq : fs.locate q = some k) (hk : fs.lookup k ≠ none) :
    relPathOf fs q pre = relName fs pre q k := by
  have hv := validName_of_lookup_ne_none hk
  unfold relPathOf relName
  cases hp : fs.find pre with
  | none =>
    have hne : ¬ (pre ≠ [] ∧ fs.pathExists pre = true) := by
      rintro ⟨-, he⟩
      obtain ⟨b, hb⟩ := pathExists_iff_find.mp he
      rw [hp] at hb
      cases hb
    simp only [if_neg hne, if_true, eraseDotSlash_of_notMem (slash_notMem_filename q)]
  | some b =>
    obtain ⟨hl, hb⟩ := find_eq_some.mp hp
    have hpre : pre ≠ [] := by
      rintro rfl
      exact absurd rfl (locate_eq_walk hl).1
    have hex : fs.pathExists pre = true := pathExists_iff.mpr ⟨b, hl, hb⟩
    have hne : joinAll (route b k) ≠ [] :=
      joinAll_ne_nil (fun n hn => (plain_of_mem_route hv n hn).1) (route_ne_nil b k)
    simp only [if_pos (And.intro hpre hex), relative_eq hq hk hl hb, if_neg hne,
      eraseDotSlash_route hv]

theorem collectFile_eq_some : collectFile fs pre q = some c ↔ ∃ k d, fs.locate q = some k ∧
    fs.lookup k = some (.file d) ∧ relName fs pre q k ≠ [] ∧
    c = ⟨q, { relPath := relName fs pre q k, size := UInt64.ofNat d.length }⟩ := by
  unfold collectFile fileSize status
  cases hl : fs.locate q with
  | none => simp
  | some k =>
    rw [Option.bind_some]
    rcases hk : fs.lookup k with _ | ⟨d | _ | t⟩
    · simp [hk]
    · simp only [relPathOf_eq hl (by simp [hk] : fs.lookup k ≠ none)]
      split
      · rename_i he
        simp [hk, he]
      · rename_i he
        constructor
        · rintro ⟨⟩
          exact ⟨k, d, rfl, hk, he, rfl⟩
        · rintro ⟨k', d', hk', hd', -, rfl⟩
          obtain rfl := Option.some.inj hk'
          obtain ⟨⟩ := hk.symm.trans hd'
          rfl
    · simp [hk]
    · simp [hk]

theorem filename_ne_nil {d : Bytes} (h0 : 0 ∉ q) (hq : fs.locate q = some k)
    (hk : fs.lookup k = some (.file d)) : filename q ≠ [] := by
  obtain ⟨-, hw⟩ := locate_eq_walk hq
  rw [cstr_eq_self h0] at hw
  have hnot : fs.lookup k ≠ some .dir := by simp [hk]
  have hstart : fs.lookup (fs.start q) = some .dir := by
    unfold start
    split <;> simp
  by_cases hn : names q = []
  · rw [pieces, hn, if_neg (by simp), List.append_nil, walk_nil, Option.some.injEq] at hw
    exact absurd (hw ▸ hstart) hnot
  · by_cases hs : endsWithSlash q
    · rw [pieces, if_pos ⟨hs, hn⟩] at hw
      obtain ⟨m, k', -, hd⟩ := exists_walk_of_append hw
      have hdir := lookup_of_walk_cons hd
      rw [walk_dot hdir, walk_nil, Option.some.injEq] at hd
      exact absurd (hd ▸ hdir) hnot
    · unfold filename
      rw [if_neg hs, List.getLastD_eq_getLast?, List.getLast?_eq_some_getLast hn]
      exact ne_nil_of_mem_names (List.getLast_mem hn)

theorem relName_ne_nil {d : Bytes} (h0 : 0 ∉ q) (hq : fs.locate q = some k)
    (hk : fs.lookup k = some (.file d)) : relName fs pre q k ≠ [] := by
  unfold relName
  cases fs.find pre with
  | none => exact filename_ne_nil h0 hq hk
  | some b =>
    have hv := validName_of_lookup_ne_none (by simp [hk] : fs.lookup k ≠ none)
    exact joinAll_ne_nil (fun n hn => (plain_of_mem_route hv n hn).1) (route_ne_nil b k)

/-- What relative paths of files from a source are relative to. -/
def base (fs : FileSystem) (options : SenderOptions) (p : Bytes) : Bytes :=
  if options.stripPrefix = [] then if fs.isRegularFile p then parentPath p else p
  else options.stripPrefix

/-- The manifest may hold the entry because of the source. -/
def Because (fs : FileSystem) (options : SenderOptions) (p : Bytes) (c : Collected) : Prop :=
  Yields fs options p c.onDisk ∧ collectFile fs (base fs options p) c.onDisk = some c

theorem Because.spec (h : Because fs options p c) : ∃ k b, fs.locate c.onDisk = some k ∧
    fs.lookup k = some (.file b) ∧
    c.entry = { relPath := relName fs (base fs options p) c.onDisk k,
                size := UInt64.ofNat b.length } := by
  obtain ⟨k, b, hl, hk, -, hc⟩ := collectFile_eq_some.mp h.2
  exact ⟨k, b, hl, hk, congrArg Collected.entry hc⟩

theorem isDirectory_of_isRegularFile (h : fs.isRegularFile p) : fs.isDirectory p = false := by
  obtain ⟨k, d, hl, hk⟩ := isRegularFile_iff.mp h
  rw [isDirectory, status, hl, Option.bind_some, hk]
  rfl

theorem pathExists_of_isRegularFile (h : fs.isRegularFile p) : fs.pathExists p := by
  obtain ⟨k, d, hl, hk⟩ := isRegularFile_iff.mp h
  exact pathExists_iff.mpr ⟨k, hl, by simp [hk]⟩

theorem collectPath_eq_none : collectPath fs options p = none ↔ ¬ fs.pathExists p := by
  unfold collectPath
  split_ifs <;> simp_all

theorem collectPath_file (h : fs.isRegularFile p) :
    collectPath fs options p = some (collectFile fs (base fs options p) p).toList := by
  unfold collectPath base
  rw [if_neg (not_not.mpr (pathExists_of_isRegularFile h)), if_pos h, if_pos h]

theorem collectPath_directory (h : fs.isDirectory p) : collectPath fs options p =
    some (if options.recursive then (fs.recursiveDirectory options.followSymlinks p).filterMap
      fun q => if fs.isRegularFile q then collectFile fs (base fs options p) q else none
    else []) := by
  have hex : fs.pathExists p := by
    obtain ⟨k, hl, hk⟩ := isDirectory_iff.mp h
    exact pathExists_iff.mpr ⟨k, hl, by simp [hk]⟩
  have hreg : ¬ fs.isRegularFile p := fun hr => by
    rw [isDirectory_of_isRegularFile hr] at h
    cases h
  unfold collectPath base
  rw [if_neg (not_not.mpr hex), if_neg hreg, if_pos h, if_neg hreg]
  by_cases hr : options.recursive
  · rw [if_neg (not_not.mpr hr), if_pos hr]
  · rw [if_pos hr, if_neg hr]

theorem mem_collectPath {cs : List Collected} (h : collectPath fs options p = some cs) :
    c ∈ cs ↔ Because fs options p c := by
  by_cases hreg : fs.isRegularFile p
  · rw [collectPath_file hreg, Option.some.injEq] at h
    rw [← h, Option.mem_toList]
    constructor
    · intro hc
      obtain ⟨k, d, -, -, -, rfl⟩ := collectFile_eq_some.mp hc
      exact ⟨.self hreg, hc⟩
    · rintro ⟨hy, hc⟩
      generalize c.onDisk = q at hy hc
      cases hy with
      | self => exact hc
      | below _ hd => simp [isDirectory_of_isRegularFile hreg] at hd
  · by_cases hdir : fs.isDirectory p
    · rw [collectPath_directory hdir, Option.some.injEq] at h
      rw [← h]
      constructor
      · intro hc
        split_ifs at hc with hrec
        · obtain ⟨q, hq, hc⟩ := List.mem_filterMap.mp hc
          split_ifs at hc with hr
          obtain ⟨k, d, -, -, -, rfl⟩ := collectFile_eq_some.mp hc
          exact ⟨.below q hdir hrec hr hq, hc⟩
        · cases hc
      · rintro ⟨hy, hc⟩
        generalize hq : c.onDisk = q at hy hc
        cases hy with
        | self hr => exact absurd hr hreg
        | below _ _ hrec hr hm =>
          rw [if_pos hrec]
          exact List.mem_filterMap.mpr ⟨q, hm, by rw [if_pos hr, hc]⟩
    · have hcs : cs = [] := by
        unfold collectPath at h
        rw [if_neg hreg, if_neg hdir] at h
        split_ifs at h
        exact (Option.some.inj h).symm
      rw [hcs]
      constructor
      · exact fun hc => absurd hc List.not_mem_nil
      · rintro ⟨hy, -⟩
        cases hy with
        | self hr => exact absurd hr hreg
        | below _ hd => exact absurd hd hdir

theorem collectPaths_eq_none :
    collectPaths fs options paths = none ↔ ∃ p ∈ paths, ¬ fs.pathExists p := by
  induction paths with
  | nil => simp [collectPaths]
  | cons p paths ih =>
    have hp : collectPath fs options p = none ↔ ¬ fs.pathExists p := collectPath_eq_none
    simp only [collectPaths_cons, List.mem_cons, exists_eq_or_imp, ← ih, ← hp]
    rcases collectPath fs options p with _ | cs
    · simp
    · rcases collectPaths fs options paths with _ | out <;> simp

theorem mem_collectPaths {out : List Collected} (h : collectPaths fs options paths = some out) :
    c ∈ out ↔ ∃ p ∈ paths, Because fs options p c := by
  induction paths generalizing out with
  | nil =>
    obtain rfl : [] = out := Option.some.inj h
    simp
  | cons p paths ih =>
    rw [collectPaths_cons] at h
    cases hp : collectPath fs options p with
    | none => simp [hp] at h
    | some cs =>
      cases hps : collectPaths fs options paths with
      | none => simp [hp, hps] at h
      | some out' =>
        simp only [hp, hps, Option.some.injEq] at h
        simp only [← h, List.mem_append, mem_collectPath hp, ih hps, List.mem_cons, exists_eq_or_imp]

section Unique

theorem relPath_lt_of_not_lt {a b : Bytes} (h : ¬ b < a) (hne : a ≠ b) : a < b :=
  (List.le_iff_lt_or_eq.mp h).resolve_right hne

theorem unique_sublist (l : List Collected) : (unique l).Sublist l := List.destutter_sublist _ _

theorem exists_mem_unique {l : List Collected} (hc : c ∈ l) :
    ∃ c' ∈ unique l, c'.entry.relPath = c.entry.relPath := by
  cases l with
  | nil => cases hc
  | cons a l =>
    unfold unique
    rw [List.destutter_cons']
    induction l generalizing a c with
    | nil =>
      obtain rfl := List.mem_singleton.mp hc
      exact ⟨c, List.mem_singleton_self c, rfl⟩
    | cons b l ih =>
      rw [List.destutter'_cons]
      split
      · rcases List.mem_cons.mp hc with rfl | hc
        · exact ⟨c, List.mem_cons_self, rfl⟩
        · obtain ⟨c', hc', he⟩ := ih b hc
          exact ⟨c', List.mem_cons_of_mem _ hc', he⟩
      · rename_i hab
        rw [ne_eq, not_not] at hab
        rcases List.mem_cons.mp hc with rfl | hc
        · exact ih c List.mem_cons_self
        · rcases List.mem_cons.mp hc with rfl | hc
          · obtain ⟨c', hc', he⟩ := ih a List.mem_cons_self
            exact ⟨c', hc', he.trans hab⟩
          · exact ih a (List.mem_cons_of_mem _ hc)

/-- After sorting, the relative paths that `std::unique` leaves are strictly ascending. -/
theorem unique_pairwise {l : List Collected}
    (h : l.Pairwise fun a b => ¬ b.entry.relPath < a.entry.relPath) :
    (unique l).Pairwise fun a b => a.entry.relPath < b.entry.relPath := by
  have hle := h.sublist (unique_sublist l)
  have hne : (unique l).IsChain fun a b => a.entry.relPath ≠ b.entry.relPath :=
    List.isChain_destutter _ l
  have htrans : ∀ {a b c : Collected}, a.entry.relPath < b.entry.relPath →
      b.entry.relPath < c.entry.relPath → a.entry.relPath < c.entry.relPath := List.lt_trans
  generalize unique l = u at hle hne
  induction u with
  | nil => exact .nil
  | cons a u ih =>
    obtain ⟨ha, hle⟩ := List.pairwise_cons.mp hle
    refine List.pairwise_cons.mpr ⟨fun c hc => ?_, ih hle hne.tail⟩
    cases u with
    | nil => cases hc
    | cons b u =>
      have hab := relPath_lt_of_not_lt (ha b List.mem_cons_self) (List.isChain_cons_cons.mp hne).1
      rcases List.mem_cons.mp hc with rfl | hc
      · exact hab
      · exact htrans hab ((List.pairwise_cons.mp (ih hle hne.tail)).1 c hc)

end Unique

variable {std : StdSort} {items : List Collected}

theorem selected_eq_none :
    selected std fs options paths = none ↔ ∃ p ∈ paths, ¬ fs.pathExists p := by
  rw [selected, Option.map_eq_map, Option.map_eq_none_iff, collectPaths_eq_none]

theorem selected_ne_none (h : ∀ p ∈ paths, fs.pathExists p) :
    selected std fs options paths ≠ none := fun hnone => by
  obtain ⟨p, hp, hno⟩ := selected_eq_none.mp hnone
  exact hno (h p hp)

theorem because_of_mem_selected (h : selected std fs options paths = some items) (hc : c ∈ items) :
    ∃ p ∈ paths, Because fs options p c := by
  obtain ⟨out, ho, rfl⟩ := Option.map_eq_some_iff.mp h
  have hs := (std.perm out).subset ((unique_sublist _).subset hc)
  exact (mem_collectPaths ho).mp hs

/-- Every file that a source yields has an item with its relative path. -/
theorem exists_mem_selected (h : selected std fs options paths = some items) (hp : p ∈ paths)
    (hc : Because fs options p c) : ∃ c' ∈ items, c'.entry.relPath = c.entry.relPath := by
  obtain ⟨out, ho, rfl⟩ := Option.map_eq_some_iff.mp h
  have hm : c ∈ std.sort out := (std.perm out).symm.subset ((mem_collectPaths ho).mpr ⟨p, hp, hc⟩)
  exact exists_mem_unique hm

theorem selected_pairwise (h : selected std fs options paths = some items) :
    items.Pairwise fun a b => a.entry.relPath < b.entry.relPath := by
  obtain ⟨out, -, rfl⟩ := Option.map_eq_some_iff.mp h
  exact unique_pairwise (std.sorted out)

instance : Std.Total fun a b : Collected => a.entry.relPath ≤ b.entry.relPath :=
  ⟨fun _ _ => List.le_total _ _⟩

instance : IsTrans Collected fun a b => a.entry.relPath ≤ b.entry.relPath :=
  ⟨fun _ _ _ => List.le_trans⟩

/-- One of the functions that sort. -/
def insertionSort : StdSort where
  sort := List.insertionSort fun a b => a.entry.relPath ≤ b.entry.relPath
  perm := List.perm_insertionSort _
  sorted := List.pairwise_insertionSort _

end Xfer.Transfer
