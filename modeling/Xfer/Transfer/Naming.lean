import Xfer.Net.Liveness
import Xfer.Transfer.Emission
import Xfer.Transfer.Grammar

/-! # What the sender names

The relative paths of the manifest against the check that the receiver makes of
them. They pass it exactly as far as the files lie below what their paths are
made relative to.
-/

namespace Xfer.Transfer

open Net Posix FileSystem Process Code

variable {f : Faults} {s : Refs} {w : Side} {fs : FileSystem} {options : SenderOptions}
  {paths : List Bytes} {p q : Bytes} {k : Key} {ns : List Bytes} {std : StdSort}
  {items : List Collected} {c : Collected}

/-- The receiver accepts the path, whatever its output directory is. -/
def Acceptable (rel : Bytes) : Prop := ∀ out, validateAndJoin out rel = .ok (join out rel)

/-- Taken from a directory without links in it, the path leads below it, if anywhere. -/
def NamesBelow (rel : Bytes) : Prop :=
  ∀ (fs : FileSystem) (out : Bytes) (o k : Key), fs.locate out = some o →
    fs.lookup o = some .dir → 0 ∉ out → fs.NoLinks o → fs.locate (join out rel) = some k →
    ∃ ns, ns ≠ [] ∧ k = o ++ ns

theorem acceptable_iff : Acceptable rel ↔
    isAbsolute rel = false ∧ dotdot ∉ components rel ∧ backslash ∉ components rel := by
  unfold Acceptable
  simp only [validateAndJoin_iff, and_true, forall_const]

theorem acceptable_joinAll (hns : ∀ n ∈ ns, Plain n) :
    Acceptable (joinAll ns) ↔ dotdot ∉ ns ∧ backslash ∉ ns := by
  rw [acceptable_iff, ← mem_names_iff (by decide), ← mem_names_iff (by decide), names_joinAll hns]
  exact and_iff_right (isAbsolute_joinAll hns)

theorem namesBelow_joinAll (hns : ∀ n ∈ ns, ValidName n) (hne : ns ≠ []) :
    NamesBelow (joinAll ns) := by
  intro fs out o k ho hd h0 hl hk
  obtain ⟨m, hm⟩ := locate_join_joinAll ho hd h0
  rw [hm ns fun n hn => ⟨(hns n hn).plain, (hns n hn).2.2.2.2⟩] at hk
  exact ⟨ns, hne, walk_validNames hl hns hk⟩

theorem not_namesBelow_dot : ¬ NamesBelow dot := by
  intro h
  obtain ⟨ns, hne, hk⟩ := h .empty rootName [] [] (by decide) rfl (by decide) (noLinks_empty [])
    (by decide)
  exact hne hk.symm

theorem validName_filename {d : Bytes} (h0 : 0 ∉ q) (hq : fs.locate q = some k)
    (hk : fs.lookup k = some (.file d)) : ValidName (filename q) := by
  have hne := filename_ne_nil h0 hq hk
  have hslash : endsWithSlash q = false := by
    rw [Bool.eq_false_iff]
    exact fun hs => hne (by rw [filename, if_pos hs])
  have hnames : names q ≠ [] := fun hn => hne (by simp [filename, hn])
  obtain ⟨init, n, hn⟩ := (List.eq_nil_or_concat (names q)).resolve_left hnames
  rw [List.concat_eq_append] at hn
  have hf : filename q = n := by simp [filename, hslash, hn]
  have hmem : n ∈ names q := by simp [hn]
  obtain ⟨-, hw⟩ := locate_eq_walk hq
  rw [cstr_eq_self h0, pieces, hn, if_neg (by simp [hslash]), List.append_nil] at hw
  obtain ⟨m, k', -, hlast⟩ := exists_walk_of_append hw
  have hdir := lookup_of_walk_cons hlast
  have hnot : fs.lookup k ≠ some .dir := by simp [hk]
  rw [hf]
  refine ⟨hf ▸ hne, ?_, ?_, slash_notMem_of_mem_names hmem, fun hz => h0 ?_⟩
  · rintro rfl
    rw [walk_dot hdir, walk_nil, Option.some.injEq] at hlast
    exact hnot (hlast ▸ hdir)
  · rintro rfl
    rw [walk_dotdot hdir, walk_nil, Option.some.injEq] at hlast
    exact hnot (hlast ▸ dropLast_dir hdir)
  · exact mem_of_mem_names hmem hz

/-- The file at `k`, found as `q`, lies below what relative paths are relative to, and no name on
the way is one that the receiver refuses. Without anything to be relative to, its name counts. -/
def Inside (fs : FileSystem) (base q : Bytes) (k : Key) : Prop :=
  match fs.find base with
  | some b => ∃ ns, ns ≠ [] ∧ k = b ++ ns ∧ backslash ∉ ns
  | none => filename q ≠ backslash

/-- The way to a place has no step up and is not empty exactly if the place lies below. -/
theorem route_iff {b : Key} (hk : ∀ n ∈ k, ValidName n) :
    (dotdot ∉ route b k ∧ backslash ∉ route b k ∧ route b k ≠ [dot]) ↔
      ∃ ns, ns ≠ [] ∧ k = b ++ ns ∧ backslash ∉ ns := by
  constructor
  · rintro ⟨hdd, hbs, hdot⟩
    have hne : k ≠ b := fun he => hdot (by rw [route, if_pos he])
    obtain ⟨cs, hkc, hbc⟩ := dropCommon_spec k b
    rw [route, if_neg hne] at hdd hbs
    have hup : (dropCommon k b).2 = [] := by
      by_contra h
      refine hdd (List.mem_append_left _ (List.mem_replicate.mpr ⟨?_, rfl⟩))
      exact fun h0 => h (List.length_eq_zero_iff.mp h0)
    rw [hup, List.append_nil] at hbc
    rw [← hbc] at hkc
    refine ⟨_, fun h => hne ?_, hkc, fun h => hbs (List.mem_append_right _ h)⟩
    rw [hkc, h, List.append_nil]
  · rintro ⟨ns, hne, rfl, hbs⟩
    have hv : ∀ n ∈ ns, ValidName n := fun n hn => hk n (List.mem_append_right _ hn)
    rw [route_below b hne]
    exact ⟨fun h => (hv _ h).2.2.1 rfl, hbs, fun h => (hv dot (by simp [h])).2.1 rfl⟩

/-- The relative path of a file is good exactly if the file lies inside. -/
theorem relName_good_iff {d base : Bytes} (h0 : 0 ∉ q) (hq : fs.locate q = some k)
    (hk : fs.lookup k = some (.file d)) :
    (Acceptable (relName fs base q k) ∧ NamesBelow (relName fs base q k)) ↔
      Inside fs base q k := by
  have hv := validName_of_lookup_ne_none (by simp [hk] : fs.lookup k ≠ none)
  unfold relName Inside
  cases fs.find base with
  | none =>
    have hf := validName_filename h0 hq hk
    have hall : ∀ n ∈ [filename q], ValidName n := by simpa using hf
    have hj : joinAll [filename q] = filename q := by simp [joinAll]
    have hacc := acceptable_joinAll fun n hn => (hall n hn).plain
    have hbelow := namesBelow_joinAll hall (by simp)
    rw [hj] at hacc hbelow
    rw [hacc]
    constructor
    · rintro ⟨⟨-, hb⟩, -⟩ he
      exact hb (by simp [he])
    · intro hb
      refine ⟨⟨?_, ?_⟩, hbelow⟩
      · simpa using Ne.symm hf.2.2.1
      · simpa using Ne.symm hb
  | some b =>
    have hplain : ∀ n ∈ route b k, Plain n := fun n hn => (plain_of_mem_route hv n hn).1
    simp only
    rw [acceptable_joinAll hplain, ← route_iff hv]
    constructor
    · rintro ⟨⟨hdd, hbs⟩, hbelow⟩
      refine ⟨hdd, hbs, fun hdot => not_namesBelow_dot ?_⟩
      rw [hdot] at hbelow
      exact hbelow
    · rintro ⟨hdd, hbs, hdot⟩
      refine ⟨⟨hdd, hbs⟩, ?_⟩
      obtain ⟨ns, hne, rfl, -⟩ := (route_iff hv).mp ⟨hdd, hbs, hdot⟩
      rw [route_below b hne]
      exact namesBelow_joinAll (fun n hn => hv n (List.mem_append_right _ hn)) hne

theorem Yields.zero_notMem (h : Yields fs options p q) (h0 : 0 ∉ p) : 0 ∉ q := by
  cases h with
  | self => exact h0
  | below _ _ _ _ hm =>
    obtain ⟨ns, hns, rfl⟩ := validNames_of_mem_listing hm
    exact zero_notMem_foldl_join (fun n hn => ⟨(hns n hn).plain, (hns n hn).2.2.2.2⟩) h0

theorem Yields.exists_mem (h : selected std fs options paths = some items) (hp : p ∈ paths)
    (h0 : 0 ∉ p) (hy : Yields fs options p q) (hq : fs.locate q = some k) :
    ∃ c ∈ items, c.entry.relPath = relName fs (base fs options p) q k := by
  have hreg : fs.isRegularFile q := by cases hy <;> assumption
  obtain ⟨k', d, hl, hk⟩ := isRegularFile_iff.mp hreg
  obtain ⟨⟩ := hq.symm.trans hl
  have hne : relName fs (base fs options p) q k ≠ [] := relName_ne_nil (hy.zero_notMem h0) hq hk
  have hc := collectFile_eq_some.mpr ⟨k, d, hq, hk, hne, rfl⟩
  exact exists_mem_selected (c := ⟨q, _⟩) h hp ⟨hy, hc⟩

theorem always_collectFiles_selected (hf : ¬ f.scan) (hex : ∀ p ∈ paths, w.host.fs.pathExists p) :
    Always f (collectFiles std options paths) s w fun es _ _ =>
      ∃ items, selected std w.host.fs options paths = some items ∧
        es = items.map Collected.entry := by
  refine wp_mono (always_collectFiles hf) ?_
  rintro es _ _ ⟨-, rfl, -⟩
  have hsome : selected std w.host.fs options paths ≠ none := selected_ne_none hex
  obtain ⟨items, hsel⟩ := Option.ne_none_iff_exists'.mp hsome
  exact ⟨items, hsel, by rw [hsel]; rfl⟩

/-- Where the scan does not fail, the receiver accepts every relative path of the manifest, and each
names something below the output directory, exactly if every file that the sources yield lies inside of what its path is
made relative to. -/
theorem collected_good_iff (f : Faults) (hf : ¬ f.scan) (std : StdSort) (options : SenderOptions)
    (paths : List Bytes) (s : Refs) (w : Side) (hz : ∀ p ∈ paths, 0 ∉ p)
    (hex : ∀ p ∈ paths, w.host.fs.pathExists p) :
    Always f (collectFiles std options paths) s w fun es _ _ =>
      (∀ e ∈ es, Acceptable e.relPath ∧ NamesBelow e.relPath) ↔
        ∀ p ∈ paths, ∀ q k, Yields w.host.fs options p q → w.host.fs.locate q = some k →
          Inside w.host.fs (base w.host.fs options p) q k := by
  refine wp_mono (always_collectFiles_selected hf hex) ?_
  rintro _ _ _ ⟨items, hsel, rfl⟩
  simp only [List.forall_mem_map]
  constructor
  · intro hall p hp q k hy hq
    have hreg : w.host.fs.isRegularFile q := by cases hy <;> assumption
    obtain ⟨k', d, hl, hk⟩ := isRegularFile_iff.mp hreg
    obtain ⟨⟩ := hq.symm.trans hl
    obtain ⟨c, hc, hrel⟩ := hy.exists_mem hsel hp (hz p hp) hq
    exact (relName_good_iff (hy.zero_notMem (hz p hp)) hq hk).mp (hrel ▸ hall c hc)
  · intro hin c hc
    obtain ⟨p, hp, hb⟩ := because_of_mem_selected hsel hc
    obtain ⟨k, d, hl, hk, he⟩ := hb.spec
    rw [he]
    exact (relName_good_iff (hb.1.zero_notMem (hz p hp)) hl hk).mpr (hin p hp _ k hb.1 hl)

/-- A directory that holds a file, and another one next to it. -/
def siblings : FileSystem :=
  ((FileSystem.empty.place [[0x61]] .dir).place [[0x62]] .dir).place [[0x61], [0x78]] (.file [0x31])

/-- Relative to the other directory, the file is entered under `../a/x`, which is refused. -/
theorem sibling_refused : ¬ ∀ f std s w, w.host.fs = siblings →
    Always f (collectFiles std { stripPrefix := [0x2F, 0x62] } [[0x2F, 0x61, 0x2F, 0x78]]) s w
      fun es _ _ => ∀ e ∈ es, Acceptable e.relPath ∧ NamesBelow e.relPath := by
  intro h
  have hsel : selected insertionSort siblings { stripPrefix := [0x2F, 0x62] }
      [[0x2F, 0x61, 0x2F, 0x78]] = some [⟨[0x2F, 0x61, 0x2F, 0x78],
        { relPath := [0x2E, 0x2E, 0x2F, 0x61, 0x2F, 0x78], size := 1 }⟩] := by decide
  have hex : ∀ p ∈ [([0x2F, 0x61, 0x2F, 0x78] : Bytes)], siblings.pathExists p := by decide
  have hscan : Always .none (collectFiles insertionSort { stripPrefix := [0x2F, 0x62] }
      [[0x2F, 0x61, 0x2F, 0x78]]) {} ⟨⟨siblings, none⟩, [], []⟩ _ :=
    always_collectFiles_selected id hex
  obtain ⟨es, _, _, ⟨items, hi, rfl⟩, hall⟩ := (hscan.and (h .none insertionSort {} _ rfl)).exists
  obtain rfl := Option.some.inj (hi.symm.trans hsel)
  have hacc := (hall _ (List.mem_singleton_self _)).1 []
  exact absurd hacc (by decide)

theorem siblings_good_iff : Always .none (collectFiles insertionSort {}
    [[0x2F, 0x61, 0x2F, 0x78]]) {} ⟨⟨siblings, none⟩, [], []⟩ fun es _ _ =>
      (∀ e ∈ es, Acceptable e.relPath ∧ NamesBelow e.relPath) ↔
        ∀ p ∈ [([0x2F, 0x61, 0x2F, 0x78] : Bytes)], ∀ q k, Yields siblings {} p q →
          siblings.locate q = some k → Inside siblings (base siblings {} p) q k :=
  collected_good_iff .none id insertionSort {} _ {} ⟨⟨siblings, none⟩, [], []⟩ (by decide)
    (by decide)

end Xfer.Transfer
