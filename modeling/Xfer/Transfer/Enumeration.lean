import Xfer.Posix.Rearranged
import Xfer.Transfer.Completeness

/-! # Order of enumeration

The manifest ascends strictly, whatever the order in which files are found. Of
files with one relative path it keeps one, and any of them can be the one that
is found first, so it is the same for every order exactly if such files have the
same size.
-/

namespace Xfer.Transfer

open Net Posix FileSystem Process Code

variable {fs fs' fs₁ fs₂ : FileSystem} {options : SenderOptions} {std : StdSort}
  {paths ps ps₁ ps₂ : List Bytes} {p pre : Bytes} {c c' : Collected} {e : FileEntry} {k : Key}
  {items items₁ items₂ cs : List Collected}

/-- No two files that the sources stand for have one relative path and different sizes. -/
def SizesAgree (fs : FileSystem) (options : SenderOptions) (paths : List Bytes) : Prop :=
  ∀ p ∈ paths, ∀ p' ∈ paths, ∀ c c', Because fs options p c → Because fs options p' c' →
    c.entry.relPath = c'.entry.relPath → c.entry.size = c'.entry.size

/-- Two calls whose scans do not fail return the same manifest, strictly ascending, whatever the
order of the sources and the order in which the entries of directories are enumerated are in each
of them. -/
def OrderFree (fs : FileSystem) (options : SenderOptions) (paths : List Bytes) : Prop :=
  ∀ std f f' s s' w w' paths₁ paths₂, ¬ Faults.scan f → ¬ Faults.scan f' →
    fs.Rearranged w.host.fs → fs.Rearranged w'.host.fs → paths₁.Perm paths → paths₂.Perm paths →
    Always f (collectFiles std options paths₁) s w fun es _ _ =>
      es.Pairwise (fun e e' => e.relPath < e'.relPath) ∧
        Always f' (collectFiles std options paths₂) s' w' fun es' _ _ => es' = es

section Rearranged

variable (h : fs.Rearranged fs')
include h

theorem rearranged_relName (pre q : Bytes) (k : Key) :
    relName fs' pre q k = relName fs pre q k := by
  unfold relName
  rw [h.find]

theorem rearranged_base (options : SenderOptions) (p : Bytes) :
    base fs' options p = base fs options p := by
  unfold base
  rw [h.isRegularFile]

theorem rearranged_collectFile (pre q : Bytes) : collectFile fs' pre q = collectFile fs pre q := by
  ext c
  simp only [collectFile_eq_some, h.alike.locate, h.lookup, rearranged_relName h]

end Rearranged

theorem Yields.rearranged {q : Bytes} (hy : Yields fs options p q) (h : fs.Rearranged fs') :
    Yields fs' options p q := by
  cases hy with
  | self hr => exact .self ((h.isRegularFile p).trans hr)
  | below _ hd hrec hr hm =>
    exact .below q ((h.alike.isDirectory p).trans hd) hrec ((h.isRegularFile q).trans hr)
      (h.mem_recursiveDirectory.mpr hm)

theorem Because.rearranged (hb : Because fs options p c) (h : fs.Rearranged fs') :
    Because fs' options p c := by
  refine ⟨hb.1.rearranged h, ?_⟩
  rw [rearranged_base h, rearranged_collectFile h]
  exact hb.2

section Same

theorem Because.entry_eq (h : Because fs options p c) {p' : Bytes} (h' : Because fs options p' c')
    (hr : c.entry.relPath = c'.entry.relPath) (hs : c.entry.size = c'.entry.size) :
    c.entry = c'.entry := by
  obtain ⟨_, _, -, -, he⟩ := h.spec
  obtain ⟨_, _, -, -, he'⟩ := h'.spec
  rw [he, he'] at hr hs ⊢
  simp only at hr hs
  rw [hr, hs]

theorem mem_entries_iff (ha : SizesAgree fs options paths) (hr : fs.Rearranged fs')
    (hp : ps.Perm paths) (h : selected std fs' options ps = some items) :
    e ∈ items.map Collected.entry ↔ ∃ p ∈ paths, ∃ c, Because fs options p c ∧ c.entry = e := by
  rw [List.mem_map]
  constructor
  · rintro ⟨c, hc, rfl⟩
    obtain ⟨p, hps, hb⟩ := because_of_mem_selected h hc
    exact ⟨p, hp.subset hps, c, hb.rearranged hr.symm, rfl⟩
  · rintro ⟨p, hps, c, hb, rfl⟩
    obtain ⟨c', hc', he⟩ := exists_mem_selected h (hp.symm.subset hps) (hb.rearranged hr)
    obtain ⟨p', hps', hb'⟩ := because_of_mem_selected h hc'
    have hb' := hb'.rearranged hr.symm
    exact ⟨c', hc', hb'.entry_eq hb he (ha p' (hp.subset hps') p hps c' c hb' hb he)⟩

theorem manifest_pairwise (std : StdSort) (fs : FileSystem) (options : SenderOptions)
    (paths : List Bytes) : (manifestOf (selected std fs options paths)).Pairwise
      fun e e' => e.relPath < e'.relPath := by
  rcases h : selected std fs options paths with _ | items
  · exact .nil
  · exact List.pairwise_map.mpr (selected_pairwise h)

theorem eq_of_ascending {es es' : List FileEntry}
    (h : es.Pairwise fun e e' => e.relPath < e'.relPath)
    (h' : es'.Pairwise fun e e' => e.relPath < e'.relPath) (hmem : ∀ e, e ∈ es ↔ e ∈ es') :
    es = es' := by
  have hne : ∀ {e e' : FileEntry}, e.relPath < e'.relPath → e ≠ e' := by
    rintro e _ hlt rfl
    exact List.lt_irrefl _ hlt
  have hperm : es.Perm es' := (List.perm_ext_iff_of_nodup (h.imp hne) (h'.imp hne)).mpr hmem
  refine hperm.eq_of_pairwise (fun e e' _ _ hlt hlt' => ?_) h h'
  exact absurd (List.lt_trans hlt hlt') (List.lt_irrefl _)

theorem manifest_eq (h : (∃ p ∈ paths, ¬ fs.pathExists p) ∨ SizesAgree fs options paths)
    (hr₁ : fs.Rearranged fs₁) (hr₂ : fs.Rearranged fs₂) (hp₁ : ps₁.Perm paths)
    (hp₂ : ps₂.Perm paths) :
    manifestOf (selected std fs₂ options ps₂) = manifestOf (selected std fs₁ options ps₁) := by
  have hnone : ∀ {fs' ps}, fs.Rearranged fs' → ps.Perm paths →
      (selected std fs' options ps = none ↔ ∃ p ∈ paths, ¬ fs.pathExists p) := by
    intro fs' ps hr hp
    simp only [selected_eq_none, hr.alike.pathExists, hp.mem_iff]
  by_cases hex : ∃ p ∈ paths, ¬ fs.pathExists p
  · rw [(hnone hr₁ hp₁).mpr hex, (hnone hr₂ hp₂).mpr hex]
  · have ha := h.resolve_left hex
    obtain ⟨items₁, h₁⟩ := Option.ne_none_iff_exists'.mp (mt (hnone hr₁ hp₁).mp hex)
    obtain ⟨items₂, h₂⟩ := Option.ne_none_iff_exists'.mp (mt (hnone hr₂ hp₂).mp hex)
    apply eq_of_ascending (manifest_pairwise ..) (manifest_pairwise ..)
    intro e
    rw [h₁, h₂]
    exact (mem_entries_iff ha hr₂ hp₂ h₂).trans (mem_entries_iff ha hr₁ hp₁ h₁).symm

end Same

section First

theorem mem_destutter'_orderedInsert {a : Collected} (l : List Collected)
    (h : a.entry.relPath ≠ c.entry.relPath) :
    c ∈ (l.orderedInsert (fun a b => a.entry.relPath ≤ b.entry.relPath) c).destutter'
      (fun a b => a.entry.relPath ≠ b.entry.relPath) a := by
  induction l generalizing a with
  | nil =>
    rw [List.orderedInsert_nil, List.destutter'_cons, if_pos h]
    exact List.mem_cons_of_mem _ (List.mem_destutter' _ _ _)
  | cons b l ih =>
    by_cases hb : c.entry.relPath ≤ b.entry.relPath
    · rw [List.orderedInsert_cons, if_pos hb, List.destutter'_cons, if_pos h]
      exact List.mem_cons_of_mem _ (List.mem_destutter' _ _ _)
    · have hne : b.entry.relPath ≠ c.entry.relPath := fun he => hb (he ▸ List.le_refl _)
      rw [List.orderedInsert_cons, if_neg hb, List.destutter'_cons]
      split
      · exact List.mem_cons_of_mem _ (ih hne)
      · exact ih h

/-- What is found first stays in the manifest. -/
theorem mem_unique_insertionSort (c : Collected) (l : List Collected) :
    c ∈ unique (insertionSort.sort (c :: l)) := by
  have hsort : insertionSort.sort (c :: l) = (insertionSort.sort l).orderedInsert
      (fun a b => a.entry.relPath ≤ b.entry.relPath) c := rfl
  rw [hsort, unique]
  rcases insertionSort.sort l with _ | ⟨b, l⟩
  · rw [List.orderedInsert_nil, List.destutter_singleton]
    exact List.mem_singleton_self c
  · by_cases hb : c.entry.relPath ≤ b.entry.relPath
    · rw [List.orderedInsert_cons, if_pos hb, List.destutter_cons']
      exact List.mem_destutter' _ _ _
    · have hne : b.entry.relPath ≠ c.entry.relPath := fun he => hb (he ▸ List.le_refl _)
      rw [List.orderedInsert_cons, if_neg hb, List.destutter_cons']
      exact mem_destutter'_orderedInsert l hne

theorem exists_selected_of_first (hc : collectPath fs options p = some (c :: cs))
    (hex : ∀ p ∈ ps, fs.pathExists p) : ∃ items,
      selected insertionSort fs options (p :: ps) = some items ∧ c ∈ items := by
  have hsome : collectPaths fs options ps ≠ none := by
    rw [ne_eq, collectPaths_eq_none]
    rintro ⟨p, hp, hno⟩
    exact hno (hex p hp)
  obtain ⟨out, hout⟩ := Option.ne_none_iff_exists'.mp hsome
  refine ⟨unique (insertionSort.sort (c :: (cs ++ out))), ?_, mem_unique_insertionSort c _⟩
  rw [selected, collectPaths_cons, hc, hout]
  rfl

theorem filterMap_of_first {α β : Type} {g : α → Option β} {ds rest : List α} {a : α} {x : β}
    (hd : ∀ d ∈ ds, g d = none) (hx : g a = some x) :
    (ds ++ a :: rest).filterMap g = x :: rest.filterMap g := by
  rw [List.filterMap_append, List.filterMap_eq_nil_iff.mpr hd, List.nil_append,
    List.filterMap_cons_some hx]

theorem Because.exists_first (h : Because fs options p c) : ∃ fs' c' cs, fs.Rearranged fs' ∧
    collectPath fs' options p = some (c' :: cs) ∧ c'.entry = c.entry := by
  obtain ⟨hy, hc⟩ := h
  rcases hq : c.onDisk with q
  rw [hq] at hy hc
  cases hy with
  | self hr =>
    refine ⟨fs, c, [], .refl fs, ?_, rfl⟩
    rw [collectPath_file hr, hc]
    rfl
  | below _ hd hrec hr hm =>
    obtain ⟨k, d, hl, hk, hne, rfl⟩ := collectFile_eq_some.mp hc
    obtain ⟨fs', q', ds, rest, hre, hlist, hds, hl', hname⟩ :=
      FileSystem.exists_first (zero_notMem_of_mem_recursiveDirectory hd hm hr) hm hl
    have hrel : relName fs' (base fs' options p) q' k = relName fs (base fs options p) q k := by
      rw [rearranged_relName hre, rearranged_base hre]
      unfold relName
      rw [hname]
    have hreg : fs'.isRegularFile q' := isRegularFile_iff.mpr
      ⟨k, d, (hre.alike.locate q').trans hl', (hre.lookup k).trans hk⟩
    have hfirst : (if fs'.isRegularFile q' then collectFile fs' (base fs' options p) q' else none) =
        some ⟨q', { relPath := relName fs (base fs options p) q k,
                    size := UInt64.ofNat d.length }⟩ := by
      rw [if_pos hreg, ← hrel]
      exact collectFile_eq_some.mpr ⟨k, d, (hre.alike.locate q').trans hl',
        (hre.lookup k).trans hk, hrel ▸ hne, rfl⟩
    have hskip : ∀ q ∈ ds,
        (if fs'.isRegularFile q then collectFile fs' (base fs' options p) q else none) = none := by
      intro q hq
      rw [if_neg]
      intro hr
      have hdir := hds q hq
      rw [isDirectory_of_isRegularFile hr] at hdir
      cases hdir
    have hcol : collectPath fs' options p = _ :=
      collectPath_directory ((hre.alike.isDirectory p).trans hd)
    rw [if_pos hrec, hlist, filterMap_of_first hskip hfirst] at hcol
    exact ⟨fs', _, _, hre, hcol, rfl⟩

end First

/-- Where every order gives the same manifest, sizes agree. -/
theorem OrderFree.sizesAgree (h : OrderFree fs options paths)
    (hex : ∀ p ∈ paths, fs.pathExists p) : SizesAgree fs options paths := by
  intro p hp p' hp' c c' hb hb' hrel
  have hall : ∀ {fs₁}, fs.Rearranged fs₁ → ∀ p, ∀ q ∈ paths.erase p, fs₁.pathExists q := by
    intro fs₁ hr p q hq
    rw [hr.alike.pathExists]
    exact hex q (List.mem_of_mem_erase hq)
  obtain ⟨fs₁, c₁, _, hr₁, hc₁, he₁⟩ := hb.exists_first
  obtain ⟨fs₂, c₂, _, hr₂, hc₂, he₂⟩ := hb'.exists_first
  obtain ⟨items₁, hs₁, hm₁⟩ := exists_selected_of_first hc₁ (hall hr₁ p)
  obtain ⟨items₂, hs₂, hm₂⟩ := exists_selected_of_first hc₂ (hall hr₂ p')
  have hrun := h insertionSort .none .none {} {} (acknowledged fs₁) (acknowledged fs₂) _ _ id id
    hr₁ hr₂ (List.perm_cons_erase hp).symm (List.perm_cons_erase hp').symm
  obtain ⟨es, _, _, ⟨-, hes, -⟩, hasc, hrun'⟩ := ((always_collectFiles id).and hrun).exists
  obtain ⟨es', _, _, ⟨-, hes', -⟩, heq⟩ := ((always_collectFiles id).and hrun').exists
  have hm : c.entry ∈ es := by
    rw [hes, show (acknowledged fs₁).host.fs = fs₁ from rfl, hs₁, ← he₁]
    exact List.mem_map_of_mem hm₁
  have hm' : c'.entry ∈ es := by
    rw [← heq, hes', show (acknowledged fs₂).host.fs = fs₂ from rfl, hs₂, ← he₂]
    exact List.mem_map_of_mem hm₂
  by_contra hne
  have hapart : es.Pairwise fun e e' => e.relPath ≠ e'.relPath := by
    apply hasc.imp
    intro e e' hlt he
    rw [he] at hlt
    exact List.lt_irrefl _ hlt
  have : Std.Symm fun e e' : FileEntry => e.relPath ≠ e'.relPath := ⟨fun _ _ => Ne.symm⟩
  exact hapart.forall hm hm' (fun he => hne (congrArg _ he)) hrel

/-- The manifest is the same for every order of the sources and of the entries of directories
exactly if a source does not exist, so that it is empty, or files with one relative path have the
same size. -/
theorem orderFree_iff (fs : FileSystem) (options : SenderOptions) (paths : List Bytes) :
    OrderFree fs options paths ↔
      (∃ p ∈ paths, ¬ fs.pathExists p) ∨ SizesAgree fs options paths := by
  constructor
  · intro h
    by_cases hex : ∃ p ∈ paths, ¬ fs.pathExists p
    · exact Or.inl hex
    · refine Or.inr (h.sizesAgree fun p hp => ?_)
      by_contra hno
      exact hex ⟨p, hp, hno⟩
  · intro h std f f' s s' w w' paths₁ paths₂ hf hf' hr₁ hr₂ hp₁ hp₂
    apply wp_mono (always_collectFiles hf)
    rintro es _ _ ⟨-, rfl, -⟩
    refine ⟨manifest_pairwise .., ?_⟩
    apply wp_mono (always_collectFiles hf')
    rintro es' _ _ ⟨-, rfl, -⟩
    exact manifest_eq h hr₁ hr₂ hp₁ hp₂

/-- Two directories with a file `x` of one byte and one of two bytes. -/
def rivals : FileSystem :=
  (((FileSystem.empty.place [[0x61]] .dir).place [[0x61], [0x78]] (.file [0x31])).place
    [[0x62]] .dir).place [[0x62], [0x78]] (.file [0x31, 0x32])

theorem selected_rivals :
    selected insertionSort rivals {} [[0x2F, 0x61, 0x2F, 0x78], [0x2F, 0x62, 0x2F, 0x78]] =
        some [⟨[0x2F, 0x61, 0x2F, 0x78], { relPath := [0x78], size := 1 }⟩] ∧
      selected insertionSort rivals {} [[0x2F, 0x62, 0x2F, 0x78], [0x2F, 0x61, 0x2F, 0x78]] =
        some [⟨[0x2F, 0x62, 0x2F, 0x78], { relPath := [0x78], size := 2 }⟩] := by
  decide

/-- Of two files with one name, the manifest has the one whose path is given first. -/
theorem order_matters :
    ¬ OrderFree rivals {} [[0x2F, 0x61, 0x2F, 0x78], [0x2F, 0x62, 0x2F, 0x78]] := by
  intro h
  have hrun := h insertionSort .none .none {} {} (acknowledged rivals) (acknowledged rivals) _
    [[0x2F, 0x62, 0x2F, 0x78], [0x2F, 0x61, 0x2F, 0x78]] id id (.refl _) (.refl _) (.refl _)
    (.swap ..)
  obtain ⟨es, _, _, ⟨-, hes, -⟩, -, hrun'⟩ := ((always_collectFiles id).and hrun).exists
  obtain ⟨es', _, _, ⟨-, hes', -⟩, heq⟩ := ((always_collectFiles id).and hrun').exists
  rw [show (acknowledged rivals).host.fs = rivals from rfl] at hes hes'
  rw [selected_rivals.1] at hes
  rw [selected_rivals.2] at hes'
  rw [hes, hes'] at heq
  exact absurd heq (by decide)

end Xfer.Transfer
