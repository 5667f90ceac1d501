import Xfer.Transfer.Agreement
import Xfer.Transfer.Resolve

/-! # Fidelity

A directory tree without links is sent as a whole: each of its files becomes one
record. Where nothing is in their way, the files arrive in the output directory
under the same names, with the same content, and nothing else changes there.
-/

namespace Xfer.Transfer

open Net Common Posix Process Code Program FileSystem Relation

variable {fs g F : FileSystem} {std : StdSort} {sock : Socket} {signals : ℕ} {s t : Refs}
  {options : SenderOptions} {receiving : ReceiverOptions} {root b : Bytes} {base o k : Key}
  {ns ns' : List Bytes} {items : List Collected} {c : Collected} {cap : ℕ}

/-- A directory tree without links, found at `base` as `root`, whose files a session can hold. -/
structure Tree (fs : FileSystem) (root : Bytes) (base : Key) : Prop where
  leads : fs.locate root = some base
  directory : fs.lookup base = some .dir
  noLinks : fs.NoLinks base
  zero_notMem : 0 ∉ root
  nonempty : fs.files base ≠ []
  few : (fs.files base).length < 2 ^ 64
  fits : ∀ ns b, (ns, b) ∈ fs.files base → (joinAll ns).length ≤ 0xFFFF

/-- The output directory, once it has been created where that is asked for, is without links, and
nothing in it is in the way of the files. -/
structure Clear (receiving : ReceiverOptions) (g : FileSystem) (o : Key)
    (files : List (Key × Bytes)) : Prop where
  leads : (prepareOutput receiving g).locate (outputDir receiving g) = some o
  directory : (prepareOutput receiving g).lookup o = some .dir
  noLinks : (prepareOutput receiving g).NoLinks o
  zero_notMem : 0 ∉ outputDir receiving g
  room : ∀ ns b, (ns, b) ∈ files → (prepareOutput receiving g).Room o ns

theorem Vacant.clear {files : List (Key × Bytes)} (h : Vacant receiving g o)
    (hne : ∀ ns b, (ns, b) ∈ files → ns ≠ []) : Clear receiving g o files :=
  ⟨h.leads, h.directory, h.noLinks, h.zero_notMem, fun ns b hm => h.room (hne ns b hm)⟩

/-- All recursively, without a prefix to strip. -/
structure Whole (options : SenderOptions) : Prop where
  recursive : options.recursive = true
  stripPrefix : options.stripPrefix = []

/-- The item of the file that holds `b` at the end of the names. -/
def itemOf (root : Bytes) (ns : List Bytes) (b : Bytes) : Collected :=
  ⟨ns.foldl join root, { relPath := joinAll ns, size := UInt64.ofNat b.length }⟩

theorem Tree.isDirectory (h : Tree fs root base) : fs.isDirectory root :=
  isDirectory_iff.mpr ⟨base, h.leads, h.directory⟩

theorem Tree.pathExists (h : Tree fs root base) : ∀ p ∈ [root], fs.pathExists p := fun p hp => by
  rw [List.mem_singleton.mp hp]
  exact pathExists_iff.mpr ⟨base, h.leads, by simp [h.directory]⟩

theorem Clear.isDirectory {files : List (Key × Bytes)} (h : Clear receiving g o files) :
    (prepareOutput receiving g).isDirectory (outputDir receiving g) :=
  isDirectory_iff.mpr ⟨o, h.leads, h.directory⟩

section Names

variable (ht : Tree fs root base) (hm : (ns, b) ∈ fs.files base)
include ht hm

theorem Tree.names_ne_nil : ns ≠ [] := by
  rintro rfl
  have hl := mem_files.mp hm
  rw [List.append_nil, ht.directory] at hl
  cases hl

omit ht in
theorem validName_of_mem_files : ∀ n ∈ ns, ValidName n :=
  validName_of_mem (by simp [mem_files.mp hm] : fs.lookup (base ++ ns) ≠ none)

theorem Tree.locate_foldl : fs.locate (ns.foldl join root) = some (base ++ ns) :=
  locate_foldl_join ht.leads ht.zero_notMem ht.noLinks (by simp [mem_files.mp hm])

omit ht in
theorem names_of_mem_files : names (joinAll ns) = ns :=
  names_joinAll fun n hn => (validName_of_mem_files hm n hn).plain

omit ht in
theorem plain_of_mem_files : ∀ n ∈ ns, Plain n := fun n hn => (validName_of_mem_files hm n hn).plain

theorem Tree.collectFile_itemOf :
    collectFile fs root (ns.foldl join root) = some (itemOf root ns b) := by
  have hrel : relName fs root (ns.foldl join root) (base ++ ns) = joinAll ns := by
    have hfind : fs.find root = some base := find_eq_some.mpr ⟨ht.leads, by simp [ht.directory]⟩
    rw [relName, hfind]
    exact congrArg joinAll (route_below base (ht.names_ne_nil hm))
  have hne : joinAll ns ≠ [] := joinAll_ne_nil (plain_of_mem_files hm) (ht.names_ne_nil hm)
  exact collectFile_eq_some.mpr ⟨_, b, ht.locate_foldl hm, mem_files.mp hm, hrel.symm ▸ hne,
    by rw [hrel]; rfl⟩

end Names

/-- What the scan of a tree yields: its files. -/
theorem Tree.because_iff (ht : Tree fs root base) (hw : Whole options) :
    Because fs options root c ↔ ∃ ns b, (ns, b) ∈ fs.files base ∧ c = itemOf root ns b := by
  have hdir := ht.isDirectory
  have hreg : ¬ fs.isRegularFile root := fun hr => by
    rw [isDirectory_of_isRegularFile hr] at hdir
    cases hdir
  have hbase : Transfer.base fs options root = root := by
    rw [Transfer.base, if_pos hw.stripPrefix, if_neg hreg]
  have hscan : c.onDisk ∈ fs.recursiveDirectory options.followSymlinks root ↔
      ∃ ns, ns ≠ [] ∧ fs.lookup (base ++ ns) ≠ none ∧ c.onDisk = ns.foldl join root :=
    mem_recursiveDirectory ht.leads ht.zero_notMem ht.noLinks
  unfold Because
  rw [hbase]
  constructor
  · rintro ⟨hy, hc⟩
    generalize hq : c.onDisk = q at hy hc hscan
    cases hy with
    | self hr => exact absurd hr hreg
    | below _ _ _ hr hq' =>
      obtain ⟨ns, -, hk, rfl⟩ := hscan.mp hq'
      have hloc : fs.locate (ns.foldl join root) = some (base ++ ns) :=
        locate_foldl_join ht.leads ht.zero_notMem ht.noLinks hk
      obtain ⟨k, b, hl, hb⟩ := isRegularFile_iff.mp hr
      obtain rfl := Option.some.inj (hloc.symm.trans hl)
      have hm := mem_files.mpr hb
      exact ⟨ns, b, hm, Option.some.inj (hc.symm.trans (ht.collectFile_itemOf hm))⟩
  · rintro ⟨ns, b, hm, rfl⟩
    have hk := mem_files.mp hm
    refine ⟨.below _ hdir hw.recursive ?_ ?_, ht.collectFile_itemOf hm⟩
    · exact isRegularFile_iff.mpr ⟨_, b, ht.locate_foldl hm, hk⟩
    · exact hscan.mpr ⟨ns, ht.names_ne_nil hm, by simp [hk], rfl⟩

theorem Tree.readBack_itemOf (ht : Tree fs root base) (hs : Addressable fs)
    (hm : (ns, b) ∈ fs.files base) : readBack fs [root] (itemOf root ns b).entry = some b := by
  have hk := mem_files.mp hm
  have hlt := hs hk
  have hjoin : join root (joinAll ns) = ns.foldl join root :=
    join_joinAll (plain_of_mem_files hm) (ht.names_ne_nil hm) root
  have hopened : opened fs [root] (itemOf root ns b).entry = some (base ++ ns) := by
    rw [opened, resolve_singleton, if_pos ht.isDirectory,
      Option.bind_some]
    exact find_eq_some.mpr ⟨hjoin ▸ ht.locate_foldl hm, by simp [hk]⟩
  have hsize : (UInt64.ofNat b.length).toNat = b.length :=
    UInt64.toNat_ofNat_of_lt' (hlt.trans (by decide))
  rw [readBack, hopened, Option.bind_some, payload_file hk]
  exact congrArg some (List.take_of_length_le hsize.ge)

/-- The way to the file that a record is for, and what it holds. -/
def carried (r : SentRecord) : Key × Bytes := (names r.path, r.payload)

section Records

variable {rs : List SentRecord} (ht : Tree fs root base) (hs : Addressable fs) (hw : Whole options)
  (hsel : selected std fs options [root] = some items)
  (hem : List.Forall₂ (Emits fs [root]) items rs)
include ht

theorem Tree.carried_eq {r : SentRecord} (hs : Addressable fs) (hm : (ns, b) ∈ fs.files base)
    (he : Emits fs [root] (itemOf root ns b) r) : carried r = (ns, b) := by
  have hpath : r.path = joinAll ns := he.path
  have hpay : r.payload = b := Option.some.inj (he.payload.symm.trans (ht.readBack_itemOf hs hm))
  rw [carried, hpath, names_of_mem_files hm, hpay]

include hw hsel

theorem Tree.mem_selected (hc : c ∈ items) :
    ∃ ns b, (ns, b) ∈ fs.files base ∧ c = itemOf root ns b := by
  obtain ⟨p, hp, hb⟩ := because_of_mem_selected hsel hc
  obtain rfl := List.mem_singleton.mp hp
  exact (ht.because_iff hw).mp hb

theorem Tree.itemOf_mem (hm : (ns, b) ∈ fs.files base) : itemOf root ns b ∈ items := by
  have hb : Because fs options root (itemOf root ns b) := (ht.because_iff hw).mpr ⟨ns, b, hm, rfl⟩
  obtain ⟨c, hc, hrel⟩ := exists_mem_selected hsel (List.mem_singleton_self root) hb
  obtain ⟨ns', b', hm', rfl⟩ := ht.mem_selected hw hsel hc
  -- the names can be read off the relative path, and what the file holds follows from them
  have hns : ns' = ns := by
    rw [← names_of_mem_files hm', ← names_of_mem_files hm]
    exact congrArg names hrel
  subst hns
  obtain ⟨⟩ := (mem_files.mp hm').symm.trans (mem_files.mp hm)
  exact hc

theorem Tree.items_ne_nil : items ≠ [] := by
  rintro rfl
  obtain ⟨⟨ns, b⟩, hm⟩ := List.exists_mem_of_ne_nil _ ht.nonempty
  cases ht.itemOf_mem hw hsel hm

include hs

theorem Tree.exists_emits : ∃ rs, List.Forall₂ (Emits fs [root]) items rs := by
  refine exists_forall₂ fun c hc => ?_
  obtain ⟨ns, b, hm, rfl⟩ := ht.mem_selected hw hsel hc
  have hsize : (UInt64.ofNat b.length).toNat = b.length :=
    UInt64.toNat_ofNat_of_lt' ((hs (mem_files.mp hm)).trans (by decide))
  have hdel : Deliverable fs [root] (itemOf root ns b).entry :=
    ⟨ht.fits ns b hm, b, ht.readBack_itemOf hs hm, hsize.symm⟩
  exact hdel.exists_emits (joinAll_ne_nil (plain_of_mem_files hm) (ht.names_ne_nil hm))

include hem

theorem Tree.carried_mem {r : SentRecord} (hr : r ∈ rs) :
    carried r ∈ fs.files base ∧ r.path = joinAll (carried r).1 := by
  obtain ⟨c, hc, he⟩ := exists_of_mem_forall₂ hem hr
  obtain ⟨ns, b, hm, rfl⟩ := ht.mem_selected hw hsel hc
  rw [ht.carried_eq hs hm he]
  exact ⟨hm, he.path⟩

theorem Tree.carried_perm : (rs.map carried).Perm (fs.files base) := by
  have hpaths : rs.map (·.path) = items.map (·.entry.relPath) := by
    clear hsel
    induction hem with
    | nil => rfl
    | cons he _ ih => rw [List.map_cons, List.map_cons, he.path, ih]
  have hnodup : (rs.map carried).Nodup := by
    have hback : (rs.map carried).map (fun x => joinAll x.1) = rs.map (·.path) := by
      rw [List.map_map]
      exact List.map_congr_left fun r hr => (ht.carried_mem hs hw hsel hem hr).2.symm
    refine List.Nodup.of_map (fun x => joinAll x.1) ?_
    rw [hback, hpaths, List.Nodup, List.pairwise_map]
    refine (selected_pairwise hsel).imp fun {a b} hlt heq => ?_
    rw [heq] at hlt
    exact List.lt_irrefl _ hlt
  refine (List.perm_ext_iff_of_nodup hnodup (nodup_files fs base)).mpr fun x => ?_
  constructor
  · intro hx
    obtain ⟨r, hr, rfl⟩ := List.mem_map.mp hx
    exact (ht.carried_mem hs hw hsel hem hr).1
  · obtain ⟨ns, b⟩ := x
    intro hm
    obtain ⟨r, hr, he⟩ := mem_of_forall₂ hem (ht.itemOf_mem hw hsel hm)
    exact ht.carried_eq hs hm he ▸ List.mem_map_of_mem hr

theorem Tree.length_lt : rs.length < 2 ^ 64 := by
  have hl := (ht.carried_perm hs hw hsel hem).length_eq
  rw [List.length_map] at hl
  exact hl ▸ ht.few

end Records

/-- The files have arrived below `o`, where other ones are as they were, and the summary has gained
their number and the bytes that they hold. -/
structure Arrived (files : List (Key × Bytes)) (dir : Bytes) (o : Key) (g F : FileSystem)
    (m m' : ReceiverSummary) : Prop where
  arrived : ∀ ns b, (ns, b) ∈ files →
    F.locate (join dir (joinAll ns)) = some (o ++ ns) ∧ F.lookup (o ++ ns) = some (.file b)
  kept : ∀ k, (∀ ns b, (ns, b) ∈ files → k ≠ o ++ ns) →
    ∀ b, F.lookup k = some (.file b) ↔ g.lookup k = some (.file b)
  totalFiles : m'.totalFiles = m.totalFiles + UInt64.ofNat files.length
  totalBytes : m'.totalBytes = m.totalBytes + UInt64.ofNat (files.map (·.2.length)).sum

section Storing

variable {rs : List SentRecord} (hc : Clear receiving g o (fs.files base))
  (hperm : (rs.map carried).Perm (fs.files base))
  (hpath : ∀ r ∈ rs, r.path = joinAll (carried r).1)
include hperm

theorem carried_mem_files {r : SentRecord} (hr : r ∈ rs) :
    (names r.path, r.payload) ∈ fs.files base :=
  hperm.subset (List.mem_map_of_mem (f := carried) hr)

include hc

/-- No file is in the way of another one. -/
theorem exists_accepted_files (hp : ∀ r ∈ rs, Proper r.path) :
    ∃ F, Accepted receiving (outputDir receiving g) (prepareOutput receiving g)
      (rs.map (·.toRecord)) F := by
  refine exists_accepted hc.leads hc.directory hc.zero_notMem hc.noLinks ?_ ?_
  · intro r hr
    obtain ⟨r', hr', rfl⟩ := List.mem_map.mp hr
    exact ⟨hp r' hr', hc.room _ _ (carried_mem_files hperm hr'), fun _ _ => r'.genuine⟩
  · rintro _ _ ⟨r, hr, rfl⟩ ⟨r', hr', rfl⟩ ⟨ms, hms⟩
    obtain ⟨u, hu, rfl⟩ := List.mem_map.mp hr
    obtain ⟨u', hu', rfl⟩ := List.mem_map.mp hr'
    refine (hp u hu).eq (hp u' hu') ?_
    have hk := mem_files.mp (carried_mem_files hperm hu)
    have hk' := mem_files.mp (carried_mem_files hperm hu')
    by_cases hnil : ms = []
    · rw [← hms, hnil, List.append_nil]
    · rw [← hms, ← List.append_assoc] at hk'
      rw [lookup_dir_of_append (by rw [hk']; simp) hnil] at hk
      cases hk

include hpath

theorem arrived_of_accepted {m m' : ReceiverSummary} (hp : ∀ r ∈ rs, Proper r.path)
    (hF : Accepted receiving (outputDir receiving g) (prepareOutput receiving g)
      (rs.map (·.toRecord)) F)
    (hm : Gained (outputDir receiving g) (rs.map (·.toRecord)) m m') :
    Arrived (fs.files base) (outputDir receiving g) o g F m m' := by
  have hstored := hF.stored (.nil _ _)
  rw [List.nil_append] at hstored
  have hlocate : ∀ r ∈ rs, F.locate (join (outputDir receiving g) r.path) =
      some (o ++ names r.path) ∧ ∃ b, F.lookup (o ++ names r.path) = some (.file b) := fun r hr =>
    hF.locate hc.leads hc.directory hc.zero_notMem hc.noLinks (List.mem_map_of_mem hr) (hp r hr)
  have hrecord : ∀ {ns b}, (ns, b) ∈ fs.files base → ∃ r ∈ rs, r.path = joinAll ns ∧
      names r.path = ns ∧ r.payload = b := fun hmem => by
    obtain ⟨r, hr, he⟩ := List.mem_map.mp (hperm.symm.subset hmem)
    obtain ⟨rfl, rfl⟩ := Prod.mk.inj he
    exact ⟨r, hr, hpath r hr, rfl, rfl⟩
  constructor
  · intro ns b hmem
    obtain ⟨r, hr, hrel, rfl, rfl⟩ := hrecord hmem
    obtain ⟨hloc, c, hlook⟩ := hlocate r hr
    rw [← hrel]
    refine ⟨hloc, ?_⟩
    cases hstored.leaves (o ++ names r.path) with
    | payload before r' after heq hl _ hb =>
      -- the last record that leads there is for the same file
      have hr' : r' ∈ rs.map (·.toRecord) := heq ▸ List.mem_append_right _ List.mem_cons_self
      obtain ⟨u, hu, rfl⟩ := List.mem_map.mp hr'
      have hsame := Option.some.inj ((hlocate u hu).1.symm.trans hl)
      have hnames : names u.path = names r.path := List.append_cancel_left hsame
      have hku := mem_files.mp (carried_mem_files hperm hu)
      have hkr := mem_files.mp (carried_mem_files hperm hr)
      rw [hnames] at hku
      rw [hb, Node.file.inj (Option.some.inj (hku.symm.trans hkr))]
    | directory _ _ _ _ _ _ hd => cases hd.symm.trans hlook
    | kept hno _ => exact absurd hloc (hno r.toRecord (List.mem_map_of_mem hr))
  · intro k hk b
    have hg := grows_prepareOutput receiving g
    have hdirs : (prepareOutput receiving g).lookup k = some (.file b) ↔
        g.lookup k = some (.file b) := by
      rcases hg.lookup k with he | ⟨hnone, hdir⟩
      · rw [he]
      · simp [hnone, hdir]
    cases hstored.leaves k with
    | payload before r' after heq hl _ _ =>
      have hr' : r' ∈ rs.map (·.toRecord) := heq ▸ List.mem_append_right _ List.mem_cons_self
      obtain ⟨u, hu, rfl⟩ := List.mem_map.mp hr'
      have hsame := Option.some.inj ((hlocate u hu).1.symm.trans hl)
      exact absurd hsame.symm (hk _ _ (carried_mem_files hperm hu))
    | directory _ _ _ _ _ hn hd =>
      rw [← hdirs, hn, hd]
      simp
    | kept _ he => rw [he, hdirs]
  · rw [hm.1, List.length_map, ← hperm.length_eq, List.length_map]
  · rw [hm.2.1, ← (hperm.map (·.2.length)).sum_nat, List.map_map, List.map_map]
    rfl

end Storing

/-- Both parties have returned true, and the files have arrived. -/
def Faithful (fs g : FileSystem) (base o : Key) (receiving : ReceiverOptions) (m : ReceiverSummary)
    (n : Net Call.Result Host UInt8 (Bool × Refs) (Bool × Refs)) : Prop :=
  ∃ s t, n.left = ret (true, s) ∧ n.right = ret (true, t) ∧
    Arrived (fs.files base) (outputDir receiving g) o g n.rightHost.fs m t.summary

theorem Tree.proper (ht : Tree fs root base) (hm : (ns, b) ∈ fs.files base)
    (hb : backslash ∉ ns) : Proper (joinAll ns) := by
  have hv := validName_of_mem_files hm
  have hacc : Acceptable (joinAll ns) :=
    (acceptable_joinAll (plain_of_mem_files hm)).mpr ⟨fun hd => (hv _ hd).2.2.1 rfl, hb⟩
  exact proper_of_names hv (ht.names_ne_nil hm) hacc

/-- A directory tree without links and without a name that is a single backslash arrives as it is,
however its transfer is split and scheduled. -/
theorem sendPaths_faithful (std : StdSort) (sock : Socket) (signals cap : ℕ) (s t : Refs)
    (hs : Addressable fs) (ht : Tree fs root base) (hw : Whole options)
    (hc : Clear receiving g o (fs.files base))
    (hb : ∀ ns b, (ns, b) ∈ fs.files base → backslash ∉ ns)
    (hsock : sock.valid = true) (h0 : s.ec = none) (hcap : 0 < cap) :
    Inevitably (Net.Step (kernel .none) cap) (Faithful fs g base o receiving t.summary)
      (connected fs g std sock signals [root] options receiving s t) := by
  obtain ⟨items, hsel⟩ := Option.ne_none_iff_exists'.mp
    (selected_ne_none ht.pathExists : selected std fs options [root] ≠ none)
  obtain ⟨rs, hem⟩ := ht.exists_emits hs hw hsel
  have hcar : ∀ r ∈ rs, carried r ∈ fs.files base ∧ r.path = joinAll (carried r).1 := fun r hr =>
    ht.carried_mem hs hw hsel hem hr
  have hperm := ht.carried_perm hs hw hsel hem
  have hne := ht.items_ne_nil hw hsel
  have hlen := ht.length_lt hs hw hsel hem
  have hp : ∀ r ∈ rs, Proper r.path := fun r hr => by
    obtain ⟨hm, hpath⟩ := hcar r hr
    rw [hpath]
    exact ht.proper hm (hb _ _ hm)
  obtain ⟨F, hF⟩ := exists_accepted_files hc hperm hp
  have hdel : deliver receiving g (rs.map (·.toRecord)) = (F, true) := by
    rw [deliver, if_pos hc.isDirectory]
    exact storeAll_eq_true.mpr hF
  have hend := Net.inevitably (A := fun (a : Bool × Refs) _ => a.1 = true)
    (B := fun (b : Bool × Refs) h => b.1 = true ∧
      Arrived (fs.files base) (outputDir receiving g) o g h.fs t.summary b.2.summary)
    (kernel_live .none).responsive turns_neverBothWait hcap (sendPaths_plays hsel hem hne signals hs h0 hsock)
    (receiveStream_plays (t := t) hlen hc.isDirectory fun b w hr => by
      obtain ⟨rfl, hok⟩ := Prod.mk.inj (hdel.symm.trans hr.delivered)
      have hread := hr.read
      rw [← hok, if_pos rfl] at hread
      exact ⟨⟨hok.symm, arrived_of_accepted hc hperm (fun r hr => (hcar r hr).2) hp hF
        (hr.gained hok.symm)⟩, hread⟩)
  refine hend.mono fun n hn => ?_
  obtain ⟨⟨_, s'⟩, ⟨_, t'⟩, hl, hr, rfl, rfl, harr⟩ := hn
  exact ⟨s', t', hl, hr, harr⟩

theorem Faithful.agreed {m : ReceiverSummary}
    {n : Net Call.Result Host UInt8 (Bool × Refs) (Bool × Refs)}
    (h : Faithful fs g base o receiving m n) : Agreed n := by
  obtain ⟨s, t, hl, hr, -⟩ := h
  exact ⟨true, s, t, hl, hr⟩

theorem Tree.not_compatible (ht : Tree fs root base) (hw : Whole options)
    (hm : (ns, b) ∈ fs.files base) (hb : backslash ∈ ns) : ¬ Compatible fs options [root] := by
  intro hc
  have hent : Entered fs options [root] (base ++ ns) (itemOf root ns b).entry :=
    ⟨root, List.mem_singleton_self root, _, (ht.because_iff hw).mpr ⟨ns, b, hm, rfl⟩,
      ht.locate_foldl hm, rfl⟩
  have hacc : Acceptable (joinAll ns) := (hc.acceptable hent).1
  exact ((acceptable_joinAll (plain_of_mem_files hm)).mp hacc).2 hb

/-- A tree with such a name does not always arrive, not even in an empty directory. -/
theorem Tree.not_faithful (std : StdSort) (sock : Socket) (signals : ℕ) (s t : Refs)
    (hs : Addressable fs) (ht : Tree fs root base) (hw : Whole options) (hv : Vacant receiving g o)
    (hm : (ns, b) ∈ fs.files base) (hb : backslash ∈ ns) (hsock : sock.valid = true)
    (h0 : s.ec = none) :
    ∃ cap > 0, ¬ Inevitably (Net.Step (kernel .none) cap) (Faithful fs g base o receiving t.summary)
      (connected fs g std sock signals [root] options receiving s t) := by
  obtain ⟨items, hsel⟩ := Option.ne_none_iff_exists'.mp
    (selected_ne_none ht.pathExists : selected std fs options [root] ≠ none)
  obtain ⟨rs, hem⟩ := ht.exists_emits hs hw hsel
  have hlen := ht.length_lt hs hw hsel hem
  have hz : ∀ p ∈ [root], 0 ∉ p := List.forall_mem_singleton.mpr ht.zero_notMem
  have hparted : ∃ n, ReflTransGen _ (connected fs g std sock signals [root] options receiving s t) n ∧
      Verdicts true false n :=
    exists_verdicts_of_not_compatible hsel hem (ht.items_ne_nil hw hsel) hs h0 hsock hv hz hlen
      (ht.not_compatible hw hm hb)
  obtain ⟨n, hr, hp⟩ := hparted
  refine ⟨(sessionStream rs).length + 9, Nat.succ_pos _, fun h => ?_⟩
  exact not_inevitably_agreed hr hp (h.mono fun _ => Faithful.agreed)

/-- A directory with one file, whose name is a single backslash. -/
def slashed : FileSystem := FileSystem.empty.place [[0x5C]] (.file [0x31])

theorem tree_of_single {n : Bytes} (hroot : fs.locate rootName = some []) (hl : fs.NoLinks [])
    (hfiles : fs.files [] = [([n], b)]) (hn : n.length ≤ 0xFFFF) : Tree fs rootName [] where
  leads := hroot
  directory := lookup_root fs
  noLinks := hl
  zero_notMem := by decide
  nonempty := by simp [hfiles]
  few := by simp [hfiles]
  fits ns c hm := by
    rw [hfiles, List.mem_singleton] at hm
    cases hm
    exact (congrArg List.length (join_nil_left n)).trans_le hn

/-- The one file cannot be counted on to arrive. -/
theorem slashed_not_faithful : Addressable slashed ∧ Tree slashed rootName [] ∧
    Whole { recursive := true } ∧
    Clear { outputDir := rootName } .empty [] (slashed.files []) ∧
    ∃ cap > 0, ¬ Inevitably (Net.Step (kernel .none) cap)
      (Faithful slashed .empty [] [] { outputDir := rootName } {})
      (connected slashed .empty insertionSort ⟨0⟩ 0 [rootName] { recursive := true }
        { outputDir := rootName } {} {}) := by
  have hfiles : slashed.files [] = [([[0x5C]], [0x31])] := by decide
  have hs : Addressable slashed := addressable_empty.place (by decide)
  have ht : Tree slashed rootName [] := tree_of_single (by decide)
    (noLinks_place_file (noLinks_empty []) _) hfiles (by decide)
  have hw : Whole { recursive := true } := ⟨rfl, rfl⟩
  have hm : ([[0x5C]], [0x31]) ∈ slashed.files [] := by simp [hfiles]
  exact ⟨hs, ht, hw, vacant_empty.clear fun _ _ hm => ht.names_ne_nil hm,
    ht.not_faithful insertionSort ⟨0⟩ 0 {} {} hs hw vacant_empty hm (by decide) rfl rfl⟩

theorem mem_files_nested {ns : List Bytes} (hm : (ns, b) ∈ nested.files []) :
    ns = [[0x64], [0x62]] ∧ b = [0x32, 0x33] ∨ ns = [[0x61]] ∧ b = [0x31] := by
  have hfiles : nested.files [] = [([[0x64], [0x62]], [0x32, 0x33]), ([[0x61]], [0x31])] := by
    decide
  simpa only [hfiles, List.mem_cons, List.not_mem_nil, or_false, Prod.mk.injEq] using hm

theorem tree_nested : Tree nested rootName [] where
  leads := by decide
  directory := lookup_root nested
  noLinks := noLinks_nested
  zero_notMem := by decide
  nonempty := by decide
  few := by decide
  fits ns b hm := by rcases mem_files_nested hm with ⟨rfl, -⟩ | ⟨rfl, -⟩ <;> decide

theorem plain_nested : ∀ ns b, (ns, b) ∈ nested.files [] → backslash ∉ ns := fun ns b hm => by
  rcases mem_files_nested hm with ⟨rfl, -⟩ | ⟨rfl, -⟩ <;> decide

theorem clear_nested : Clear { outputDir := rootName } .empty [] (nested.files []) :=
  vacant_empty.clear fun _ _ hm => tree_nested.names_ne_nil hm

theorem nested_faithful : Inevitably (Net.Step (kernel .none) 1)
    (Faithful nested .empty [] [] { outputDir := rootName } {})
    (connected nested .empty insertionSort ⟨0⟩ 0 [rootName] { recursive := true }
      { outputDir := rootName } {} {}) :=
  sendPaths_faithful insertionSort ⟨0⟩ 0 1 {} {} addressable_nested tree_nested ⟨rfl, rfl⟩
    clear_nested plain_nested rfl rfl Nat.one_pos

end Xfer.Transfer
