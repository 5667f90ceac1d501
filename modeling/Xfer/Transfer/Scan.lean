import Xfer.Net.Exchange
import Xfer.Transfer.Phases

/-! # What the scan finds

The scan asks about one path after the other. Where nothing changes, whatever it
finds is there, and if none of its questions fails, then what it finds is a
function of the file system.
-/

namespace Xfer.Transfer

open Net Common Posix Process Code

def relPathOf (fs : FileSystem) (path pre : Bytes) : Bytes :=
  let rel := if pre ≠ [] ∧ fs.pathExists pre then fs.relative path pre else []
  eraseDotSlash (if rel = [] then filename path else rel)

def collectFile (fs : FileSystem) (pre path : Bytes) : Option Collected :=
  match fs.fileSize path with
  | none => none
  | some sz =>
    let relPath := relPathOf fs path pre
    if relPath = [] then none
    else some ⟨path, { relPath := relPath, size := UInt64.ofNat sz }⟩

/-- The files that one source path stands for; `none` if it does not exist. -/
def collectPath (fs : FileSystem) (options : SenderOptions) (p : Bytes) :
    Option (List Collected) :=
  if ¬ fs.pathExists p then none
  else if fs.isRegularFile p then
    let pre := if options.stripPrefix = [] then parentPath p else options.stripPrefix
    some (collectFile fs pre p).toList
  else if fs.isDirectory p then
    if ¬ options.recursive then some []
    else
      let pre := if options.stripPrefix = [] then p else options.stripPrefix
      some ((fs.recursiveDirectory options.followSymlinks p).filterMap fun q =>
        if fs.isRegularFile q then collectFile fs pre q else none)
  else some []

def collectPaths (fs : FileSystem) (options : SenderOptions) (paths : List Bytes) :
    Option (List Collected) :=
  List.flatten <$> paths.mapM (collectPath fs options)

/-- The items that the manifest is made of. -/
def selected (std : StdSort) (fs : FileSystem) (options : SenderOptions) (paths : List Bytes) :
    Option (List Collected) :=
  (fun out => unique (std.sort out)) <$> collectPaths fs options paths

/-- The manifest that `SendPaths` starts from; a scan that failed leaves it empty. -/
def manifestOf (items : Option (List Collected)) : List FileEntry :=
  (items.getD []).map Collected.entry

/-- What `SendPaths` does with the manifest that its scan has found. -/
def sendScanned (sock : Socket) (signals : ℕ) (paths : List Bytes) (options : SenderOptions)
    (manifest : List FileEntry) : Session Bool := do
  if manifest = [] then pure true
  else
    let some es ← computeCrcs paths manifest | pure false
    sendManifest sock signals paths options es

/-- The regular files that a source stands for, by the paths under which they are found. -/
inductive Yields (fs : FileSystem) (options : SenderOptions) (p : Bytes) : Bytes → Prop
  | self : fs.isRegularFile p → Yields fs options p p
  | below (q : Bytes) : fs.isDirectory p → options.recursive → fs.isRegularFile q →
      q ∈ fs.recursiveDirectory options.followSymlinks p → Yields fs options p q

variable {fs : FileSystem} {options : SenderOptions} {p q pre path : Bytes} {paths qs : List Bytes}

theorem manifestOf_eq_nil {items : Option (List Collected)} :
    manifestOf items = [] ↔ items = none ∨ items = some [] := by
  rcases items with _ | items
  · simp [manifestOf]
  · simp [manifestOf]

theorem exists_mem_manifestOf {items : Option (List Collected)} {P : FileEntry → Prop} :
    (∃ e ∈ manifestOf items, P e) ↔ ∃ l, items = some l ∧ ∃ c ∈ l, P c.entry := by
  cases items with
  | none => simp [manifestOf]
  | some l => simp [manifestOf]

theorem regularSize_status : regularSize (fs.status p) = fs.fileSize p := by
  unfold regularSize FileSystem.fileSize
  rcases fs.status p with _ | ⟨b | _ | t⟩ <;> rfl

theorem isSome_fileSize : (fs.fileSize p).isSome = fs.isRegularFile p := by
  unfold FileSystem.fileSize FileSystem.isRegularFile
  rcases fs.status p with _ | ⟨b | _ | t⟩ <;> rfl

theorem collectPaths_cons (fs : FileSystem) (options : SenderOptions) (p : Bytes)
    (paths : List Bytes) : collectPaths fs options (p :: paths) =
      match collectPath fs options p, collectPaths fs options paths with
      | some cs, some out => some (cs ++ out)
      | _, _ => none := by
  unfold collectPaths
  rw [List.mapM_cons]
  rcases collectPath fs options p with _ | cs
  · rfl
  · rcases List.mapM (collectPath fs options) paths with _ | css
    · rfl
    · rfl

/-- What the questions about the sources come back with: the truth, or a failure if there may be
one. -/
def Answered (scan : Prop) (fs : FileSystem) : (c : Call) → c.Result → Prop
  | .pathExists path, r => r = fs.pathExists path ∨ scan ∧ r = false
  | .stat path, r => r = fs.status path ∨ scan ∧ r = none
  | .relative path base, r => r = fs.relative path base ∨ scan ∧ r = []
  | .iterate follow path, r => r = fs.recursiveDirectory follow path ∨ scan ∧ r = []
  | _, _ => True

theorem isRegularFile_of_answered {scan : Prop} {r : Option Node} (h : Answered scan fs (.stat path) r)
    (hr : regularSize r ≠ none) : fs.isRegularFile path := by
  rcases h with rfl | ⟨-, rfl⟩
  · rwa [regularSize_status, Option.ne_none_iff_isSome, isSome_fileSize] at hr
  · exact absurd rfl hr

section Undisturbed

variable {W : Type} {M : Machine Call.Result W} {scan : Prop} {s : Refs} {w : W}
  (hM : ∀ {c r w'}, Scans c → M w c r w' → w' = w ∧ Answered scan fs c r)
include hM

theorem wp_ask (c : Call) (hc : Scans c) {Q : c.Result → Refs → W → Prop}
    (h : ∀ r, Answered scan fs c r → Q r s w) : wp M (fun _ _ => True) (perform c) s w Q := by
  rw [perform, wp_issue]
  refine ⟨trivial, fun r w' hm => ?_⟩
  obtain ⟨rfl, hr⟩ := hM hc hm
  exact h r hr

theorem wp_makeRelPath : wp M (fun _ _ => True) (makeRelPath path pre) s w fun r s' w' =>
    (¬ scan → r = relPathOf fs path pre) ∧ s' = s ∧ w' = w := by
  unfold makeRelPath relPathOf
  rw [wp_bind]
  by_cases hpre : pre = []
  · rw [if_pos hpre, if_neg fun h => h.1 hpre]
    exact ⟨fun _ => rfl, rfl, rfl⟩
  · rw [if_neg hpre, wp_bind]
    apply wp_ask hM (.stat pre) trivial
    intro r hr
    have hex : ¬ scan → (fs.pathExists pre ↔ ¬ r.isNone) := fun hscan => by
      rw [hr.resolve_right fun h => hscan h.1, FileSystem.pathExists, Option.isNone_iff_eq_none,
        Option.isSome_iff_ne_none]
    by_cases hnone : r.isNone
    · rw [if_pos hnone]
      refine ⟨fun hscan => ?_, rfl, rfl⟩
      have hno : ¬ (pre ≠ [] ∧ fs.pathExists pre) := fun h => (hex hscan).mp h.2 hnone
      rw [if_neg hno]
    · rw [if_neg hnone]
      apply wp_ask hM (.relative path pre) trivial
      intro rel hrel
      refine ⟨fun hscan => ?_, rfl, rfl⟩
      have hyes : pre ≠ [] ∧ fs.pathExists pre := ⟨hpre, (hex hscan).mpr hnone⟩
      rw [if_pos hyes, hrel.resolve_right fun h => hscan h.1]

theorem wp_scanFile : wp M (fun _ _ => True) (scanFile pre path) s w fun r s' w' =>
    (¬ scan → r = collectFile fs pre path) ∧
      (∀ c, r = some c → c.onDisk = path ∧ fs.isRegularFile path ∧ c.entry.crc32 = 0) ∧
      s' = s ∧ w' = w := by
  unfold scanFile collectFile
  rw [wp_bind]
  apply wp_ask hM (.stat path) trivial
  intro r hr
  have hsize : ¬ scan → fs.fileSize path = regularSize r := fun hscan => by
    rw [hr.resolve_right fun h => hscan h.1, regularSize_status]
  cases hsz : regularSize r with
  | none =>
    refine ⟨fun hscan => ?_, nofun, rfl, rfl⟩
    rw [hsize hscan, hsz]
  | some sz =>
    have hreg : fs.isRegularFile path := isRegularFile_of_answered hr (by simp [hsz])
    simp only [wp_bind]
    apply wp_mono (wp_makeRelPath hM)
    rintro rel t _ ⟨hrel, rfl, rfl⟩
    split
    · rename_i hnil
      refine ⟨fun hscan => ?_, nofun, rfl, rfl⟩
      simp only [hsize hscan, hsz, ← hrel hscan, if_pos hnil]
    · rename_i hne
      refine ⟨fun hscan => ?_, ?_, rfl, rfl⟩
      · simp only [hsize hscan, hsz, ← hrel hscan, if_neg hne]
      · rintro _ ⟨⟩
        exact ⟨rfl, hreg, rfl⟩

theorem wp_scanBelow (qs : List Bytes) : wp M (fun _ _ => True) (scanBelow pre qs) s w
    fun r s' w' => (¬ scan → r = qs.filterMap fun q =>
        if fs.isRegularFile q then collectFile fs pre q else none) ∧
      (∀ c ∈ r, c.onDisk ∈ qs ∧ fs.isRegularFile c.onDisk ∧ c.entry.crc32 = 0) ∧
      s' = s ∧ w' = w := by
  induction qs generalizing s with
  | nil => exact ⟨fun _ => rfl, by simp, rfl, rfl⟩
  | cons q qs ih =>
    have hfirst : wp M (fun _ _ => True) (do
        if (regularSize (← perform (.stat q))).isNone then pure none else scanFile pre q) s w
        fun r s' w' => (¬ scan →
            r = if fs.isRegularFile q then collectFile fs pre q else none) ∧
          (∀ c, r = some c → c.onDisk = q ∧ fs.isRegularFile q ∧ c.entry.crc32 = 0) ∧
          s' = s ∧ w' = w := by
      rw [wp_bind]
      apply wp_ask hM (.stat q) trivial
      intro r hr
      have hreg : ¬ scan → (fs.isRegularFile q ↔ ¬ (regularSize r).isNone) := fun hscan => by
        rw [hr.resolve_right fun h => hscan h.1, regularSize_status, ← isSome_fileSize,
          Option.isNone_iff_eq_none, Option.isSome_iff_ne_none]
      by_cases hnone : (regularSize r).isNone
      · rw [if_pos hnone]
        refine ⟨fun hscan => ?_, nofun, rfl, rfl⟩
        rw [if_neg fun h => (hreg hscan).mp h hnone]
      · rw [if_neg hnone]
        apply wp_mono (wp_scanFile hM)
        rintro r t _ ⟨hr, hc, rfl, rfl⟩
        refine ⟨fun hscan => ?_, hc, rfl, rfl⟩
        rw [if_pos ((hreg hscan).mpr hnone), hr hscan]
    unfold scanBelow
    rw [wp_bind]
    apply wp_mono hfirst
    rintro r t _ ⟨hr, hc, rfl, rfl⟩
    rw [wp_bind]
    apply wp_mono ih
    rintro more u _ ⟨hmore, hcs, rfl, rfl⟩
    refine ⟨fun hscan => ?_, fun c hmem => ?_, rfl, rfl⟩
    · rw [List.filterMap_cons, ← hr hscan, hmore hscan]
      cases r <;> rfl
    · rcases List.mem_append.mp hmem with hmem | hmem
      · obtain ⟨hq, hfile⟩ := hc c (Option.mem_toList.mp hmem)
        rw [hq]
        exact ⟨List.mem_cons_self, hfile⟩
      · exact ⟨List.mem_cons_of_mem _ (hcs c hmem).1, (hcs c hmem).2⟩

theorem wp_scanPath : wp M (fun _ _ => True) (scanPath options p) s w fun r s' w' =>
    (¬ scan → r = collectPath fs options p) ∧
      (∀ out, r = some out → s' = s ∧
        ∀ c ∈ out, Yields fs options p c.onDisk ∧ c.entry.crc32 = 0) ∧ w' = w := by
  unfold scanPath collectPath
  rw [wp_bind]
  apply wp_ask hM (.pathExists p) trivial
  intro found hfound
  have hex : ¬ scan → fs.pathExists p = found := fun hscan =>
    (hfound.resolve_right fun h => hscan h.1).symm
  cases found with
  | false =>
    refine ⟨fun hscan => ?_, nofun, rfl⟩
    simp [hex hscan]
  | true =>
    simp only [Bool.not_true, Bool.false_eq_true, if_false, wp_bind]
    apply wp_ask hM (.stat p) trivial
    intro r hr
    have hreg : ¬ scan → fs.isRegularFile p = (regularSize r).isSome := fun hscan => by
      rw [hr.resolve_right fun h => hscan h.1, regularSize_status, isSome_fileSize]
    by_cases hsome : (regularSize r).isSome
    · rw [if_pos hsome, wp_bind]
      apply wp_mono (wp_scanFile hM)
      rintro found t _ ⟨hfound, hc, rfl, rfl⟩
      refine ⟨fun hscan => ?_, ?_, rfl⟩
      · simp only [hex hscan, hreg hscan, hsome, not_true, if_false, if_true, hfound hscan]
      · rintro _ ⟨⟩
        refine ⟨rfl, fun c hmem => ?_⟩
        obtain ⟨hq, hfile, hcrc⟩ := hc c (Option.mem_toList.mp hmem)
        rw [hq]
        exact ⟨.self hfile, hcrc⟩
    · rw [if_neg hsome, wp_bind]
      apply wp_ask hM (.stat p) trivial
      intro r hr
      have hdir : ¬ scan → (fs.isDirectory p ↔ r = some .dir) := fun hscan => by
        rw [hr.resolve_right fun h => hscan h.1, FileSystem.isDirectory, decide_eq_true_iff]
      by_cases hd : r = some .dir
      · have hdp : fs.isDirectory p := by
          rw [FileSystem.isDirectory, ← hr.resolve_right (by simp [hd]), hd]
          rfl
        rw [if_pos hd]
        by_cases hrec : options.recursive
        · rw [if_neg (not_not.mpr hrec), wp_bind]
          apply wp_ask hM (.iterate options.followSymlinks p) trivial
          intro qs hqs
          rw [wp_bind]
          apply wp_mono (wp_scanBelow hM qs)
          rintro found t _ ⟨hfound, hc, rfl, rfl⟩
          refine ⟨fun hscan => ?_, ?_, rfl⟩
          · rw [hfound hscan, hqs.resolve_right fun h => hscan h.1]
            simp only [hex hscan, hreg hscan, hsome, hdp, hrec, not_true, if_false, if_true,
              Bool.false_eq_true]
          · rintro _ ⟨⟩
            refine ⟨rfl, fun c hmem => ?_⟩
            obtain ⟨hq, hfile, hcrc⟩ := hc c hmem
            rcases hqs with rfl | ⟨-, rfl⟩
            · exact ⟨.below _ hdp hrec hfile hq, hcrc⟩
            · cases hq
        · rw [if_pos hrec]
          refine ⟨fun hscan => ?_, ?_, rfl⟩
          · simp only [hex hscan, hreg hscan, hsome, hdp, hrec, not_true, Bool.false_eq_true,
              not_false_eq_true, if_false, if_true]
          · rintro _ ⟨⟩
            exact ⟨rfl, by simp⟩
      · rw [if_neg hd]
        refine ⟨fun hscan => ?_, ?_, rfl⟩
        · simp only [hex hscan, hreg hscan, hsome, hdir hscan, hd, not_true, Bool.false_eq_true,
            if_false]
        · rintro _ ⟨⟩
          exact ⟨rfl, by simp⟩

theorem wp_scanPaths (paths : List Bytes) : wp M (fun _ _ => True) (scanPaths options paths) s w
    fun r s' w' => (¬ scan → r = collectPaths fs options paths) ∧ (∀ out, r = some out →
      s' = s ∧ ∀ c ∈ out, (∃ p ∈ paths, Yields fs options p c.onDisk) ∧ c.entry.crc32 = 0) ∧
      w' = w := by
  induction paths generalizing s with
  | nil =>
    refine ⟨fun _ => rfl, ?_, rfl⟩
    rintro _ ⟨⟩
    exact ⟨rfl, by simp⟩
  | cons p paths ih =>
    unfold scanPaths
    rw [wp_bind, collectPaths_cons]
    apply wp_mono (wp_scanPath hM)
    rintro r t _ ⟨hr, hout, rfl⟩
    cases r with
    | none => exact ⟨fun hscan => by rw [← hr hscan], nofun, rfl⟩
    | some out =>
      obtain ⟨rfl, hy⟩ := hout out rfl
      simp only [wp_bind]
      apply wp_mono ih
      rintro r u _ ⟨hrs, hmore, rfl⟩
      cases r with
      | none => exact ⟨fun hscan => by rw [← hr hscan, ← hrs hscan], nofun, rfl⟩
      | some more =>
        obtain ⟨rfl, hys⟩ := hmore more rfl
        refine ⟨fun hscan => by rw [← hr hscan, ← hrs hscan], ?_, rfl⟩
        rintro _ ⟨⟩
        refine ⟨rfl, fun c hc => ?_⟩
        rcases List.mem_append.mp hc with hc | hc
        · obtain ⟨hc, hcrc⟩ := hy c hc
          exact ⟨⟨p, List.mem_cons_self, hc⟩, hcrc⟩
        · obtain ⟨⟨p', hp', hc⟩, hcrc⟩ := hys c hc
          exact ⟨⟨p', List.mem_cons_of_mem _ hp', hc⟩, hcrc⟩

/-- The scan of a file system that holds still. -/
theorem wp_collectFiles (std : StdSort) (options : SenderOptions) (paths : List Bytes) :
    wp M (fun _ _ => True) (collectFiles std options paths) s w fun es s' w' => w' = w ∧
      (¬ scan → es = manifestOf (selected std fs options paths) ∧
        (selected std fs options paths ≠ none → s' = s)) ∧
      ∀ e ∈ es, e.crc32 = 0 ∧ ∃ p ∈ paths, ∃ q, Yields fs options p q := by
  unfold collectFiles selected
  rw [wp_bind]
  apply wp_mono (wp_scanPaths hM paths)
  rintro r t _ ⟨hr, hout, rfl⟩
  cases r with
  | none =>
    refine ⟨rfl, fun hscan => ?_, by simp⟩
    rw [← hr hscan]
    exact ⟨rfl, fun h => absurd rfl h⟩
  | some out =>
    refine ⟨rfl, fun hscan => ?_, fun e he => ?_⟩
    · rw [← hr hscan]
      exact ⟨rfl, fun _ => (hout out rfl).1⟩
    · obtain ⟨c, hc, rfl⟩ := List.mem_map.mp he
      have hmem : c ∈ out := (std.perm out).mem_iff.mp ((List.destutter_sublist _ _).subset hc)
      obtain ⟨⟨p, hp, hy⟩, hcrc⟩ := (hout out rfl).2 c hmem
      exact ⟨hcrc, p, hp, _, hy⟩

end Undisturbed

variable {f : Faults} {std : StdSort} {s : Refs} {w : Side}

theorem answered_of_scans {h h' : Host} {c : Call} {a : Action UInt8} {r : c.Result} (hc : Scans c)
    (hk : kernel f h c a r h') : a = .silent ∧ h' = h ∧ Answered f.scan h.fs c r := by
  cases c with
  | pathExists => exact hk
  | stat => exact hk
  | relative => exact hk
  | iterate => exact hk
  | _ => exact hc.elim

theorem always_scan : Always f (collectFiles std options paths) s w fun es s' w' => w' = w ∧
    (¬ f.scan → es = manifestOf (selected std w.host.fs options paths) ∧
      (selected std w.host.fs options paths ≠ none → s' = s)) ∧
    ∀ e ∈ es, e.crc32 = 0 ∧ ∃ p ∈ paths, ∃ q, Yields w.host.fs options p q := by
  refine wp_collectFiles (fun {c r w'} hc hm => ?_) std options paths
  obtain ⟨h, i, o⟩ := w
  obtain ⟨h', i', o'⟩ := w'
  obtain ⟨a, hk, ha⟩ := hm
  obtain ⟨rfl, rfl, hr⟩ := answered_of_scans hc hk
  obtain ⟨rfl, rfl⟩ := ha
  exact ⟨rfl, hr⟩

theorem always_collectFiles (hf : ¬ f.scan) :
    Always f (collectFiles std options paths) s w fun es s' w' => w' = w ∧
      es = manifestOf (selected std w.host.fs options paths) ∧
      (selected std w.host.fs options paths ≠ none → s' = s) :=
  wp_mono always_scan fun _ _ _ h => ⟨h.1, h.2.1 hf⟩

theorem sendPaths_eq {sock : Socket} {signals : ℕ} : sendPaths std sock signals paths options =
    collectFiles std options paths >>= sendScanned sock signals paths options := rfl

end Xfer.Transfer
