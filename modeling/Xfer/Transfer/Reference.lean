import Xfer.Transfer.Sync

/-! # Reference semantics of the receiver

Which lists of records are accepted, and what accepted ones leave: each target
holds the payload of the last record that leads to it.
-/

namespace Xfer.Transfer

open Net Posix Process Code

variable {options : ReceiverOptions} {dir : Bytes} {fs₀ fs fs' fs₁ F : FileSystem} {k k₀ : Key}
  {r : Record} {rs done : List Record}

/-- The target can be opened as the file at `k` in the tree built so far, which `fs₁` is with the
directories on the way to the target. -/
structure Opened (fs : FileSystem) (target : Bytes) (fs₁ : FileSystem) (k : Key) : Prop where
  directories : fs₁ = fs.createDirectories (parentPath target)
  leads : fs₁.locate target = some k
  placeable : fs₁.CanPlace k

/-- A checksum that is there and is to be verified is that of the payload. -/
def Verified (options : ReceiverOptions) (r : Record) : Prop :=
  options.verifyCrc = true → r.crc ≠ 0 → r.crc = Common.Crc32.compute r.payload

/-- One after the other, the records are accepted, and make `fs` into `F`. -/
inductive Accepted (options : ReceiverOptions) (dir : Bytes) :
    FileSystem → List Record → FileSystem → Prop
  | nil (fs : FileSystem) : Accepted options dir fs [] fs
  | cons (r : Record) (safe : Bytes) {fs fs₁ F : FileSystem} {k : Key} {rs : List Record} :
      validateAndJoin dir r.path = .ok safe → Opened fs safe fs₁ k → Verified options r →
      Accepted options dir (fs₁.place k (.file r.payload)) rs F →
      Accepted options dir fs (r :: rs) F

theorem openTarget_eq_some {safe : Bytes} :
    openTarget fs safe = (fs₁, some k) ↔ Opened fs safe fs₁ k := by
  unfold openTarget
  simp only [Prod.mk.injEq, Option.filter_eq_some_iff, decide_eq_true_eq]
  constructor
  · rintro ⟨rfl, hl, hp⟩
    exact ⟨rfl, hl, hp⟩
  · rintro ⟨rfl, hl, hp⟩
    exact ⟨rfl, hl, hp⟩

theorem passes_iff : passes (expectedCrc options r.crc) r.payload = true ↔ Verified options r := by
  unfold passes expectedCrc Verified
  cases options.verifyCrc with
  | false => simp
  | true =>
    simp only [if_true, decide_eq_true_eq, true_implies]
    tauto

theorem store_eq_true : store options dir fs r = (fs', true) ↔
    ∃ safe fs₁ k, validateAndJoin dir r.path = .ok safe ∧ Opened fs safe fs₁ k ∧
      Verified options r ∧ fs' = fs₁.place k (.file r.payload) := by
  unfold store
  cases hv : validateAndJoin dir r.path with
  | error e => simp
  | ok safe =>
    rcases ho : openTarget fs safe with ⟨fs₁, _ | k⟩
    · simp only [ho, Prod.mk.injEq, Bool.false_eq_true, and_false, Except.ok.injEq, false_iff]
      rintro ⟨_, fs₂, k, rfl, ho', -⟩
      cases ho.symm.trans (openTarget_eq_some.mpr ho')
    · simp only [ho, Prod.mk.injEq, passes_iff, Except.ok.injEq]
      constructor
      · rintro ⟨rfl, hc⟩
        exact ⟨safe, fs₁, k, rfl, openTarget_eq_some.mp ho, hc, rfl⟩
      · rintro ⟨_, fs₂, k', rfl, ho', hc, rfl⟩
        obtain ⟨⟩ := ho.symm.trans (openTarget_eq_some.mpr ho')
        exact ⟨rfl, hc⟩

theorem storeAll_eq_true : storeAll options dir fs rs = (F, true) ↔ Accepted options dir fs rs F := by
  induction rs generalizing fs with
  | nil =>
    constructor
    · rintro ⟨⟩
      exact .nil _
    · rintro ⟨⟩
      rfl
  | cons r rs ih =>
    rw [storeAll_cons]
    constructor
    · intro h
      rcases hs : store options dir fs r with ⟨fs', _ | _⟩
      · simp [hs] at h
      · obtain ⟨safe, fs₁, k, hv, ho, hc, rfl⟩ := store_eq_true.mp hs
        rw [hs] at h
        exact .cons r safe hv ho hc (ih.mp h)
    · rintro (_ | ⟨_, safe, hv, ho, hc, hrs⟩)
      rw [store_eq_true.mpr ⟨safe, _, _, hv, ho, hc, rfl⟩]
      exact ih.mpr hrs

/-- What the records leave at a key: the payload of the last record that leads there, or a new
directory on the way to a target, or what was there before. -/
inductive LeftAt (dir : Bytes) (fs₀ : FileSystem) (rs : List Record) (F : FileSystem) (k : Key) :
    Prop
  | payload (before : List Record) (r : Record) (after : List Record) :
      rs = before ++ r :: after → F.locate (join dir r.path) = some k →
      (∀ r' ∈ after, F.locate (join dir r'.path) ≠ some k) →
      F.lookup k = some (.file r.payload) → LeftAt dir fs₀ rs F k
  | directory (r : Record) (p : Bytes) : r ∈ rs → p ∈ leads (parentPath (join dir r.path)) →
      F.locate p = some k → fs₀.lookup k = none → F.lookup k = some .dir → LeftAt dir fs₀ rs F k
  | kept : (∀ r ∈ rs, F.locate (join dir r.path) ≠ some k) → F.lookup k = fs₀.lookup k →
      LeftAt dir fs₀ rs F k

/-- What `rs` have made of `fs₀`: every record leads to a file, and each key is as they leave it. -/
structure Stored (dir : Bytes) (fs₀ : FileSystem) (rs : List Record) (F : FileSystem) : Prop where
  targets : ∀ r ∈ rs, ∃ k b, F.locate (join dir r.path) = some k ∧ F.lookup k = some (.file b)
  leaves : ∀ k, LeftAt dir fs₀ rs F k

theorem Stored.nil (dir : Bytes) (fs : FileSystem) : Stored dir fs [] fs :=
  ⟨by simp, fun _ => .kept (by simp) rfl⟩

theorem Opened.grows {safe : Bytes} (h : Opened fs safe fs₁ k) : fs.Grows fs₁ :=
  h.directories ▸ FileSystem.mkdirs_grows fs _

theorem Opened.extends {safe : Bytes} (h : Opened fs safe fs₁ k) (c : Bytes) :
    fs.Extends (fs₁.place k (.file c)) :=
  h.grows.extends.trans
    (FileSystem.extends_place_file (FileSystem.not_symlink_of_locate h.leads) c)

/-- Paths of files lead where they led before a record was stored. -/
theorem Stored.locate_iff (h : Stored dir fs₀ done fs) (he : fs.Extends fs') {r' : Record}
    (hr : r' ∈ done) : fs'.locate (join dir r'.path) = some k ↔
      fs.locate (join dir r'.path) = some k := by
  obtain ⟨k', b, hl, hk⟩ := h.targets r' hr
  rw [hl, he.locate hl (by simp [hk])]

theorem Stored.step (h : Stored dir fs₀ done fs) (ho : Opened fs (join dir r.path) fs₁ k₀) :
    Stored dir fs₀ (done ++ [r]) (fs₁.place k₀ (.file r.payload)) := by
  have he := ho.extends r.payload
  have hown : (fs₁.place k₀ (.file r.payload)).locate (join dir r.path) = some k₀ :=
    FileSystem.locate_place ho.leads ho.placeable r.payload
  have hat : (fs₁.place k₀ (.file r.payload)).lookup k₀ = some (.file r.payload) := by
    rw [FileSystem.lookup_place ho.placeable, if_pos rfl]
  constructor
  · intro r' hr'
    rcases List.mem_append.mp hr' with hr' | hr'
    · obtain ⟨k, b, hl, hk⟩ := h.targets r' hr'
      refine ⟨k, if k = k₀ then r.payload else b, he.locate hl (by simp [hk]), ?_⟩
      rw [FileSystem.lookup_place ho.placeable]
      split
      · rfl
      · rw [ho.grows.lookup_eq (by simp [hk]), hk]
    · obtain rfl := List.mem_singleton.mp hr'
      exact ⟨k₀, r'.payload, hown, hat⟩
  · intro k
    by_cases hk : k = k₀
    · subst hk
      exact .payload done r [] rfl hown (by simp) hat
    · have hne : some k₀ ≠ some k := fun he => hk (Option.some.inj he).symm
      have hlook := FileSystem.lookup_place_ne fs₁ (.file r.payload) hk
      have hmem : ∀ r' ∈ done ++ [r], r' ∈ done ∨ r' = r := by simp
      rcases ho.grows.lookup k with hsame | ⟨hnone, hdir⟩
      · rw [hsame] at hlook
        cases h.leaves k with
        | payload before r' after heq hl hafter hb =>
          refine .payload before r' (after ++ [r]) (by simp [heq]) ?_ ?_ (hlook.trans hb)
          · exact (h.locate_iff he (by simp [heq])).mpr hl
          · intro r'' hr''
            rcases List.mem_append.mp hr'' with hr'' | hr''
            · rw [ne_eq, h.locate_iff he (by simp [heq, hr''])]
              exact hafter r'' hr''
            · obtain rfl := List.mem_singleton.mp hr''
              rwa [hown]
        | directory r' p hr' hp hl hn hd =>
          exact .directory r' p (List.mem_append_left _ hr') hp
            (he.locate hl (by simp [hd])) hn (hlook.trans hd)
        | kept hno hb =>
          refine .kept (fun r' hr' => ?_) (hlook.trans hb)
          rcases hmem r' hr' with hr' | rfl
          · rw [ne_eq, h.locate_iff he hr']
            exact hno r' hr'
          · rwa [hown]
      · -- a directory that was created for this record
        have hchanged : fs₁.lookup k ≠ fs.lookup k := by simp [hnone, hdir]
        have hn₀ : fs₀.lookup k = none := by
          cases h.leaves k with
          | payload _ _ _ _ _ _ hb => simp [hnone] at hb
          | directory _ _ _ _ _ _ hd => simp [hnone] at hd
          | kept _ hb => exact hb.symm.trans hnone
        rw [ho.directories] at hchanged
        obtain ⟨p, hp, hl⟩ := FileSystem.locate_of_mkdirs hchanged
        have hl' : fs₁.locate p = some k := by rw [ho.directories]; exact hl
        have he₁ := FileSystem.extends_place_file (FileSystem.not_symlink_of_locate ho.leads) r.payload
        exact .directory r p (by simp) hp (he₁.locate hl' (by simp [hdir])) hn₀ (hlook.trans hdir)

theorem Accepted.stored (h : Accepted options dir fs rs F) (hd : Stored dir fs₀ done fs) :
    Stored dir fs₀ (done ++ rs) F := by
  induction h generalizing done with
  | nil => rwa [List.append_nil]
  | cons r safe hv ho _ _ ih =>
    obtain ⟨-, -, rfl⟩ := validateAndJoin_eq_ok hv
    rw [List.append_cons]
    exact ih (hd.step ho)

theorem summarize_eq (dir : Bytes) (m : ReceiverSummary) (rs : List Record) :
    summarize dir m rs = { m with
      totalFiles := m.totalFiles + UInt64.ofNat rs.length
      totalBytes := m.totalBytes + UInt64.ofNat (rs.map (·.payload.length)).sum
      writtenPaths := m.writtenPaths ++ rs.map fun r => join dir r.path } := by
  unfold summarize
  induction rs generalizing m with
  | nil => simp
  | cons r rs ih =>
    rw [List.foldl_cons, ih]
    simp only [ReceiverSummary.add, Record.entry, List.length_cons, List.map_cons, List.sum_cons,
      UInt64.ofNat_add, List.append_assoc, List.singleton_append, ReceiverSummary.mk.injEq, and_true]
    refine ⟨?_, ?_⟩
    · rw [UInt64.add_assoc, UInt64.add_comm 1]
      rfl
    · rw [UInt64.add_assoc]

/-- The summary has gained the number of records, their sizes and their targets. -/
def Gained (dir : Bytes) (rs : List Record) (m m' : ReceiverSummary) : Prop :=
  m'.totalFiles = m.totalFiles + UInt64.ofNat rs.length ∧
    m'.totalBytes = m.totalBytes + UInt64.ofNat (rs.map (·.payload.length)).sum ∧
    m'.writtenPaths = m.writtenPaths ++ rs.map fun r => join dir r.path

/-- Where the output directory is there, or has been created, the receiver accepts a session exactly
if its records are accepted one after the other, and then leaves what they leave. -/
theorem receiveStream_reference (options : ReceiverOptions) (s : Refs) (host : Host)
    (out rest : Bytes) (d : DocumentedSession) (hne : ∀ r ∈ d.records, r.path ≠ []) :
    (host.fs.isDirectory (outputDir options host.fs) → prepareOutput options host.fs = host.fs) ∧
    Always .none (receiveStream options) s ⟨host, d.stream ++ rest, out⟩ fun ok s' w' =>
      (ok = true ↔ (prepareOutput options host.fs).isDirectory (outputDir options host.fs) ∧
        ∃ F, Accepted options (outputDir options host.fs) (prepareOutput options host.fs)
          d.records F) ∧
      (ok = true → Stored (outputDir options host.fs) (prepareOutput options host.fs) d.records
          w'.host.fs ∧
        Gained (outputDir options host.fs) d.records s.summary s'.summary) := by
  refine ⟨prepareOutput_of_isDirectory, ?_⟩
  have hi : d.stream ++ rest = encodeSessionHeader d.header ++
      (d.records.flatMap Record.encode ++ (encodeDone ++ rest)) := by
    simp [DocumentedSession.stream, DocumentedSession.streamFrom]
  refine wp_mono (always_receiveStream_deliver (f := .none) id id id hi d.count.symm hne) ?_
  rintro ok s' w' ⟨hdel, -, hok⟩
  simp only [deliver] at hdel
  split at hdel
  · rename_i hd
    have hacc : ok = true ↔ ∃ F, Accepted options (outputDir options host.fs)
        (prepareOutput options host.fs) d.records F := by
      simp only [← storeAll_eq_true, hdel, Prod.mk.injEq]
      constructor
      · exact fun h => ⟨_, rfl, h⟩
      · rintro ⟨_, -, h⟩
        exact h
    refine ⟨hacc.trans (and_iff_right hd).symm, fun h => ⟨?_, ?_⟩⟩
    · subst h
      exact (storeAll_eq_true.mp hdel).stored (.nil _ _)
    · obtain ⟨⟨elapsed, hs⟩, -⟩ := hok h
      rw [hs, summarize_eq]
      exact ⟨rfl, rfl, rfl⟩
  · rename_i hd
    obtain ⟨-, rfl⟩ := Prod.mk.inj hdel
    exact ⟨iff_of_false Bool.false_ne_true fun h => hd h.1, fun h => absurd h Bool.false_ne_true⟩

theorem sampleSession_reference :
    (FileSystem.empty.isDirectory rootName →
      prepareOutput { outputDir := rootName } .empty = .empty) ∧
    Always .none (receiveStream { outputDir := rootName }) {}
      ⟨⟨.empty, none⟩, sampleSession.stream ++ [], []⟩ fun ok s' w' =>
        (ok = true ↔ (prepareOutput { outputDir := rootName } .empty).isDirectory rootName ∧
          ∃ F, Accepted { outputDir := rootName } rootName
            (prepareOutput { outputDir := rootName } .empty) sampleSession.records F) ∧
        (ok = true → Stored rootName (prepareOutput { outputDir := rootName } .empty)
            sampleSession.records w'.host.fs ∧
          Gained rootName sampleSession.records {} s'.summary) :=
  receiveStream_reference { outputDir := rootName } {} ⟨.empty, none⟩ [] [] sampleSession (by decide)

end Xfer.Transfer
