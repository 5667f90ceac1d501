import Xfer.Net.Liveness
import Xfer.Transfer.Delivery
import Xfer.Transfer.Files

/-! # What a failed session leaves behind

Files are written in place. So when a session fails, all that has changed is
accounted for by records that arrived as a whole and passed their check, except
for the file of the record in which the session failed.
-/

namespace Xfer.Transfer

open Net Posix Process Code

variable {f : Faults} {s s' : Refs} {w w' : Side} {options : ReceiverOptions}
  {dir stream rest : Bytes} {fs₀ : FileSystem}

/-- What one iteration can take from the stream as a whole. -/
inductive Block where
  | bare (e : FileEntry)
  | record (r : Record)

namespace Block

def encode : Block → Bytes
  | bare e => encodeFileHeader e
  | record r => r.encode

/-- The receiver goes on after this block. -/
def Accepted (options : ReceiverOptions) : Block → Prop
  | bare e => e.relPath = []
  | record r => r.path ≠ [] ∧ passes (expectedCrc options r.crc) r.payload = true

end Block

/-- The stream starts with blocks that the receiver accepts. -/
structure Parsed (options : ReceiverOptions) (stream : Bytes) (blocks : List Block)
    (rest : Bytes) : Prop where
  stream : stream = blocks.flatMap Block.encode ++ rest
  accepted : ∀ b ∈ blocks, b.Accepted options

/-- The path and the payload of a record that was accepted. -/
def Complete (blocks : List Block) (path content : Bytes) : Prop :=
  ∃ r, .record r ∈ blocks ∧ path = r.path ∧ content = r.payload

/-- How many records the header that the stream starts with announces. -/
def announcedTotal (stream : Bytes) : ℕ :=
  ((sessionOf (stream.take 32)).map fun header => header.totalFiles.toNat).getD 0

/-- The path and the content of the file of a record that is given up when `unread` is still to come:
its payload has arrived and not passed the check, or it has not arrived as a whole, and those of its
chunks are there that have. -/
def GivenUpAt (options : ReceiverOptions) (rest unread path content : Bytes) : Prop :=
  ∃ e got, rest = encodeFileHeader e ++ (got ++ unread) ∧ path = e.relPath ∧
    (got.length = e.size.toNat ∧ passes (expectedCrc options e.crc32) got = false ∧ content = got ∨
      got.length < e.size.toNat ∧ content = wholeChunks got)

/-- Every key other than `lost` is accounted for by accepted records, and `lost` is the file of the
record that was given up, which comes next. -/
structure Leaves (options : ReceiverOptions) (dir : Bytes) (blocks : List Block) (rest unread : Bytes)
    (lost : Option Key) (fs₀ fs : FileSystem) : Prop where
  accounted : ∀ k, lost ≠ some k → Accounted dir (Complete blocks) fs₀ fs k
  spoiled : ∀ k, lost = some k → ∃ path content, GivenUpAt options rest unread path content ∧
    fs.locate (join dir path) = some k ∧ fs.lookup k = some (.file content)

variable {blocks : List Block}

theorem Parsed.snoc {b : Block} (h : Parsed options stream blocks (b.encode ++ rest))
    (hb : b.Accepted options) : Parsed options stream (blocks ++ [b]) rest where
  stream := by simpa using h.stream
  accepted c hc := by
    rcases List.mem_append.mp hc with hc | hc
    · exact h.accepted c hc
    · rwa [List.mem_singleton.mp hc]

theorem Complete.snoc {path content : Bytes} (b : Block) (h : Complete blocks path content) :
    Complete (blocks ++ [b]) path content := by
  obtain ⟨r, hr, hpc⟩ := h
  exact ⟨r, List.mem_append_left _ hr, hpc⟩

/-- The record loop with `n` iterations to go. -/
def Sound (options : ReceiverOptions) (dir stream : Bytes) (fs₀ : FileSystem) (total n : ℕ)
    (w : Side) : Prop :=
  ∃ blocks, Parsed options stream blocks w.incoming ∧ blocks.length + n = total ∧
    ∀ k, Accounted dir (Complete blocks) fs₀ w.host.fs k

theorem Taken.sound {total n : ℕ} (hf : ¬ f.disk) (h : Sound options dir stream fs₀ total (n + 1) w)
    (ht : Taken f options dir s w s' w') : Sound options dir stream fs₀ total n w' := by
  obtain ⟨blocks, hp, hn, hk⟩ := h
  have hlen : ∀ b : Block, (blocks ++ [b]).length + n = total := fun b => by
    rw [List.length_append, List.length_singleton]
    omega
  cases ht with
  | bare e rest he hi =>
    rw [hi] at hp
    exact ⟨_, hp.snoc (b := .bare e) he, hlen _, fun k => (hk k).mono fun _ _ hc => hc.snoc _⟩
  | record r rest safe fs₁ k₀ stored p hne hi hv ho hpass hs hd =>
    obtain ⟨-, -, rfl⟩ := validateAndJoin_eq_ok hv
    obtain rfl := hd.resolve_right hf
    rw [hi] at hp
    refine ⟨_, hp.snoc (b := .record r) ⟨hne, hpass⟩, hlen _, fun k => ?_⟩
    refine ho.accounted (fun _ => (hk k).mono fun _ _ hc => hc.snoc _) fun _ => ?_
    exact ⟨r, List.mem_append_right _ List.mem_cons_self, rfl, rfl⟩

theorem FileOutcome.spoils {target : Bytes} {size : UInt64} {expected : UInt32} (hf : ¬ f.disk)
    (h : FileOutcome f target size expected s w false s' w') :
    Prepared f target w.host.fs w'.host.fs ∨ ∃ fs₁ k content got, Opens f target w.host.fs fs₁ k ∧
      w'.host.fs = fs₁.place k (.file content) ∧ w.incoming = got ++ w'.incoming ∧
      (got.length = size.toNat ∧ passes expected got = false ∧ content = got ∨
        got.length < size.toNat ∧ content = wholeChunks got) := by
  obtain ⟨ok, hok⟩ : ∃ ok, ok = false := ⟨_, rfl⟩
  rw [← hok] at h
  cases h with
  | closed fs₁ hp => exact Or.inl hp
  | whole fs₁ k payload rest stored p ho hl hi _ hd =>
    exact Or.inr ⟨fs₁, k, stored, payload, ho, rfl, hi, Or.inl ⟨hl, hok, hd.resolve_right hf⟩⟩
  | cut fs₁ k stored p ho hlt _ hd =>
    exact Or.inr ⟨fs₁, k, stored, w.incoming, ho, rfl, (List.append_nil _).symm,
      Or.inr ⟨hlt, hd.resolve_right hf⟩⟩
  | failed e fs₁ k bs rest stored p ho hd hi =>
    obtain ⟨-, hlt, hs⟩ := hd.resolve_right hf
    exact Or.inr ⟨fs₁, k, stored, bs, ho, rfl, hi, Or.inr ⟨hlt, hs⟩⟩

/-- What the failing iteration leaves, on top of what the earlier ones have left. -/
theorem RecordOutcome.leaves {total n : ℕ} (hf : ¬ f.disk)
    (h : Sound options dir stream fs₀ total (n + 1) w)
    (ho : RecordOutcome f options dir s w false s' w') :
    ∃ blocks rest lost, Parsed options stream blocks rest ∧ blocks.length < total ∧
      w'.incoming <:+ rest ∧ Leaves options dir blocks rest w'.incoming lost fs₀ w'.host.fs := by
  obtain ⟨blocks, hp, hn, hk⟩ := h
  have hlt : blocks.length < total := by omega
  have hkept : w'.incoming <:+ w.incoming → w'.host.fs = w.host.fs → ∃ blocks rest lost,
      Parsed options stream blocks rest ∧ blocks.length < total ∧ w'.incoming <:+ rest ∧
      Leaves options dir blocks rest w'.incoming lost fs₀ w'.host.fs := fun hs he =>
    ⟨blocks, w.incoming, none, hp, hlt, hs, fun k _ => he ▸ hk k, by simp⟩
  cases ho with
  | noHeader hh => exact hkept hh.suffix (congrArg Host.fs hh.frame.2.2)
  | rejected e rest er _ _ hi => exact hkept ⟨_, hi.symm⟩ rfl
  | refused e rest safe hne hl hi hv ho =>
    obtain ⟨-, -, rfl⟩ := validateAndJoin_eq_ok hv
    have hs : w'.incoming <:+ w.incoming := ho.suffix.trans ⟨_, hi.symm⟩
    rcases ho.spoils hf with hpre | ⟨fs₁, k₀, c, got, hopen, hfs, hgot, hc⟩
    · exact ⟨blocks, w.incoming, none, hp, hlt, hs, fun k _ => (hk k).grows hpre.grows, by simp⟩
    · refine ⟨blocks, w.incoming, some k₀, hp, hlt, hs, fun k hne => ?_, ?_⟩
      · rw [hfs]
        exact hopen.accounted (fun _ => hk k) fun he => absurd (congrArg some he.symm) hne
      · rintro k ⟨⟩
        have hgot : rest = got ++ w'.incoming := hgot
        rw [hfs]
        refine ⟨e.relPath, c, ⟨e, got, hgot ▸ hi, rfl, hc⟩,
          FileSystem.locate_place hopen.locate hopen.canPlace c, ?_⟩
        rw [FileSystem.lookup_place hopen.canPlace, if_pos rfl]

theorem OpenOutcome.incoming {header : SessionHeader}
    (h : OpenOutcome f options s w (some (header, dir)) s' w') :
    w'.incoming = w.incoming.drop 32 ∧ header.totalFiles.toNat = announcedTotal w.incoming := by
  cases h with
  | opened _ _ hh ho =>
    cases hh with
    | done buf rest _ hl hi hp =>
      cases ho with
      | ready =>
        constructor
        · rw [hi, ← hl, List.drop_left]
          rfl
        · rw [announcedTotal, hi, ← hl, List.take_left, hp]
          rfl

/-- Unless its disk fails, a receiver changes nothing but the files of records that arrived as a
whole and passed their check, of which there are no more than announced, and, if it fails, one more
file at most: that of the record in which it fails, which then holds the payload that did not pass,
or those of its chunks that had arrived. -/
theorem receiveStream_leaves (net stall read scan : Prop) (options : ReceiverOptions) (s : Refs)
    (w : Side) : Always ⟨net, stall, read, False, scan⟩ (receiveStream options) s w fun ok _ w' =>
      ∃ blocks rest lost, Parsed options (w.incoming.drop 32) blocks rest ∧
        blocks.length ≤ announcedTotal w.incoming ∧ (blocks ≠ [] → w'.incoming <:+ rest) ∧
        (lost ≠ none → ok = false ∧ blocks.length < announcedTotal w.incoming) ∧
        Leaves options (outputDir options w.host.fs) blocks rest w'.incoming lost w.host.fs
          w'.host.fs := by
  refine always_receiveStream
    (I := fun dir n _ w' => dir = outputDir options w.host.fs ∧
      Sound options dir (w.incoming.drop 32) w.host.fs (announcedTotal w.incoming) n w')
    (J := fun _ w' => ∃ blocks rest lost, Parsed options (w.incoming.drop 32) blocks rest ∧
      blocks.length < announcedTotal w.incoming ∧ w'.incoming <:+ rest ∧
      Leaves options (outputDir options w.host.fs) blocks rest w'.incoming lost w.host.fs
        w'.host.fs) ?_ ?_ ?_ ?_ ?_
  · intro s' w' ho
    exact ⟨[], _, none, ⟨rfl, by simp⟩, Nat.zero_le _, by simp, by simp,
      fun k _ => ho.accounted _ _ k, by simp⟩
  · intro header dir s' w' ho
    obtain ⟨hi, hn⟩ := ho.incoming
    exact ⟨ho.isDirectory.1, [], ⟨hi.symm, by simp⟩, by simpa using hn, fun k => ho.accounted _ _ k⟩
  · rintro dir n s₁ w₁ ok s' w' ⟨rfl, h⟩ ho
    cases ok with
    | false => exact ho.leaves id h
    | true => exact ⟨rfl, ho.taken.sound id h⟩
  · rintro s' w' ⟨blocks, rest, lost, hp, hlt, hs, hl⟩
    exact ⟨blocks, rest, lost, hp, hlt.le, fun _ => hs, fun _ => ⟨rfl, hlt⟩, hl⟩
  · rintro dir s₁ w₁ ⟨rfl, blocks, hp, hn, hk⟩
    apply wp_mono always_finishSession
    rintro _ _ _ ⟨_, _, unread, hs, _, rfl, _⟩
    exact ⟨blocks, _, none, hp, Nat.le.intro hn, fun _ => hs, by simp, fun k _ => hk k, by simp⟩

/-- A record with a wrong checksum for a file that is there. -/
def spoiling : Record := .small 0x61 1 0x62

def oldFile : FileSystem := FileSystem.empty.place [[0x61]] (.file [0x63])

def spoilingStream : Bytes := encodeSessionHeader { totalFiles := 1 } ++ spoiling.encode

theorem Parsed.eq_nil {r : Record} (hne : r.path ≠ [])
    (hr : passes (expectedCrc options r.crc) r.payload = false)
    (h : Parsed options r.encode blocks rest) : blocks = [] := by
  obtain ⟨hs, ha⟩ := h
  cases blocks with
  | nil => rfl
  | cons b bs =>
    have hb := ha b List.mem_cons_self
    rw [List.flatMap_cons, List.append_assoc] at hs
    cases b with
    | bare e =>
      have hb' : e.relPath = [] := hb
      rw [Record.encode] at hs
      obtain ⟨he, -⟩ := encodeFileHeader_inj r.fits (by simp [hb']) hs
      rw [← he] at hb'
      exact absurd hb' hne
    | record r' =>
      rw [← List.append_nil r.encode] at hs
      obtain ⟨rfl, -⟩ := Record.encode_inj hs
      exact absurd (hr.symm.trans hb.2) Bool.false_ne_true

/-- The file that was there is overwritten, though no record has passed its check. -/
theorem failed_check_overwrites :
    ¬ Always .none (receiveStream { outputDir := rootName }) {} ⟨⟨oldFile, none⟩, spoilingStream, []⟩
      fun ok _ w' => ok = false → ∃ blocks rest,
        Parsed { outputDir := rootName } (spoilingStream.drop 32) blocks rest ∧
        ∀ k, Accounted rootName (Complete blocks) oldFile w'.host.fs k := by
  intro h
  have hi : spoilingStream = encodeSessionHeader { totalFiles := 1 } ++
      ([spoiling].flatMap Record.encode ++ []) := by
    rw [List.append_nil, List.flatMap_singleton, spoilingStream]
  have hdel : Always .none (receiveStream { outputDir := rootName }) {}
      ⟨⟨oldFile, none⟩, spoilingStream, []⟩
      fun ok _ w' => deliver { outputDir := rootName } oldFile [spoiling] = (w'.host.fs, ok) :=
    wp_mono (always_receiveStream_deliver id id id hi rfl (by decide)) fun _ _ _ hd => hd.1
  obtain ⟨ok, s', w', hd, hno⟩ := (hdel.and h).exists
  have hbad : passes (expectedCrc { outputDir := rootName } spoiling.crc) spoiling.payload =
      false := by
    rw [passes, Common.Crc32.compute_eq]
    decide
  have hstore : store { outputDir := rootName } rootName oldFile spoiling =
      (oldFile.place [[0x61]] (.file [0x62]), false) := by
    rw [← hbad]
    rfl
  have hdeliver : deliver { outputDir := rootName } oldFile [spoiling] =
      (oldFile.place [[0x61]] (.file [0x62]), false) := by
    rw [deliver, if_pos (by decide)]
    change storeAll { outputDir := rootName } rootName oldFile [spoiling] = _
    rw [storeAll, hstore]
  obtain ⟨hok, hnew⟩ : (deliver { outputDir := rootName } oldFile [spoiling]).2 = false ∧
      (deliver { outputDir := rootName } oldFile [spoiling]).1.lookup [[0x61]] =
        some (.file [0x62]) := by
    rw [hdeliver]
    decide
  rw [hd] at hok
  obtain ⟨blocks, rest, hp, hk⟩ := hno hok
  rw [spoilingStream, List.drop_left' (length_encodeSessionHeader _)] at hp
  have hfs : w'.host.fs = (deliver { outputDir := rootName } oldFile [spoiling]).1 := by rw [hd]
  have hka := hk [[0x61]]
  rw [hp.eq_nil (by decide) hbad, hfs] at hka
  rcases hka with hka | ⟨-, hka⟩ | ⟨_, _, ⟨r, hr, -⟩, -⟩
  · exact absurd (hnew.symm.trans hka) (by decide)
  · cases hnew.symm.trans hka
  · cases hr

end Xfer.Transfer
