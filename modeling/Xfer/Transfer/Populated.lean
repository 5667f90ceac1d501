import Xfer.Posix.Ways
import Xfer.Transfer.Integrity
import Xfer.Transfer.Interpretation
import Xfer.Transfer.Reference

/-! # The summary of a session that fails

Each record that is stored is added to the summary at once. So a failed session
hands back what the records before the failure came to, and it leaves the
summary alone only if there were none.
-/

namespace Xfer.Transfer

open Net Posix Process Code

variable {f : Faults} {s s' s₀ : Refs} {w w' w₀ : Side} {options : ReceiverOptions}
  {dir stream rest rest' : Bytes} {fs fs' F F' : FileSystem} {n : ℕ}
  {b b' : Block} {blocks blocks' : List Block} {rs rs' : List Record}

namespace Block

def record? : Block → Option Record
  | bare _ => none
  | record r => some r

theorem encode_inj (hb : b.Accepted options) (hb' : b'.Accepted options)
    (h : b.encode ++ rest = b'.encode ++ rest') : b = b' ∧ rest = rest' := by
  have mixed : ∀ {e : FileEntry} {r : Record} {t t' : Bytes}, e.relPath = [] → r.path ≠ [] →
      encodeFileHeader e ++ t ≠ r.encode ++ t' := by
    intro e r t t' he hr heq
    rw [Record.encode, List.append_assoc] at heq
    obtain ⟨rfl, -⟩ := encodeFileHeader_inj (by simp [he]) r.fits heq
    exact hr he
  cases b with
  | bare e =>
    cases b' with
    | bare e' =>
      have he : e.relPath = [] := hb
      have he' : e'.relPath = [] := hb'
      obtain ⟨rfl, rfl⟩ := encodeFileHeader_inj (by simp [he]) (by simp [he']) h
      exact ⟨rfl, rfl⟩
    | record r' => exact absurd h (mixed hb hb'.1)
  | record r =>
    cases b' with
    | bare e' => exact absurd h.symm (mixed hb' hb.1)
    | record r' =>
      obtain ⟨rfl, rfl⟩ := Record.encode_inj h
      exact ⟨rfl, rfl⟩

end Block

/-- The records among some blocks. -/
def records (blocks : List Block) : List Record := blocks.filterMap Block.record?

@[simp] theorem records_nil : records [] = [] := rfl

@[simp] theorem records_append : records (blocks ++ blocks') = records blocks ++ records blocks' :=
  List.filterMap_append

theorem exists_first_record (h : records blocks ≠ []) :
    ∃ bs r more, blocks = bs ++ (.record r :: more) ∧ records bs = [] := by
  induction blocks with
  | nil => exact absurd rfl h
  | cons b blocks ih =>
    cases b with
    | bare e =>
      obtain ⟨bs, r, more, rfl, hbs⟩ := ih h
      exact ⟨.bare e :: bs, r, more, rfl, hbs⟩
    | record r => exact ⟨[], r, blocks, rfl, rfl⟩

theorem Parsed.cons_inv (h : Parsed options stream (b :: blocks) rest) :
    ∃ t, stream = b.encode ++ t ∧ b.Accepted options ∧ Parsed options t blocks rest := by
  refine ⟨blocks.flatMap Block.encode ++ rest, ?_, h.accepted b List.mem_cons_self, rfl,
    fun c hc => h.accepted c (List.mem_cons_of_mem b hc)⟩
  rw [h.stream, List.flatMap_cons, List.append_assoc]

theorem Parsed.prefix_or_prefix (h : Parsed options stream blocks rest)
    (h' : Parsed options stream blocks' rest') : blocks <+: blocks' ∨ blocks' <+: blocks := by
  induction blocks generalizing stream blocks' with
  | nil => exact Or.inl List.nil_prefix
  | cons b blocks ih =>
    cases blocks' with
    | nil => exact Or.inr List.nil_prefix
    | cons b' blocks' =>
      obtain ⟨t, rfl, hb, ht⟩ := h.cons_inv
      obtain ⟨t', he, hb', ht'⟩ := h'.cons_inv
      obtain ⟨rfl, rfl⟩ := Block.encode_inj hb hb' he
      exact (ih ht ht').imp (List.prefix_cons_inj b).mpr (List.prefix_cons_inj b).mpr

/-- Records that the receiver can store one after the other where what `f` allows may fail. -/
inductive Admitted (f : Faults) (options : ReceiverOptions) (dir : Bytes) :
    FileSystem → List Record → FileSystem → Prop
  | nil (fs : FileSystem) : Admitted f options dir fs [] fs
  | cons {fs F : FileSystem} {rs : List Record} (r : Record) (safe stored : Bytes)
      (fs₁ : FileSystem) (k : Key) : validateAndJoin dir r.path = .ok safe →
      Opens f safe fs fs₁ k → passes (expectedCrc options r.crc) r.payload = true →
      stored <+: r.payload → stored = r.payload ∨ f.disk →
      Admitted f options dir (fs₁.place k (.file stored)) rs F → Admitted f options dir fs (r :: rs) F

theorem admitted_append : Admitted f options dir fs (rs ++ rs') F ↔
    ∃ fs', Admitted f options dir fs rs fs' ∧ Admitted f options dir fs' rs' F := by
  induction rs generalizing fs with
  | nil =>
    constructor
    · exact fun h => ⟨fs, .nil fs, h⟩
    · rintro ⟨_, ⟨⟩, h⟩
      exact h
  | cons r rs ih =>
    constructor
    · rintro (_ | ⟨_, safe, stored, fs₁, k, hv, ho, hc, hs, hd, h⟩)
      obtain ⟨fs', hrs, hrs'⟩ := ih.mp h
      exact ⟨fs', .cons r safe stored fs₁ k hv ho hc hs hd hrs, hrs'⟩
    · rintro ⟨fs', _ | ⟨_, safe, stored, fs₁, k, hv, ho, hc, hs, hd, hrs⟩, hrs'⟩
      exact .cons r safe stored fs₁ k hv ho hc hs hd (ih.mpr ⟨fs', hrs, hrs'⟩)

theorem admitted_iff (hd : ¬ f.disk) :
    Admitted f options dir fs rs F ↔ Accepted options dir fs rs F := by
  constructor
  · intro h
    induction h with
    | nil fs => exact .nil fs
    | cons r safe stored fs₁ k hv ho hc hs hsd _ ih =>
      obtain rfl := hsd.resolve_right hd
      exact .cons r safe hv (openTarget_eq_some.mp ((opens_iff hd).mp ho)) (passes_iff.mp hc) ih
  · intro h
    induction h with
    | nil fs => exact .nil fs
    | cons r safe hv ho hc _ ih =>
      exact .cons r safe r.payload _ _ hv ((opens_iff hd).mpr (openTarget_eq_some.mpr ho))
        (passes_iff.mpr hc) List.prefix_rfl (Or.inl rfl) ih

/-- Blocks that the stream starts with, and that the receiver can get past, making `fs` into `F`. -/
structure Through (f : Faults) (options : ReceiverOptions) (dir : Bytes) (fs : FileSystem)
    (stream : Bytes) (blocks : List Block) (F : FileSystem) (rest : Bytes) : Prop where
  parsed : Parsed options stream blocks rest
  admitted : Admitted f options dir fs (records blocks) F

namespace Through

theorem nil (f : Faults) (options : ReceiverOptions) (dir : Bytes) (fs : FileSystem)
    (stream : Bytes) : Through f options dir fs stream [] fs stream :=
  ⟨⟨rfl, by simp⟩, .nil fs⟩

theorem append_iff : Through f options dir fs stream (blocks ++ blocks') F rest ↔
    ∃ fs' t, Through f options dir fs stream blocks fs' t ∧
      Through f options dir fs' t blocks' F rest := by
  constructor
  · rintro ⟨⟨hs, ha⟩, hadm⟩
    rw [records_append, admitted_append] at hadm
    obtain ⟨fs', hrs, hrs'⟩ := hadm
    rw [List.flatMap_append, List.append_assoc] at hs
    refine ⟨fs', blocks'.flatMap Block.encode ++ rest, ⟨⟨hs, fun b hb => ?_⟩, hrs⟩,
      ⟨⟨rfl, fun b hb => ?_⟩, hrs'⟩⟩
    · exact ha b (List.mem_append_left _ hb)
    · exact ha b (List.mem_append_right _ hb)
  · rintro ⟨fs', t, ⟨⟨hs, ha⟩, hrs⟩, ⟨⟨ht, ha'⟩, hrs'⟩⟩
    refine ⟨⟨?_, fun b hb => ?_⟩, ?_⟩
    · rw [hs, ht, List.flatMap_append, List.append_assoc]
    · exact (List.mem_append.mp hb).elim (ha b) (ha' b)
    · rw [records_append]
      exact admitted_append.mpr ⟨fs', hrs, hrs'⟩

/-- Unless the disk fails, the file system and the stream are the same after the same blocks. -/
theorem unique (hd : ¬ f.disk) {t : Bytes} (h : Through f options dir fs stream blocks F rest)
    (h' : Through f options dir fs stream blocks F' t) : F = F' ∧ rest = t := by
  constructor
  · have hF := storeAll_eq_true.mpr ((admitted_iff hd).mp h.admitted)
    have hF' := storeAll_eq_true.mpr ((admitted_iff hd).mp h'.admitted)
    exact (Prod.mk.inj (hF.symm.trans hF')).1
  · exact List.append_cancel_left (h.parsed.stream.symm.trans h'.parsed.stream)

end Through

theorem Taken.block (h : Taken f options dir s w s' w') :
    ∃ b, Through f options dir w.host.fs w.incoming [b] w'.host.fs w'.incoming ∧
      s'.summary = summarize dir s.summary (records [b]) := by
  cases h with
  | bare e rest he hi =>
    refine ⟨.bare e, ⟨⟨by simpa [Block.encode] using hi, ?_⟩, .nil _⟩, rfl⟩
    rintro b hb
    rwa [List.mem_singleton.mp hb]
  | record r rest safe fs₁ k stored p hne hi hv ho hpass hs hd =>
    refine ⟨.record r, ⟨⟨by simpa [Block.encode] using hi, ?_⟩, ?_⟩, ?_⟩
    · rintro b hb
      rw [List.mem_singleton.mp hb]
      exact ⟨hne, hpass⟩
    · exact .cons r safe stored fs₁ k hv ho hpass hs hd (.nil _)
    · rw [(validateAndJoin_eq_ok hv).2.2]
      rfl

theorem RecordOutcome.bare (hn : ¬ f.net) {e : FileEntry} {ok : Bool} (he : e.relPath = [])
    (hi : w.incoming = encodeFileHeader e ++ rest) (h : RecordOutcome f options dir s w ok s' w') :
    ok = true ∧ s' = s ∧ w' = w.reading rest := by
  cases h with
  | noHeader hh => cases (hh.of_encode hn (by simp [he]) hi).1
  | skipped e' rest' he' hi' =>
    obtain ⟨-, rfl⟩ := encodeFileHeader_inj (by simp [he]) (by simp [he']) (hi.symm.trans hi')
    exact ⟨rfl, rfl, rfl⟩
  | rejected e' rest' er hne hl hi' =>
    obtain ⟨rfl, -⟩ := encodeFileHeader_inj (by simp [he]) hl (hi.symm.trans hi')
    exact absurd he hne
  | refused e' rest' safe hne hl hi' =>
    obtain ⟨rfl, -⟩ := encodeFileHeader_inj (by simp [he]) hl (hi.symm.trans hi')
    exact absurd he hne
  | stored e' rest' safe hne hl hi' =>
    obtain ⟨rfl, -⟩ := encodeFileHeader_inj (by simp [he]) hl (hi.symm.trans hi')
    exact absurd he hne

theorem Through.ok (hn : ¬ f.net) (hd : ¬ f.disk) {ok : Bool}
    (h : Through f options dir w.host.fs w.incoming [b] F rest)
    (ho : RecordOutcome f options dir s w ok s' w') : ok = true := by
  obtain ⟨t, hi, hb, ht⟩ := h.parsed.cons_inv
  cases b with
  | bare e => exact (ho.bare hn hb hi).1
  | record r =>
    have hx := storeAll_eq_true.mpr ((admitted_iff hd).mp h.admitted)
    rw [show records [.record r] = [r] from rfl, storeAll_cons, (ho.exact hn hd hb.1 hi).1] at hx
    cases ok with
    | true => rfl
    | false => cases (Prod.mk.inj hx).2

/-- The stream announces `n` records, and there is a directory to store them in. -/
structure Begins (options : ReceiverOptions) (fs : FileSystem) (stream : Bytes) (n : ℕ) :
    Prop where
  length : 32 ≤ stream.length
  header : ∃ header, sessionOf (stream.take 32) = some header ∧ header.totalFiles.toNat = n
  isDirectory : (prepareOutput options fs).isDirectory (outputDir options fs)

theorem Begins.unique {m : ℕ} (h : Begins options fs stream n) (h' : Begins options fs stream m) :
    n = m := by
  obtain ⟨header, hh, rfl⟩ := h.header
  obtain ⟨header', hh', rfl⟩ := h'.header
  rw [Option.some.inj (hh.symm.trans hh')]

/-- Blocks that the receiver can get past after the opening of a session. -/
def GetsPast (f : Faults) (options : ReceiverOptions) (fs : FileSystem) (stream : Bytes)
    (blocks : List Block) : Prop :=
  ∃ F rest, Through f options (outputDir options fs) (prepareOutput options fs) (stream.drop 32)
    blocks F rest

/-- The record loop with `n` records still to come, after some blocks. -/
structure Past (f : Faults) (options : ReceiverOptions) (s₀ : Refs) (w₀ : Side)
    (blocks : List Block) (n : ℕ) (s : Refs) (w : Side) : Prop where
  begins : Begins options w₀.host.fs w₀.incoming (blocks.length + n)
  through : Through f options (outputDir options w₀.host.fs) (prepareOutput options w₀.host.fs)
    (w₀.incoming.drop 32) blocks w.host.fs w.incoming
  summary : s.summary = summarize (outputDir options w₀.host.fs) s₀.summary (records blocks)

theorem summarize_append (dir : Bytes) (m : ReceiverSummary) (rs rs' : List Record) :
    summarize dir m (rs ++ rs') = summarize dir (summarize dir m rs) rs' := List.foldl_append

theorem summarize_eq_self {m : ReceiverSummary} : summarize dir m rs = m ↔ rs = [] := by
  constructor
  · intro h
    have hp := congrArg (List.length ∘ ReceiverSummary.writtenPaths) h
    rw [summarize_eq] at hp
    simpa using hp
  · rintro rfl
    rfl

theorem Past.step (h : Past f options s₀ w₀ blocks (n + 1) s w)
    (ht : Taken f options (outputDir options w₀.host.fs) s w s' w') :
    ∃ b, Past f options s₀ w₀ (blocks ++ [b]) n s' w' := by
  obtain ⟨b, hb, hm⟩ := ht.block
  refine ⟨b, ?_, Through.append_iff.mpr ⟨_, _, h.through, hb⟩, ?_⟩
  · rw [List.length_append, List.length_singleton, Nat.add_assoc, Nat.add_comm 1]
    exact h.begins
  · rw [hm, h.summary, records_append, summarize_append]

theorem Made.eq_prepareOutput (hm : Made f options (outputDir options fs) fs fs')
    (hd : fs'.isDirectory (outputDir options fs)) : fs' = prepareOutput options fs := by
  obtain ⟨ps, hps, -, hno, rfl⟩ := hm
  unfold prepareOutput
  split
  · exact (FileSystem.createDirectories_eq_mkdirs hps hd).symm
  · rename_i hc
    rw [hno (Bool.eq_false_iff.mpr hc)]
    rfl

theorem OpenOutcome.summary {r : Option (SessionHeader × Bytes)}
    (h : OpenOutcome f options s w r s' w') : s'.summary = s.summary := by
  have hand : ∀ {r s₁ w₁}, HandshakeOutcome f s w r s₁ w₁ → s₁.summary = s.summary := by
    rintro r s₁ w₁ (hr | ⟨_, hs⟩ | _)
    · cases hr with
      | malformed => rfl
      | lost hl => cases hl <;> rfl
    · cases hs; rfl
    · rfl
  cases h with
  | noHandshake hh => exact hand hh
  | noOutput header hh ho =>
    have hm := hand hh
    cases ho
    exact hm
  | opened header dir hh ho =>
    have hm := hand hh
    cases ho
    exact hm

theorem OpenOutcome.past {header : SessionHeader}
    (h : OpenOutcome f options s w (some (header, dir)) s' w') :
    dir = outputDir options w.host.fs ∧ Past f options s w [] header.totalFiles.toNat s' w' := by
  obtain ⟨rfl, hdir, hm⟩ := h.isDirectory
  have hfs := hm.eq_prepareOutput hdir
  refine ⟨rfl, ?_, ?_, h.summary⟩
  · cases h with
    | opened _ _ hh ho =>
      cases hh with
      | done buf rest _ hl hi hp =>
        refine ⟨by simp [hi, hl], ⟨header, ?_, (Nat.zero_add _).symm⟩, hfs ▸ hdir⟩
        rw [hi, List.take_left' hl, hp]
  · rw [h.incoming.1, hfs]
    exact .nil f options _ _ _

/-- A session fails in its opening or in an iteration, after some blocks. -/
theorem receiveStream_past (f : Faults) (options : ReceiverOptions) (s : Refs) (w : Side) :
    Always f (receiveStream options) s w fun ok s' w' =>
      (ok = false ∧ OpenOutcome f options s w none s' w') ∨
      (ok = false ∧ ∃ blocks n s₁ w₁, Past f options s w blocks (n + 1) s₁ w₁ ∧
        RecordOutcome f options (outputDir options w.host.fs) s₁ w₁ false s' w') ∨
      (ok = true ∧ ∃ blocks s₁ w₁, Past f options s w blocks 0 s₁ w₁) := by
  refine always_receiveStream
    (I := fun dir n s' w' => dir = outputDir options w.host.fs ∧
      ∃ blocks, Past f options s w blocks n s' w')
    (J := fun s' w' => ∃ blocks n s₁ w₁, Past f options s w blocks (n + 1) s₁ w₁ ∧
      RecordOutcome f options (outputDir options w.host.fs) s₁ w₁ false s' w') ?_ ?_ ?_ ?_ ?_
  · exact fun ho => Or.inl ⟨rfl, ho⟩
  · intro header dir s' w' ho
    exact ⟨ho.past.1, [], ho.past.2⟩
  · rintro dir n s₁ w₁ ok s' w' ⟨rfl, blocks, h⟩ ho
    cases ok with
    | false => exact ⟨blocks, n, s₁, w₁, h, ho⟩
    | true =>
      obtain ⟨b, hb⟩ := h.step ho.taken
      exact ⟨rfl, _, hb⟩
  · exact fun h => Or.inr (Or.inl ⟨rfl, h⟩)
  · rintro dir s₁ w₁ ⟨rfl, blocks, h⟩
    apply wp_mono always_finishSession
    exact fun _ _ _ _ => Or.inr (Or.inr ⟨rfl, blocks, s₁, w₁, h⟩)

/-- The summary is what it was with the records that the stream starts with. -/
def Gains (options : ReceiverOptions) (s : Refs) (w : Side) (ok : Bool) (s' : Refs) (_ : Side) :
    Prop :=
  ok = false → ∃ blocks rest, Parsed options (w.incoming.drop 32) blocks rest ∧
    s'.summary = summarize (outputDir options w.host.fs) s.summary (records blocks) ∧
    (s'.summary = s.summary ↔ records blocks = [])

theorem receiveStream_gains (f : Faults) (options : ReceiverOptions) (s : Refs) (w : Side) :
    Always f (receiveStream options) s w (Gains options s w) := by
  apply wp_mono (receiveStream_past f options s w)
  rintro ok s' w' (⟨-, ho⟩ | ⟨-, blocks, n, s₁, w₁, h, ho⟩ | ⟨rfl, -⟩) hok
  · exact ⟨[], _, ⟨rfl, by simp⟩, ho.summary, iff_of_true ho.summary rfl⟩
  · have hm := (ho.frame.1 rfl).trans h.summary
    exact ⟨blocks, _, h.through.parsed, hm, hm ▸ summarize_eq_self⟩
  · cases hok

theorem Begins.opens (h : Begins options w.host.fs w.incoming n)
    (ho : OpenOutcome .none options s w none s' w') : False := by
  obtain ⟨hlen, ⟨header, hp, -⟩, hdir⟩ := h
  have hw : w.incoming = w.incoming.take 32 ++ w.incoming.drop 32 :=
    (List.take_append_drop 32 w.incoming).symm
  cases ho with
  | noHandshake hh =>
    cases hh with
    | noHeader hr => cases (hr.of_encode id (by simpa using hlen) hw hp).1
    | noAck rest ha =>
      cases ha with
      | failed e sent _ hf => exact hf.elim id id
  | noOutput header' hh ho =>
    cases hh with
    | done =>
      cases ho with
      | missing fs₁ hm hno =>
        obtain rfl := (made_iff id).mp hm
        exact Bool.false_ne_true (hno.symm.trans hdir)

theorem lost_recvAll (hn : f.net) {len : ℕ} (hl : len ≠ 0) {Q : Option Bytes → Refs → Side → Prop}
    (h : Always f (recvAll len) s w Q) : Q none { s with ec := some .ioError } w := by
  unfold recvAll recv at h
  rw [dif_neg hl, Always, wp_bind, wp_bind] at h
  have hr := always_perform.mp h (.error .ioError) w ⟨.silent, ⟨rfl, rfl, hn⟩, rfl, rfl⟩
  rw [wp_bind, wp_setEc, wp_pure] at hr
  change wp _ _ (if _ : (-1 : ℤ) ≤ 0 then _ else _) _ _ _ at hr
  rw [dif_pos (by decide)] at hr
  exact hr

theorem lost_record (hn : f.net) {Q : Bool → Refs → Side → Prop}
    (h : Always f (receiveRecords options dir (n + 1)) s w Q) :
    Q false { s with ec := some .ioError } w := by
  unfold receiveRecords receiveRecord readFileHeader at h
  rw [Always, wp_bind, wp_bind, wp_bind] at h
  exact lost_recvAll hn (by decide) h

theorem header_of_receiveRecord {r : Record} {Q : Bool → Refs → Side → Prop} (hne : r.path ≠ [])
    (hi : w.incoming = r.encode ++ rest) (h : Always f (receiveRecord options dir) s w Q) :
    Always f (storeRecord options dir r.entry) s (w.reading (r.payload ++ rest)) Q := by
  unfold receiveRecord at h
  rw [Always, wp_bind] at h
  rw [Record.encode, List.append_assoc] at hi
  obtain ⟨_, _, _, hnext, ho⟩ := ((Always.none h).and always_readFileHeader).exists
  obtain ⟨rfl, rfl, rfl⟩ := ho.of_encode id r.fits hi
  have hnamed : r.entry.relPath ≠ [] := hne
  simp only [if_neg hnamed] at hnext
  exact hnext

theorem jammed_record (hd : f.disk) {r : Record} {Q : Bool → Refs → Side → Prop}
    (hne : r.path ≠ []) (hi : w.incoming = r.encode ++ rest)
    (h : Always f (receiveRecord options dir) s w Q) : ∃ s' w', Q false s' w' := by
  have hstore := header_of_receiveRecord hne hi h
  unfold storeRecord at hstore
  cases hv : validateAndJoin dir r.entry.relPath with
  | error er =>
    rw [hv] at hstore
    exact ⟨_, _, hstore⟩
  | ok safe =>
    rw [hv] at hstore
    unfold receivePayloadToFile at hstore
    simp only [Always, wp_bind] at hstore
    obtain ⟨_, s₁, w₁, hopen⟩ := Always.exists hstore
    exact ⟨_, _, always_perform.mp hopen false w₁ ⟨.silent, ⟨rfl, rfl, Or.inl hd⟩, rfl, rfl⟩⟩

theorem Prepared.may {target : Bytes} {Q : Unit → Refs → Side → Prop}
    (hp : Prepared f target w.host.fs fs) (h : Always f (createParent target) s w Q) :
    Q () s (w.on ⟨fs, w.host.stream⟩) := by
  obtain ⟨ps, hps, hd, rfl⟩ := hp
  unfold createParent at h
  split at h
  · exact always_perform.mp h () _ ⟨.silent, ⟨rfl, rfl, ps, hps, hd, rfl⟩, rfl, rfl⟩
  · rename_i hnil
    rw [ne_eq, not_not] at hnil
    rw [hnil] at hps
    obtain rfl := List.prefix_nil.mp hps
    exact h

theorem Opens.may {target : Bytes} {size : UInt64} {expected : UInt32} {k : Key} {payload : Bytes}
    {Q : Bool → Refs → Side → Prop} (ho : Opens f target w.host.fs fs k)
    (hl : payload.length = size.toNat) (hi : w.incoming = payload ++ rest)
    (hpass : passes expected payload = true)
    (h : Always f (receivePayloadToFile target size expected) s w Q) :
    ∃ s' w', Q true s' w' := by
  unfold receivePayloadToFile at h
  rw [Always, wp_bind] at h
  have hopen := ho.prepared.may h
  rw [wp_bind] at hopen
  obtain ⟨_, _, _, hcheck, rfl, ⟨-, -, hno⟩ | ⟨rfl, k', hl', -, host, rfl, hw⟩⟩ :=
    ((Always.none hopen).and always_openTrunc).exists
  · have hsome := FileSystem.openTrunc_eq_some.mpr ⟨ho.locate, ho.canPlace, rfl⟩
    exact absurd (hno.resolve_left id) (by simp [hsome])
  · obtain rfl : k' = k := Option.some.inj (hl'.symm.trans ho.locate)
    simp only [Bool.not_true, Bool.false_eq_true, if_false, wp_bind] at hcheck
    obtain ⟨ok, s₁, w₁, hclose, hout⟩ :=
      ((Always.none hcheck).and (always_receiveAndCheck ho.canPlace hw)).exists
    have hok : ok = true := by
      cases hout with
      | whole payload' rest' p h' hl₁ hi₁ =>
        obtain ⟨rfl, -⟩ := List.append_inj (hi₁.symm.trans hi) (hl₁.trans hl.symm)
        exact hpass
      | cut p h' hlt =>
        have hlen := congrArg List.length hi
        rw [List.length_append] at hlen
        exact absurd hlt (by simp only [World.incoming_on]; omega)
      | failed e bs rest' stored p h' hg => exact absurd hg (by simp [GivenUp, Faults.none])
    subst hok
    obtain ⟨_, _, _, hq⟩ := Always.exists hclose
    exact ⟨_, _, hq⟩

theorem Through.may {r : Record} {Q : Bool → Refs → Side → Prop}
    (h : Through f options dir w.host.fs w.incoming [.record r] F rest)
    (hq : Always f (receiveRecord options dir) s w Q) : ∃ s' w', Q true s' w' := by
  obtain ⟨t, hi, ⟨hne, -⟩, -⟩ := h.parsed.cons_inv
  obtain ⟨-, hadm⟩ := h
  obtain _ | ⟨_, safe, stored, fs₁, k, hv, ho, hpass, -, -, -⟩ := hadm
  have hstore := header_of_receiveRecord hne hi hq
  unfold storeRecord at hstore
  rw [Record.relPath_entry, hv] at hstore
  simp only [Always, wp_bind] at hstore
  obtain ⟨s', w', hq⟩ := ho.may (w := w.reading (r.payload ++ t)) (r.toNat_size).symm rfl hpass hstore
  exact ⟨_, _, hq⟩

theorem skip_bare {Q : Bool → Refs → Side → Prop} (hp : Parsed options w.incoming blocks rest)
    (hno : records blocks = [])
    (h : Always f (receiveRecords options dir (blocks.length + n)) s w Q) :
    Always f (receiveRecords options dir n) s (w.reading rest) Q := by
  induction blocks generalizing w with
  | nil =>
    obtain rfl : w.incoming = rest := hp.stream
    rwa [List.length_nil, Nat.zero_add] at h
  | cons b blocks ih =>
    obtain ⟨t, hi, hb, ht⟩ := hp.cons_inv
    cases b with
    | bare e =>
      rw [List.length_cons, Nat.succ_add, receiveRecords, Always, wp_bind] at h
      obtain ⟨ok, _, _, hnext, ho⟩ := ((Always.none h).and always_receiveRecord).exists
      obtain ⟨rfl, rfl, rfl⟩ := ho.bare id hb hi
      exact ih (w := w.reading t) ht hno hnext
    | record r => cases hno

/-- Once the summary has gained a record and is to be kept, the connection does not fail, and the
receiver gets past all that is announced, which has no other record if the disk may fail. -/
theorem goes_on {m : ReceiverSummary} {Q : Bool → Refs → Side → Prop} (hne : rs ≠ [])
    (hs : s.summary = summarize dir m rs) (hQ : ∀ s' w', Q false s' w' → s'.summary = m)
    (h : Always f (receiveRecords options dir n) s w Q) : (0 < n → ¬ f.net) ∧
    ∃ more F rest, Through f options dir w.host.fs w.incoming more F rest ∧ more.length = n ∧
      (f.disk → records more = []) := by
  induction n generalizing s w rs with
  | zero => exact ⟨nofun, [], _, _, .nil f options dir _ _, rfl, fun _ => rfl⟩
  | succ n ih =>
    have hgained : ∀ {s' w'}, Q false s' w' → s'.summary ≠ s.summary := fun hq he =>
      hne (summarize_eq_self.mp (hs.symm.trans (he.symm.trans (hQ _ _ hq))))
    refine ⟨fun _ hn => hgained (lost_record hn h) rfl, ?_⟩
    rw [receiveRecords, Always, wp_bind] at h
    have hboth := Always.and h always_receiveRecord
    obtain ⟨ok, s', w', hnext, ho⟩ := (Always.none hboth).exists
    cases ok with
    | false => exact absurd (ho.frame.1 rfl) (hgained hnext)
    | true =>
      obtain ⟨b, hb, hm⟩ := ho.taken.block
      have hbare : f.disk → records [b] = [] := by
        intro hd
        obtain ⟨t, hi, hacc, -⟩ := hb.parsed.cons_inv
        cases b with
        | bare e => rfl
        | record r =>
          obtain ⟨_, _, hq, ho⟩ := jammed_record hd hacc.1 hi hboth
          exact absurd (ho.frame.1 rfl) (hgained hq)
      have hs' : s'.summary = summarize dir m (rs ++ records [b]) := by
        rw [hm, hs, summarize_append]
      obtain ⟨-, more, F, rest, hmore, hlen, hrec⟩ := ih (by simp [hne]) hs' hnext
      refine ⟨b :: more, F, rest, Through.append_iff.mpr ⟨_, _, hb, hmore⟩, by simp [hlen], ?_⟩
      intro hd
      rw [← List.singleton_append, records_append, hbare hd, hrec hd]
      rfl

/-- A failed session hands back the summary that it was given. -/
def Kept (s : Refs) (ok : Bool) (s' : Refs) (_ : Side) : Prop :=
  ok = false → s'.summary = s.summary

theorem goes_on_from {Q : Bool → Refs → Side → Prop} (hQ : ∀ s' w', Q false s' w' →
      s'.summary = s.summary)
    (ht : Through f options dir w.host.fs w.incoming blocks F rest) (hne : records blocks ≠ [])
    (hlt : blocks.length < n) (h : Always f (receiveRecords options dir n) s w Q) :
    ¬ f.net ∧ ∃ all F rest, Through f options dir w.host.fs w.incoming all F rest ∧
      all.length = n ∧ (f.disk → (records all).length ≤ 1) := by
  obtain ⟨bs, r, more, rfl, hbs⟩ := exists_first_record hne
  obtain ⟨fs', t, hbare, hrest⟩ := Through.append_iff.mp ht
  obtain ⟨_, _, hr, -⟩ := Through.append_iff.mp (List.singleton_append ▸ hrest)
  obtain rfl : w.host.fs = fs' := by
    have hadm := hbare.admitted
    rw [hbs] at hadm
    cases hadm
    rfl
  obtain ⟨m, rfl⟩ : ∃ m, n = bs.length + (m + 2) := by
    rw [List.length_append, List.length_cons] at hlt
    exact ⟨n - bs.length - 2, by omega⟩
  have hskip := skip_bare (n := m + 2) hbare.parsed hbs h
  rw [receiveRecords, Always, wp_bind] at hskip
  have hboth := Always.and hskip always_receiveRecord
  obtain ⟨s', w', hnext, ho⟩ := Through.may (w := w.reading t) hr hboth
  obtain ⟨b, hb, hm⟩ := ho.taken.block
  obtain rfl : b = .record r := by
    obtain ⟨_, hi, hacc, -⟩ := hr.parsed.cons_inv
    obtain ⟨_, hi', hacc', -⟩ := hb.parsed.cons_inv
    exact (Block.encode_inj hacc hacc' (hi.symm.trans hi')).1.symm
  obtain ⟨hn, more', F', rest', hmore, hlen, hrec⟩ := goes_on (by simp [records, Block.record?]) hm hQ hnext
  refine ⟨hn (Nat.succ_pos m), bs ++ (.record r :: more'), F', rest', ?_, ?_, fun hd => ?_⟩
  · refine Through.append_iff.mpr ⟨_, _, hbare, ?_⟩
    exact List.singleton_append ▸ Through.append_iff.mpr ⟨_, _, hb, hmore⟩
  · rw [List.length_append, List.length_cons, hlen]
  · rw [records_append, hbs, ← List.singleton_append, records_append, hrec hd]
    exact le_rfl

/-- If the summary is kept, the connection does not fail once the receiver may have got past a
record that is not the last block, and the receiver gets past all that was announced. -/
theorem past_all_of_kept (hb : Begins options w.host.fs w.incoming n)
    (hp : GetsPast f options w.host.fs w.incoming blocks) (hne : records blocks ≠ [])
    (hlt : blocks.length < n) (h : Always f (receiveStream options) s w (Kept s)) :
    ¬ f.net ∧ ∃ blocks, GetsPast f options w.host.fs w.incoming blocks ∧ blocks.length = n ∧
      (f.disk → (records blocks).length ≤ 1) := by
  unfold receiveStream at h
  rw [Always, wp_bind] at h
  obtain ⟨o, s₁, w₁, hnext, ho⟩ := ((Always.none h).and always_openSession).exists
  cases o with
  | none => exact (hb.opens ho).elim
  | some p =>
    obtain ⟨header, dir⟩ := p
    obtain ⟨hm, -, hh, rfl, -, -, hfs, hin, -⟩ := ho.interpreted id id id
    obtain ⟨header', hh', rfl⟩ := hb.header
    obtain rfl := Option.some.inj (hh.symm.trans hh')
    change wp _ _ (receiveRecords options _ header.totalFiles.toNat >>= _) s₁ w₁ _ at hnext
    rw [wp_bind] at hnext
    obtain ⟨F, rest, ht⟩ := hp
    rw [← hfs, ← hin] at ht
    obtain ⟨hn, all, F', rest', hall, hlen, hrec⟩ :=
      goes_on_from (fun s' w' hq => (hq rfl).trans hm.symm) ht hne hlt hnext
    rw [hfs, hin] at hall
    exact ⟨hn, all, ⟨F', rest', hall⟩, hlen, hrec⟩

/-- A session that fails in an iteration without a failure of the connection has got past all that
can be got past, up to a second record if the disk may fail. -/
theorem Past.stops (hn : ¬ f.net) (hp : Past f options s₀ w₀ blocks (n + 1) s w)
    (ho : RecordOutcome f options (outputDir options w₀.host.fs) s w false s' w')
    (h : GetsPast f options w₀.host.fs w₀.incoming blocks') (hne : records blocks ≠ [])
    (hd : f.disk → (records blocks').length ≤ 1) : blocks' <+: blocks := by
  obtain ⟨F, rest, ht⟩ := h
  rcases ht.parsed.prefix_or_prefix hp.through.parsed with hle | ⟨_ | ⟨b, more⟩, rfl⟩
  · exact hle
  · exact (List.append_nil blocks).symm ▸ List.prefix_rfl
  · obtain ⟨fs', t, hbs, hmore⟩ := Through.append_iff.mp ht
    obtain ⟨_, _, hb, -⟩ := Through.append_iff.mp (List.singleton_append ▸ hmore)
    obtain rfl : t = w.incoming :=
      List.append_cancel_left (hbs.parsed.stream.symm.trans hp.through.parsed.stream)
    cases b with
    | bare e =>
      obtain ⟨_, hi, he, -⟩ := hb.parsed.cons_inv
      cases (ho.bare hn he hi).1
    | record r =>
      have hnd : ¬ f.disk := by
        intro hdisk
        have hle := hd hdisk
        have hpos := List.length_pos_iff.mpr hne
        rw [records_append, List.length_append] at hle
        simp only [records, Block.record?, List.filterMap_cons, List.length_cons] at hle hpos
        omega
      obtain ⟨rfl, -⟩ := hbs.unique hnd hp.through
      cases hb.ok hn hnd ho

/-- The summary of a failed session is what it was with the records that were stored, whatever
fails. It is what it was if and only if, once the receiver can have got past a record before the
last of what is announced, the connection does not fail and the receiver gets past everything that
is announced, with no second record in it if the disk may fail. -/
theorem summary_kept_iff (f : Faults) (options : ReceiverOptions) (s : Refs) (w : Side) :
    Always f (receiveStream options) s w (Gains options s w) ∧
    (Always f (receiveStream options) s w (Kept s) ↔
      ∀ n, Begins options w.host.fs w.incoming n →
        (∃ blocks, GetsPast f options w.host.fs w.incoming blocks ∧ records blocks ≠ [] ∧
          blocks.length < n) →
        ¬ f.net ∧ ∃ blocks, GetsPast f options w.host.fs w.incoming blocks ∧ blocks.length = n ∧
          (f.disk → (records blocks).length ≤ 1)) := by
  refine ⟨receiveStream_gains f options s w, ?_, fun h => ?_⟩
  · rintro h n hb ⟨blocks, hp, hne, hlt⟩
    exact past_all_of_kept hb hp hne hlt h
  · apply wp_mono (receiveStream_past _ options s w)
    rintro ok s' w' (⟨-, ho⟩ | ⟨-, bs, n, s₁, w₁, hpast, ho⟩ | ⟨rfl, -⟩) hok
    · exact ho.summary
    · rw [ho.frame.1 rfl, hpast.summary, summarize_eq_self]
      by_contra hne
      have hgot : GetsPast f options w.host.fs w.incoming bs := ⟨_, _, hpast.through⟩
      obtain ⟨hn, all, hall, hlen, hrec⟩ := h _ hpast.begins ⟨bs, hgot, hne, by omega⟩
      have hle := (hpast.stops hn ho hall hne hrec).length_le
      omega
    · cases hok

/-- A session that announces two records and ends after the first. -/
def cutSession : Bytes :=
  encodeSessionHeader { totalFiles := 2 } ++ (Record.small 0x61 0 0x62).encode

/-- The reception of that session fails, and its summary has a file. -/
theorem cutSession_not_kept :
    ¬ Always .none (receiveStream { outputDir := rootName }) {} ⟨⟨.empty, none⟩, cutSession, []⟩
      (Kept {}) := by
  intro h
  obtain ⟨ok, s', w', ⟨r, hr, hok, -, -, ⟨t, hm⟩, -⟩, hkept⟩ :=
    ((always_receiveStream_interpret id id id).and h).exists
  have hi : (interpret { outputDir := rootName } .empty {} cutSession).ok = false ∧
      (interpret { outputDir := rootName } .empty {} cutSession).summary.totalFiles = 1 := by
    rw [cutSession, interpret_encode _ _ (by decide)]
    decide
  rw [show interpret { outputDir := rootName } .empty {} cutSession = r from hr] at hi
  have htotal := congrArg ReceiverSummary.totalFiles (hkept (hok.trans hi.1))
  rw [hm] at htotal
  exact absurd (hi.2.symm.trans htotal) (by decide)

end Xfer.Transfer
