import Xfer.Transfer.Codec
import Xfer.Transfer.Payload

/-! # Receiving records

What one iteration of the record loop does, and the rule by which a property of
the loop follows from one of its iterations.
-/

namespace Xfer.Transfer

open Net Common Posix Process Code

variable {f : Faults} {s s' : Refs} {w w' : Side} {options : ReceiverOptions} {out : Bytes}

/-- A record as the protocol lays it out, with a payload of the announced size. -/
structure Record where
  path : Bytes
  crc : UInt32
  payload : Bytes
  fits : path.length ≤ 0xFFFF
  size_lt : payload.length < 2 ^ 64

namespace Record

def entry (r : Record) : FileEntry := ⟨r.path, UInt64.ofNat r.payload.length, r.crc⟩

def encode (r : Record) : Bytes := encodeFileHeader r.entry ++ r.payload

@[simp] theorem toNat_size (r : Record) : r.entry.size.toNat = r.payload.length :=
  UInt64.toNat_ofNat_of_lt' r.size_lt

@[simp] theorem relPath_entry (r : Record) : r.entry.relPath = r.path := rfl

theorem length_encode (r : Record) :
    r.encode.length = 18 + r.path.length + r.payload.length := by
  simp [encode]

theorem encode_inj {r r' : Record} {rest rest' : Bytes}
    (h : r.encode ++ rest = r'.encode ++ rest') : r = r' ∧ rest = rest' := by
  simp only [encode, List.append_assoc] at h
  obtain ⟨he, h⟩ := encodeFileHeader_inj r.fits r'.fits h
  have hl := congrArg (fun e : FileEntry => e.size.toNat) he
  simp only [toNat_size] at hl
  obtain ⟨hp, hr⟩ := List.append_inj h hl
  refine ⟨?_, hr⟩
  obtain ⟨path, crc, payload, _, _⟩ := r
  obtain ⟨path', crc', payload', _, _⟩ := r'
  simp only [entry, FileEntry.mk.injEq] at he
  obtain ⟨rfl, -, rfl⟩ := he
  obtain rfl := hp
  rfl

/-- A record with a path and a payload of one byte each. -/
def small (path : UInt8) (crc : UInt32) (payload : UInt8) : Record :=
  ⟨[path], crc, [payload], by simp, by simp⟩

end Record

/-- What the sender makes of a file: a record with a name and the checksum of its payload. -/
structure SentRecord extends Record where
  named : path ≠ []
  genuine : crc = Crc32.compute payload

/-- The checksum that a payload is compared with. -/
def expectedCrc (options : ReceiverOptions) (crc : UInt32) : UInt32 :=
  if options.verifyCrc then crc else 0

/-- One iteration of the record loop. -/
inductive RecordOutcome (f : Faults) (options : ReceiverOptions) (out : Bytes) (s : Refs)
    (w : Side) : Bool → Refs → Side → Prop
  | noHeader {s' : Refs} {w' : Side} : FileHeaderOutcome f s w none s' w' →
      RecordOutcome f options out s w false s' w'
  | skipped (e : FileEntry) (rest : Bytes) : e.relPath = [] →
      w.incoming = encodeFileHeader e ++ rest →
      RecordOutcome f options out s w true s (w.reading rest)
  | rejected (e : FileEntry) (rest : Bytes) (er : Errc) : e.relPath ≠ [] →
      e.relPath.length ≤ 0xFFFF → w.incoming = encodeFileHeader e ++ rest →
      validateAndJoin out e.relPath = .error er →
      RecordOutcome f options out s w false { s with ec := some er } (w.reading rest)
  | refused (e : FileEntry) (rest safe : Bytes) {s' : Refs} {w' : Side} : e.relPath ≠ [] →
      e.relPath.length ≤ 0xFFFF → w.incoming = encodeFileHeader e ++ rest →
      validateAndJoin out e.relPath = .ok safe →
      FileOutcome f safe e.size (expectedCrc options e.crc32) s (w.reading rest) false s' w' →
      RecordOutcome f options out s w false s' w'
  | stored (e : FileEntry) (rest safe : Bytes) {s' : Refs} {w' : Side} : e.relPath ≠ [] →
      e.relPath.length ≤ 0xFFFF → w.incoming = encodeFileHeader e ++ rest →
      validateAndJoin out e.relPath = .ok safe →
      FileOutcome f safe e.size (expectedCrc options e.crc32) s (w.reading rest) true s' w' →
      RecordOutcome f options out s w true { s' with summary := s'.summary.add e.size safe } w'

theorem always_receiveRecord :
    Always f (receiveRecord options out) s w (RecordOutcome f options out s w) := by
  unfold receiveRecord
  rw [Always, wp_bind]
  apply wp_mono always_readFileHeader
  intro r s₁ w₁ hr
  cases r with
  | none => exact .noHeader hr
  | some e =>
    cases hr with
    | read e rest hl hi =>
      simp only
      split
      · rename_i he
        exact .skipped e rest he hi
      · rename_i he
        unfold storeRecord
        cases hv : validateAndJoin out e.relPath with
        | error er => exact .rejected e rest er he hl hi hv
        | ok safe =>
          simp only [wp_bind]
          apply wp_mono always_receivePayloadToFile
          intro ok s₂ w₂ ho
          cases ok with
          | false => exact .refused e rest safe he hl hi hv ho
          | true => exact .stored e rest safe he hl hi hv ho

/-- A property that every successful iteration hands on, one record at a time. -/
theorem always_receiveRecords {I : ℕ → Refs → Side → Prop} {J : Refs → Side → Prop}
    (hstep : ∀ {n s w ok s' w'}, I (n + 1) s w → RecordOutcome f options out s w ok s' w' →
      if ok then I n s' w' else J s' w') {n : ℕ} (h : I n s w) :
    Always f (receiveRecords options out n) s w fun ok s' w' =>
      if ok then I 0 s' w' else J s' w' := by
  induction n generalizing s w with
  | zero => exact h
  | succ n ih =>
    rw [receiveRecords, Always, wp_bind]
    apply wp_mono always_receiveRecord
    intro ok s₁ w₁ ho
    have hs := hstep h ho
    cases ok with
    | false => exact hs
    | true => exact ih hs

/-- A path that passes the check neither is absolute nor climbs. -/
theorem validateAndJoin_eq_ok {dir rel safe : Bytes} (h : validateAndJoin dir rel = .ok safe) :
    isAbsolute rel = false ∧ dotdot ∉ names rel ∧ safe = join dir rel := by
  unfold validateAndJoin at h
  split at h
  · cases h
  · rename_i hany
    split at h
    · cases h
    · rename_i ha
      refine ⟨by simpa using ha, fun hm => hany ?_, (Except.ok.inj h).symm⟩
      rw [List.any_eq_true]
      refine ⟨dotdot, ?_, by decide⟩
      unfold elements
      exact List.mem_append_left _ (List.mem_append_right _ hm)

theorem FileOutcome.ec {target : Bytes} {size : UInt64} {expected : UInt32} {ok : Bool}
    (h : FileOutcome f target size expected s w ok s' w') :
    if ok then s'.ec = s.ec else s'.ec ≠ none := by
  cases h with
  | whole => split <;> simp_all
  | _ => simp

theorem FileHeaderOutcome.ec_ne_none (h : FileHeaderOutcome f s w none s' w') : s'.ec ≠ none := by
  cases h with
  | malformed => simp
  | lost hlost => cases hlost <;> simp
  | lostPath _ _ _ _ _ _ _ _ hlost => cases hlost <;> simp

theorem RecordOutcome.ec {ok : Bool} (h : RecordOutcome f options out s w ok s' w') :
    if ok then s'.ec = s.ec else s'.ec ≠ none := by
  cases h with
  | noHeader hh => exact hh.ec_ne_none
  | skipped => rfl
  | rejected => simp
  | refused e rest safe hne hl hi hv ho => exact ho.ec
  | stored e rest safe hne hl hi hv ho => exact ho.ec

theorem FileOutcome.frame {target : Bytes} {size : UInt64} {expected : UInt32} {ok : Bool}
    (h : FileOutcome f target size expected s w ok s' w') :
    s'.summary = s.summary ∧ w'.outgoing = w.outgoing := by
  cases h <;> exact ⟨rfl, rfl⟩

theorem FileOutcome.suffix {target : Bytes} {size : UInt64} {expected : UInt32} {ok : Bool}
    (h : FileOutcome f target size expected s w ok s' w') : w'.incoming <:+ w.incoming := by
  cases h with
  | closed => exact List.suffix_rfl
  | whole fs₁ k payload rest stored p _ _ hi => exact ⟨payload, hi.symm⟩
  | cut => exact List.nil_suffix
  | failed e fs₁ k bs rest stored p _ _ hi => exact ⟨bs, hi.symm⟩

theorem FileHeaderOutcome.suffix {r : Option FileEntry} (h : FileHeaderOutcome f s w r s' w') :
    w'.incoming <:+ w.incoming := by
  have hlost : ∀ {len}, Lost f len s w s' w' → w'.incoming <:+ w.incoming := fun hl => by
    cases hl with
    | reset => exact List.nil_suffix
    | failed e bs rest _ hi => exact ⟨bs, hi.symm⟩
  cases h with
  | read e rest _ hi => exact ⟨_, hi.symm⟩
  | malformed buf rest _ hi => exact ⟨buf, hi.symm⟩
  | lost hl => exact hlost hl
  | lostPath _ _ _ _ _ _ _ _ hl => exact hlost hl

theorem FileHeaderOutcome.frame {r : Option FileEntry} (h : FileHeaderOutcome f s w r s' w') :
    s'.summary = s.summary ∧ w'.outgoing = w.outgoing ∧ w'.host = w.host := by
  cases h with
  | lost hl => cases hl <;> exact ⟨rfl, rfl, rfl⟩
  | lostPath _ _ _ _ _ _ _ _ hl => cases hl <;> exact ⟨rfl, rfl, rfl⟩
  | _ => exact ⟨rfl, rfl, rfl⟩

theorem RecordOutcome.frame {ok : Bool} (h : RecordOutcome f options out s w ok s' w') :
    (ok = false → s'.summary = s.summary) ∧ w'.outgoing = w.outgoing := by
  cases h with
  | noHeader hh => exact ⟨fun _ => hh.frame.1, hh.frame.2.1⟩
  | skipped => exact ⟨nofun, rfl⟩
  | rejected => exact ⟨fun _ => rfl, rfl⟩
  | refused e rest safe _ _ _ _ ho => exact ⟨fun _ => ho.frame.1, ho.frame.2⟩
  | stored e rest safe _ _ _ _ ho => exact ⟨nofun, ho.frame.2⟩

theorem RecordOutcome.length_lt (hn : ¬ f.net) {r : Record} {rest : Bytes} {ok : Bool}
    (hi : w.incoming = r.encode ++ rest) (h : RecordOutcome f options out s w ok s' w') :
    w'.incoming.length < w.incoming.length := by
  have hshort : ∀ {e : FileEntry} {rest : Bytes}, w.incoming = encodeFileHeader e ++ rest →
      rest.length < w.incoming.length := fun he => by
    rw [he, List.length_append, length_encodeFileHeader]
    omega
  cases h with
  | noHeader hh =>
    rw [Record.encode, List.append_assoc] at hi
    cases (hh.of_encode hn r.fits hi).1
  | skipped e rest _ he => exact hshort he
  | rejected e rest er _ _ he => exact hshort he
  | refused e rest safe _ _ he _ ho => exact ho.suffix.length_le.trans_lt (hshort he)
  | stored e rest safe _ _ he _ ho => exact ho.suffix.length_le.trans_lt (hshort he)

/-- What a successful iteration has taken from the stream and done with it: a header without a
name, which it skips, or a record, which it stores. -/
inductive Taken (f : Faults) (options : ReceiverOptions) (out : Bytes) (s : Refs) (w : Side) :
    Refs → Side → Prop
  | bare (e : FileEntry) (rest : Bytes) : e.relPath = [] →
      w.incoming = encodeFileHeader e ++ rest → Taken f options out s w s (w.reading rest)
  | record (r : Record) (rest safe : Bytes) (fs₁ : FileSystem) (k : Key) (stored : Bytes)
      (p : UInt64) : r.path ≠ [] → w.incoming = r.encode ++ rest →
      validateAndJoin out r.path = .ok safe → Opens f safe w.host.fs fs₁ k →
      passes (expectedCrc options r.crc) r.payload = true → stored <+: r.payload →
      stored = r.payload ∨ f.disk →
      Taken f options out s w
        { s with progress := p, summary := s.summary.add r.entry.size safe }
        ((w.reading rest).on ⟨fs₁.place k (.file stored), none⟩)

theorem RecordOutcome.taken (h : RecordOutcome f options out s w true s' w') :
    Taken f options out s w s' w' := by
  cases h with
  | skipped e rest he hi => exact .bare e rest he hi
  | stored e rest safe he hl hi hv ho =>
    generalize hok : true = ok at ho
    cases ho with
    | whole fs₁ k payload rest' stored p ho hlen hi' hs hd =>
      obtain ⟨path, size, crc⟩ := e
      have hr : size = UInt64.ofNat payload.length := by rw [hlen, UInt64.ofNat_toNat]
      subst hr
      let r : Record := ⟨path, crc, payload, hl, hlen ▸ UInt64.toNat_lt _⟩
      rw [World.incoming_reading] at hi'
      have hi₂ : w.incoming = r.encode ++ rest' := by
        rw [hi, hi', Record.encode, List.append_assoc]
        rfl
      rw [← hok]
      exact .record r rest' safe fs₁ k stored p he hi₂ hv ho hok.symm hs hd
    | _ => cases hok

end Xfer.Transfer
