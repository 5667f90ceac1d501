import Xfer.Net.Exchange
import Xfer.Transfer.Protocol

/-! # Messages

What the read functions make of a buffer, the round trip of each message, and
the outcomes of the functions that read and write messages.
-/

namespace Xfer.Transfer

open Net Common Process Code

variable {f : Faults} {G : Side → Call → Prop} {s : Refs} {w : Side}

@[simp] theorem decodeU16LE_encodeU16LE (v : UInt16) (rest : Bytes) :
    decodeU16LE (encodeU16LE v ++ rest) = v := by
  rw [decodeU16LE, encodeU16LE, decodeLE_encodeLE, Nat.mod_eq_of_lt v.toNat_lt, UInt16.ofNat_toNat]

@[simp] theorem decodeU32LE_encodeU32LE (v : UInt32) (rest : Bytes) :
    decodeU32LE (encodeU32LE v ++ rest) = v := by
  rw [decodeU32LE, encodeU32LE, decodeLE_encodeLE, Nat.mod_eq_of_lt v.toNat_lt, UInt32.ofNat_toNat]

@[simp] theorem decodeU64LE_encodeU64LE (v : UInt64) (rest : Bytes) :
    decodeU64LE (encodeU64LE v ++ rest) = v := by
  rw [decodeU64LE, encodeU64LE, decodeLE_encodeLE, Nat.mod_eq_of_lt v.toNat_lt, UInt64.ofNat_toNat]

theorem encodeU16LE_decodeU16LE {p : Bytes} (h : 2 ≤ p.length) :
    encodeU16LE (decodeU16LE p) = p.take 2 := by
  have hlt := decodeLE_lt 2 p
  rw [encodeU16LE, decodeU16LE, UInt16.toNat_ofNat_of_lt' (by unfold UInt16.size; omega),
    encodeLE_decodeLE_take h]

theorem encodeU32LE_decodeU32LE {p : Bytes} (h : 4 ≤ p.length) :
    encodeU32LE (decodeU32LE p) = p.take 4 := by
  have hlt := decodeLE_lt 4 p
  rw [encodeU32LE, decodeU32LE, UInt32.toNat_ofNat_of_lt' (by unfold UInt32.size; omega),
    encodeLE_decodeLE_take h]

theorem encodeU64LE_decodeU64LE {p : Bytes} (h : 8 ≤ p.length) :
    encodeU64LE (decodeU64LE p) = p.take 8 := by
  have hlt := decodeLE_lt 8 p
  rw [encodeU64LE, decodeU64LE, UInt64.toNat_ofNat_of_lt' (by unfold UInt64.size; omega),
    encodeLE_decodeLE_take h]

@[simp] theorem length_encodeU16LE (v : UInt16) : (encodeU16LE v).length = 2 := length_encodeLE 2 _
@[simp] theorem length_encodeU32LE (v : UInt32) : (encodeU32LE v).length = 4 := length_encodeLE 4 _
@[simp] theorem length_encodeU64LE (v : UInt64) : (encodeU64LE v).length = 8 := length_encodeLE 8 _

theorem sessionFields_eq (h : SessionHeader) : sessionFields h =
    encodeU32LE kProtoMagic ++ (encodeU16LE h.version ++ (encodeU16LE 0 ++
      (encodeU64LE h.totalFiles ++ (encodeU64LE h.totalBytes ++ encodeU32LE h.flags)))) := by
  simp [sessionFields, poke, encodeU16LE, encodeU32LE, encodeU64LE, encodeLE, List.range_succ]

theorem encodeAck_eq (v : UInt32) : encodeAck v = encodeU32LE kProtoAck ++ encodeU32LE v := by
  simp [encodeAck, poke, encodeU32LE, encodeLE, List.range_succ]

theorem encodeFixed_eq (e : FileEntry) : encodeFixed e =
    encodeU32LE kFileMagic ++ (encodeU16LE (UInt16.ofNat e.relPath.length) ++
      (encodeU64LE e.size ++ encodeU32LE e.crc32)) := by
  simp [encodeFixed, poke, encodeU16LE, encodeU32LE, encodeU64LE, encodeLE, List.range_succ]

@[simp] theorem length_sessionFields (h : SessionHeader) : (sessionFields h).length = 28 := by
  simp [sessionFields_eq]

@[simp] theorem length_encodeSessionHeader (h : SessionHeader) :
    (encodeSessionHeader h).length = 32 := by
  simp [encodeSessionHeader]

@[simp] theorem length_encodeAck (v : UInt32) : (encodeAck v).length = 8 := by
  simp [encodeAck_eq]

@[simp] theorem length_encodeFixed (e : FileEntry) : (encodeFixed e).length = 18 := by
  simp [encodeFixed_eq]

@[simp] theorem length_encodeDone : encodeDone.length = 4 := length_encodeU32LE _

/-- What `ReadSessionHeader` makes of 32 bytes. -/
def sessionOf (buf : Bytes) : Option SessionHeader :=
  if decodeU32LE buf ≠ kProtoMagic then none
  else if decodeU32LE (buf.drop 28) ≠ Crc32.compute (buf.take 28) then none
  else some {
    version := decodeU16LE (buf.drop 4)
    totalFiles := decodeU64LE (buf.drop 8)
    totalBytes := decodeU64LE (buf.drop 16)
    flags := decodeU32LE (buf.drop 24) }

/-- What `ReadAck` makes of 8 bytes. -/
def ackOf (buf : Bytes) : Option UInt32 :=
  if decodeU32LE buf ≠ kProtoAck then none else some (decodeU32LE (buf.drop 4))

/-- The length of the path, the size and the checksum that `ReadFileHeader` finds in 18 bytes. -/
def fixedOf (buf : Bytes) : Option (UInt16 × UInt64 × UInt32) :=
  if decodeU32LE buf ≠ kFileMagic then none
  else some (decodeU16LE (buf.drop 4), decodeU64LE (buf.drop 6), decodeU32LE (buf.drop 14))

theorem sessionOf_encode (h : SessionHeader) : sessionOf (encodeSessionHeader h) = some h := by
  have htake : (encodeSessionHeader h).take 28 = sessionFields h := by
    rw [encodeSessionHeader, List.take_left' (length_sessionFields h)]
  have hdrop : (encodeSessionHeader h).drop 28 = encodeU32LE (Crc32.compute (sessionFields h)) := by
    rw [encodeSessionHeader, List.drop_left' (length_sessionFields h)]
  have hcrc := decodeU32LE_encodeU32LE (Crc32.compute (sessionFields h)) []
  rw [List.append_nil] at hcrc
  have hbuf : encodeSessionHeader h = (encodeU32LE kProtoMagic ++ encodeU16LE h.version ++
      encodeU16LE 0) ++ (encodeU64LE h.totalFiles ++ (encodeU64LE h.totalBytes ++
        (encodeU32LE h.flags ++ encodeU32LE (Crc32.compute (sessionFields h))))) := by
    simp only [encodeSessionHeader, sessionFields_eq, List.append_assoc]
  have hmagic : decodeU32LE (encodeSessionHeader h) = kProtoMagic := by
    simp only [hbuf, List.append_assoc, decodeU32LE_encodeU32LE]
  have hversion : decodeU16LE ((encodeSessionHeader h).drop 4) = h.version := by
    rw [hbuf, List.append_assoc, List.append_assoc, List.drop_left' (length_encodeU32LE _),
      decodeU16LE_encodeU16LE]
  have h8 : (encodeSessionHeader h).drop 8 = encodeU64LE h.totalFiles ++ (encodeU64LE h.totalBytes ++
      (encodeU32LE h.flags ++ encodeU32LE (Crc32.compute (sessionFields h)))) := by
    rw [hbuf, List.drop_left' (by simp)]
  have h16 : (encodeSessionHeader h).drop 16 = encodeU64LE h.totalBytes ++
      (encodeU32LE h.flags ++ encodeU32LE (Crc32.compute (sessionFields h))) := by
    rw [← List.drop_drop (i := 8) (j := 8), h8, List.drop_left' (length_encodeU64LE _)]
  have h24 : (encodeSessionHeader h).drop 24 =
      encodeU32LE h.flags ++ encodeU32LE (Crc32.compute (sessionFields h)) := by
    rw [← List.drop_drop (i := 8) (j := 16), h16, List.drop_left' (length_encodeU64LE _)]
  rw [sessionOf, htake, hdrop, hcrc, hmagic, hversion, h8, h16, h24, if_neg (not_not.mpr rfl),
    if_neg (not_not.mpr rfl), decodeU64LE_encodeU64LE, decodeU64LE_encodeU64LE,
    decodeU32LE_encodeU32LE]

theorem ackOf_encode (v : UInt32) : ackOf (encodeAck v) = some v := by
  have h := decodeU32LE_encodeU32LE v []
  rw [List.append_nil] at h
  simp [ackOf, encodeAck_eq, h]

theorem fixedOf_encode (e : FileEntry) : fixedOf (encodeFixed e) =
    some (UInt16.ofNat e.relPath.length, e.size, e.crc32) := by
  have h := decodeU32LE_encodeU32LE e.crc32 []
  rw [List.append_nil] at h
  simp [fixedOf, encodeFixed_eq, List.drop_append, List.drop_eq_nil_of_le, h]

theorem decode_encodeDone : decodeU32LE encodeDone = kDoneMagic := by
  have h := decodeU32LE_encodeU32LE kDoneMagic []
  rwa [List.append_nil] at h

/-- A message of `len` bytes is read, refused, or does not arrive. -/
inductive ReadOutcome {α : Type} (f : Faults) (len : ℕ) (parse : Bytes → Option α) (s : Refs)
    (w : Side) : Option α → Refs → Side → Prop
  | read (buf rest : Bytes) (a : α) : buf.length = len → w.incoming = buf ++ rest →
      parse buf = some a → ReadOutcome f len parse s w (some a) s (w.reading rest)
  | malformed (buf rest : Bytes) : buf.length = len → w.incoming = buf ++ rest →
      parse buf = none →
      ReadOutcome f len parse s w none { s with ec := some .invalidArgument } (w.reading rest)
  | lost {s' : Refs} {w' : Side} : Lost f len s w s' w' → ReadOutcome f len parse s w none s' w'

/-- Without network faults, a message that is there is read. -/
theorem ReadOutcome.of_encode {α : Type} {len : ℕ} {parse : Bytes → Option α} {enc rest : Bytes}
    {a : α} {r : Option α} {s' : Refs} {w' : Side} (hf : ¬ f.net) (hl : enc.length = len)
    (hi : w.incoming = enc ++ rest) (hp : parse enc = some a)
    (h : ReadOutcome f len parse s w r s' w') : r = some a ∧ s' = s ∧ w' = w.reading rest := by
  cases h with
  | read buf rest' b hl' hi' hp' =>
    obtain ⟨rfl, rfl⟩ := List.append_inj (hi'.symm.trans hi) (hl'.trans hl.symm)
    exact ⟨hp'.symm.trans hp, rfl, rfl⟩
  | malformed buf rest' hl' hi' hp' =>
    obtain ⟨rfl, rfl⟩ := List.append_inj (hi'.symm.trans hi) (hl'.trans hl.symm)
    simp [hp] at hp'
  | lost hlost => exact absurd hlost (not_lost hf hi hl.ge)

theorem wp_readSessionHeader
    (hg : ∀ bs rest, w.incoming = bs ++ rest → bs.length < 32 →
      G (w.reading rest) (.recv (32 - bs.length))) :
    wp (machine f) G readSessionHeader s w (ReadOutcome f 32 sessionOf s w) := by
  unfold readSessionHeader
  rw [wp_bind]
  apply wp_mono (wp_recvAll (by omega) hg)
  rintro _ _ _ (⟨buf, rest, hl, hi⟩ | hlost)
  · simp only
    split
    · rename_i hm
      rw [wp_bind, wp_setEc, wp_pure]
      exact .malformed buf rest hl hi (by rw [sessionOf, if_pos hm])
    · rename_i hm
      split
      · rename_i hc
        rw [wp_bind, wp_setEc, wp_pure]
        exact .malformed buf rest hl hi (by rw [sessionOf, if_neg hm, if_pos hc])
      · rename_i hc
        rw [wp_pure]
        exact .read buf rest _ hl hi (by rw [sessionOf, if_neg hm, if_neg hc])
  · exact .lost hlost

theorem wp_readAck
    (hg : ∀ bs rest, w.incoming = bs ++ rest → bs.length < 8 →
      G (w.reading rest) (.recv (8 - bs.length))) :
    wp (machine f) G readAck s w (ReadOutcome f 8 ackOf s w) := by
  unfold readAck
  rw [wp_bind]
  apply wp_mono (wp_recvAll (by omega) hg)
  rintro _ _ _ (⟨buf, rest, hl, hi⟩ | hlost)
  · simp only
    split
    · rename_i hm
      rw [wp_bind, wp_setEc, wp_pure]
      exact .malformed buf rest hl hi (by rw [ackOf, if_pos hm])
    · rename_i hm
      rw [wp_pure]
      exact .read buf rest _ hl hi (by rw [ackOf, if_neg hm])
  · exact .lost hlost

/-- The whole header of a record. -/
def encodeFileHeader (e : FileEntry) : Bytes := encodeFixed e ++ e.relPath

@[simp] theorem length_encodeFileHeader (e : FileEntry) :
    (encodeFileHeader e).length = 18 + e.relPath.length := by
  simp [encodeFileHeader]

theorem eq_of_fixedOf {buf path : Bytes} {n : UInt16} {size : UInt64} {crc : UInt32}
    (hl : buf.length = 18) (h : fixedOf buf = some (n, size, crc)) (hp : path.length = n.toNat) :
    buf = encodeFixed ⟨path, size, crc⟩ := by
  unfold fixedOf at h
  split at h
  · cases h
  · rename_i hm
    rw [ne_eq, not_not] at hm
    simp only [Option.some.injEq, Prod.mk.injEq] at h
    obtain ⟨rfl, rfl, rfl⟩ := h
    rw [encodeFixed_eq, hp, UInt16.ofNat_toNat, ← hm, encodeU32LE_decodeU32LE (by omega),
      encodeU16LE_decodeU16LE (by rw [List.length_drop]; omega),
      encodeU64LE_decodeU64LE (by rw [List.length_drop]; omega),
      encodeU32LE_decodeU32LE (by rw [List.length_drop]; omega)]
    have h₁ : (buf.drop 14).take 4 = buf.drop 14 :=
      List.take_of_length_le (by rw [List.length_drop]; omega)
    have h₂ : (buf.drop 6).take 8 ++ buf.drop 14 = buf.drop 6 := by
      conv_rhs => rw [← List.take_append_drop 8 (buf.drop 6), List.drop_drop]
    have h₃ : (buf.drop 4).take 2 ++ buf.drop 6 = buf.drop 4 := by
      conv_rhs => rw [← List.take_append_drop 2 (buf.drop 4), List.drop_drop]
    rw [h₁, h₂, h₃, List.take_append_drop]

theorem toNat_pathLen {path : Bytes} (h : path.length ≤ 0xFFFF) :
    (UInt16.ofNat path.length).toNat = path.length :=
  UInt16.toNat_ofNat_of_lt' (by unfold UInt16.size; omega)

theorem toNat_eq_zero_of_not_pos {n : UInt16} (h : ¬ n > 0) : n.toNat = 0 := by
  rw [gt_iff_lt, UInt16.not_lt, UInt16.le_iff_toNat_le] at h
  exact Nat.le_zero.mp h

theorem encodeFileHeader_of_not_pos {e : FileEntry} (hl : e.relPath.length ≤ 0xFFFF)
    (h : ¬ UInt16.ofNat e.relPath.length > 0) : encodeFileHeader e = encodeFixed e := by
  have h0 := toNat_eq_zero_of_not_pos h
  rw [toNat_pathLen hl] at h0
  rw [encodeFileHeader, List.length_eq_zero_iff.mp h0, List.append_nil]

/-- A stream starts with at most one record header. -/
theorem encodeFileHeader_inj {e e' : FileEntry} {rest rest' : Bytes}
    (he : e.relPath.length ≤ 0xFFFF) (he' : e'.relPath.length ≤ 0xFFFF)
    (h : encodeFileHeader e ++ rest = encodeFileHeader e' ++ rest') : e = e' ∧ rest = rest' := by
  simp only [encodeFileHeader, List.append_assoc] at h
  obtain ⟨hf, h⟩ := List.append_inj h (by simp)
  have hp := fixedOf_encode e
  rw [hf, fixedOf_encode e', Option.some.injEq, Prod.mk.injEq, Prod.mk.injEq] at hp
  obtain ⟨hn, hs, hc⟩ := hp
  have hl := congrArg UInt16.toNat hn
  rw [toNat_pathLen he, toNat_pathLen he'] at hl
  obtain ⟨hpath, hrest⟩ := List.append_inj h hl.symm
  refine ⟨?_, hrest⟩
  cases e
  cases e'
  simp only [FileEntry.mk.injEq]
  exact ⟨hpath, hs.symm, hc.symm⟩

/-- The header of a record is read, refused, or does not arrive. -/
inductive FileHeaderOutcome (f : Faults) (s : Refs) (w : Side) :
    Option FileEntry → Refs → Side → Prop
  | read (e : FileEntry) (rest : Bytes) : e.relPath.length ≤ 0xFFFF →
      w.incoming = encodeFileHeader e ++ rest →
      FileHeaderOutcome f s w (some e) s (w.reading rest)
  | malformed (buf rest : Bytes) : buf.length = 18 → w.incoming = buf ++ rest →
      fixedOf buf = none →
      FileHeaderOutcome f s w none { s with ec := some .invalidArgument } (w.reading rest)
  | lost {s' : Refs} {w' : Side} : Lost f 18 s w s' w' → FileHeaderOutcome f s w none s' w'
  | lostPath (buf rest : Bytes) (n : UInt16) (size : UInt64) (crc : UInt32) {s' : Refs}
      {w' : Side} : buf.length = 18 → w.incoming = buf ++ rest →
      fixedOf buf = some (n, size, crc) → Lost f (18 + n.toNat) s w s' w' →
      FileHeaderOutcome f s w none s' w'

theorem always_readFileHeader : Always f readFileHeader s w (FileHeaderOutcome f s w) := by
  unfold readFileHeader
  rw [Always, wp_bind]
  apply wp_mono (wp_recvAll (by omega) fun _ _ _ _ => trivial)
  rintro _ _ _ (⟨buf, rest, hl, hi⟩ | hlost)
  · simp only
    split
    · rename_i hm
      rw [wp_bind, wp_setEc, wp_pure]
      exact .malformed buf rest hl hi (by rw [fixedOf, if_pos hm])
    · rename_i hm
      have hf : fixedOf buf = some (decodeU16LE (buf.drop 4), decodeU64LE (buf.drop 6),
          decodeU32LE (buf.drop 14)) := by rw [fixedOf, if_neg hm]
      have hlt : (decodeU16LE (buf.drop 4)).toNat < 2 ^ 16 := UInt16.toNat_lt _
      split
      · rw [wp_bind]
        apply wp_mono (wp_recvAll (by omega) fun _ _ _ _ => trivial)
        rintro _ _ _ (⟨path, rest', hl', hi'⟩ | hlost)
        · rw [World.incoming_reading] at hi'
          rw [wp_pure, World.reading_reading]
          refine .read ⟨path, _, _⟩ rest' (by simp only; omega) ?_
          rw [hi, hi', encodeFileHeader, ← eq_of_fixedOf hl hf hl', List.append_assoc]
        · exact .lostPath buf rest _ _ _ hl hi hf (hl ▸ hlost.append hi)
      · rename_i h0
        have hl' : ([] : Bytes).length = (decodeU16LE (buf.drop 4)).toNat :=
          (toNat_eq_zero_of_not_pos h0).symm
        rw [wp_pure]
        refine .read ⟨[], _, _⟩ rest (by simp) ?_
        rw [hi, encodeFileHeader, ← eq_of_fixedOf hl hf hl', List.append_nil]
  · exact .lost hlost

theorem FileHeaderOutcome.of_encode {e : FileEntry} {rest : Bytes} {r : Option FileEntry}
    {s' : Refs} {w' : Side} (hf : ¬ f.net) (hl : e.relPath.length ≤ 0xFFFF)
    (hi : w.incoming = encodeFileHeader e ++ rest) (h : FileHeaderOutcome f s w r s' w') :
    r = some e ∧ s' = s ∧ w' = w.reading rest := by
  cases h with
  | read e' rest' hl' hi' =>
    obtain ⟨rfl, rfl⟩ := encodeFileHeader_inj hl' hl (hi'.symm.trans hi)
    exact ⟨rfl, rfl, rfl⟩
  | malformed buf rest' hl' hi' hp' =>
    rw [hi', encodeFileHeader, List.append_assoc] at hi
    obtain ⟨rfl, _⟩ := List.append_inj hi (by simp [hl'])
    simp [fixedOf_encode] at hp'
  | lost hlost => exact absurd hlost (not_lost hf hi (by simp))
  | lostPath buf rest' n size crc hl' hi' hp' hlost =>
    have hi₂ := hi
    rw [hi', encodeFileHeader, List.append_assoc] at hi₂
    obtain ⟨rfl, _⟩ := List.append_inj hi₂ (by simp [hl'])
    rw [fixedOf_encode, Option.some.injEq, Prod.mk.injEq] at hp'
    refine absurd hlost (not_lost hf hi ?_)
    rw [length_encodeFileHeader, ← hp'.1, toNat_pathLen hl]

theorem always_readDone : Always f readDone s w fun ok s' w' =>
    (∃ buf rest, buf.length = 4 ∧ w.incoming = buf ++ rest ∧ ok = decide (decodeU32LE buf = kDoneMagic) ∧
      s' = s ∧ w' = w.reading rest) ∨ (ok = false ∧ Lost f 4 s w s' w') := by
  unfold readDone
  rw [Always, wp_bind]
  apply wp_mono (wp_recvAll (by omega) fun _ _ _ _ => trivial)
  rintro _ _ _ (⟨buf, rest, hl, hi⟩ | hlost)
  · exact Or.inl ⟨buf, rest, hl, hi, rfl, rfl, rfl⟩
  · exact Or.inr ⟨rfl, hlost⟩

/-- A record header whose path fits is written like any other message; one whose path does not
fit is refused. -/
theorem always_writeFileHeader {e : FileEntry} (hl : e.relPath.length ≤ 0xFFFF) :
    Always f (writeFileHeader e) s w (SendAllOutcome f (encodeFileHeader e) s w) := by
  unfold writeFileHeader
  rw [if_neg (by omega), Always, wp_bind]
  have hn := toNat_pathLen hl
  apply wp_mono (wp_sendAll (by simp) fun _ _ _ _ => trivial)
  rintro _ _ _ (_ | ⟨ec, sent, hs, hf, he⟩)
  · simp only [Bool.not_true, Bool.false_eq_true, if_false]
    split
    · rw [hn, List.take_length]
      apply wp_mono (wp_sendAll (by omega) fun _ _ _ _ => trivial)
      rintro _ _ _ (_ | ⟨ec, sent, hs, hf, he⟩)
      · rw [World.sent_sent]
        exact .done
      · rw [World.sent_sent]
        exact .failed ec _ (List.prefix_append_right_inj _ |>.mpr hs) hf he
    · rename_i h0
      rw [wp_pure, encodeFileHeader_of_not_pos hl h0]
      exact .done
  · simp only [Bool.not_false, if_true]
    rw [wp_pure]
    exact .failed ec sent (hs.trans (List.prefix_append _ _)) hf he

theorem always_writeFileHeader_of_long {e : FileEntry} (hl : 0xFFFF < e.relPath.length) :
    Always f (writeFileHeader e) s w fun ok s' w' =>
      ok = false ∧ s' = { s with ec := some .filenameTooLong } ∧ w' = w := by
  unfold writeFileHeader
  rw [if_pos hl]
  exact ⟨rfl, rfl, rfl⟩

end Xfer.Transfer
