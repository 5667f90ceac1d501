import Xfer.Net.Exchange
import Xfer.Transfer.Receiver

/-! # Receiving a payload

What one payload does to the connection, to the file it is written to and to
the directories on the way, in every way its reception can end.
-/

namespace Xfer.Transfer

open Net Common Posix Process Code

variable {f : Faults} {s : Refs} {w : Side} {fs : FileSystem} {k : Key} {d bs : Bytes}

/-- The output stream writes to the file at `k` and has been given `d` so far. -/
def Writing (fs : FileSystem) (k : Key) (d : Bytes) (h : Host) : Prop :=
  ∃ p r, d = p ++ r ∧ h = ⟨fs.place k (.file p), some (k, r)⟩

theorem always_write (hp : fs.CanPlace k) (hw : Writing fs k d w.host) :
    Always f (perform (.write bs)) s w fun ok s' w' =>
      s' = s ∧ (ok = true ∨ f.disk) ∧ ∃ h, w' = w.on h ∧ Writing fs k (d ++ bs) h := by
  obtain ⟨p, r, rfl, hh⟩ := hw
  rw [always_perform]
  rintro ok ⟨h', i', o'⟩ ⟨a, ⟨rfl, hk⟩, rfl, rfl⟩
  rw [hh] at hk
  obtain ⟨⟨flushed, rest, hr, rfl⟩, hok⟩ := hk
  refine ⟨rfl, hok, _, rfl, p ++ flushed, rest, ?_, ?_⟩
  · rw [List.append_assoc, List.append_assoc, hr]
  · simp only [FileSystem.appendAt_place hp]

theorem always_closeStream (hp : fs.CanPlace k) (hw : Writing fs k d w.host) :
    Always f (perform .closeStream) s w fun _ s' w' =>
      s' = s ∧ ∃ p, p <+: d ∧ (p = d ∨ f.disk) ∧ w' = w.on ⟨fs.place k (.file p), none⟩ := by
  obtain ⟨p, r, rfl, hh⟩ := hw
  rw [always_perform]
  rintro _ ⟨h', i', o'⟩ ⟨a, ⟨rfl, hk⟩, rfl, rfl⟩
  rw [hh] at hk
  obtain ⟨flushed, rest, rfl, hd, rfl⟩ := hk
  refine ⟨rfl, p ++ flushed, ?_, ?_, ?_⟩
  · exact (List.prefix_append_right_inj _).mpr (List.prefix_append _ _)
  · refine hd.imp_left ?_
    rintro rfl
    rw [List.append_nil]
  · simp only [FileSystem.appendAt_place hp]
    rfl

/-- The whole chunks of what is left of a payload that breaks off. -/
def wholeChunks (bs : Bytes) : Bytes := bs.take (bs.length / 2 ^ 20 * 2 ^ 20)

/-- Why a payload that is still to come in part is given up, with `bs` received: the connection
fails, and the chunks that have arrived as a whole are stored, or the disk fails. -/
def GivenUp (f : Faults) (remaining : UInt64) (bs stored : Bytes) : Prop :=
  f.net ∧ bs.length < remaining.toNat ∧ stored = wholeChunks bs ∨ f.disk

/-- The payload arrives and is given to the stream, or its reception ends early. -/
inductive PayloadOutcome (f : Faults) (remaining : UInt64) (crc : Crc32) (fs : FileSystem)
    (k : Key) (d : Bytes) (s : Refs) (w : Side) : Option Crc32 → Refs → Side → Prop
  | done (payload rest : Bytes) (p : UInt64) (h : Host) : payload.length = remaining.toNat →
      w.incoming = payload ++ rest → Writing fs k (d ++ payload) h →
      PayloadOutcome f remaining crc fs k d s w (some (crc.update payload))
        { s with progress := p } ((w.reading rest).on h)
  | reset (p : UInt64) (h : Host) : w.incoming.length < remaining.toNat →
      Writing fs k (d ++ wholeChunks w.incoming) h →
      PayloadOutcome f remaining crc fs k d s w none
        { s with ec := some .connectionReset, progress := p } ((w.reading []).on h)
  | failed (e : Errc) (bs rest stored : Bytes) (p : UInt64) (h : Host) :
      GivenUp f remaining bs stored → w.incoming = bs ++ rest → bs.length ≤ remaining.toNat → stored <+: bs →
      Writing fs k (d ++ stored) h →
      PayloadOutcome f remaining crc fs k d s w none
        { s with ec := some e, progress := p } ((w.reading rest).on h)

theorem wholeChunks_of_lt (h : bs.length < 2 ^ 20) : wholeChunks bs = [] := by
  rw [wholeChunks, Nat.div_eq_of_lt h, Nat.zero_mul, List.take_zero]

theorem wholeChunks_append {buf : Bytes} (h : buf.length = 2 ^ 20) :
    wholeChunks (buf ++ bs) = buf ++ wholeChunks bs := by
  unfold wholeChunks
  rw [List.length_append, h, Nat.add_div_left _ (Nat.two_pow_pos _), Nat.succ_mul, Nat.add_comm,
    ← h, List.take_length_add_append]

/-- What happens after the first chunk, as seen from before it. -/
theorem PayloadOutcome.chunk {remaining : UInt64} {crc : Crc32} {buf rest : Bytes} {p : UInt64}
    {h : Host} {r : Option Crc32} {s' : Refs} {w' : Side} (hi : w.incoming = buf ++ rest)
    (hl : buf.length = (chunk remaining).toNat)
    (ho : PayloadOutcome f (remaining - chunk remaining) (crc.update buf) fs k (d ++ buf)
      { s with progress := p } ((w.reading rest).on h) r s' w') :
    PayloadOutcome f remaining crc fs k d s w r s' w' := by
  have hsub : (remaining - Net.chunk remaining).toNat = remaining.toNat - buf.length := by
    rw [UInt64.toNat_sub_of_le _ _ (chunk_le remaining), hl]
  have hle : buf.length ≤ remaining.toNat := hl ▸ UInt64.le_iff_toNat_le.mp (chunk_le remaining)
  cases ho with
  | done payload rest' p' h' hl' hi' hw =>
    rw [← Crc32.update_append]
    rw [List.append_assoc] at hw
    refine .done (buf ++ payload) rest' p' h' ?_ ?_ hw
    · rw [List.length_append]
      omega
    · rw [hi, List.append_assoc, ← hi']
      rfl
  | reset p' h' hlt hw =>
    simp only [World.incoming_on, World.incoming_reading] at hlt hw
    refine .reset p' h' ?_ ?_
    · rw [hi, List.length_append]
      omega
    · -- something is missing after this chunk, so it is a whole one
      have hb : buf.length = 2 ^ 20 := by
        rw [toNat_chunk] at hl
        omega
      rw [hi, wholeChunks_append hb, ← List.append_assoc]
      exact hw
  | failed e bs' rest' stored p' h' hf hi' hlen hs hw =>
    rw [List.append_assoc] at hw
    refine .failed e (buf ++ bs') rest' (buf ++ stored) p' h' ?_ ?_ ?_ ?_ hw
    · refine hf.imp_left ?_
      rintro ⟨hnet, hlt, rfl⟩
      have hb : buf.length = 2 ^ 20 := by
        rw [toNat_chunk] at hl
        omega
      refine ⟨hnet, ?_, (wholeChunks_append hb).symm⟩
      rw [List.length_append]
      omega
    · rw [hi, List.append_assoc, ← hi']
      rfl
    · rw [List.length_append]
      omega
    · exact (List.prefix_append_right_inj _).mpr hs

theorem always_receivePayload {remaining : UInt64} {crc : Crc32} (hp : fs.CanPlace k)
    (hw : Writing fs k d w.host) :
    Always f (receivePayload remaining crc) s w (PayloadOutcome f remaining crc fs k d s w) := by
  induction hn : remaining.toNat using Nat.strong_induction_on generalizing remaining crc d s w with
  | _ n ih =>
    unfold receivePayload
    split
    · rename_i h0
      subst h0
      rw [Always, wp_pure]
      have hw' : Writing fs k (d ++ []) w.host := by rwa [List.append_nil]
      exact .done [] w.incoming s.progress w.host rfl rfl hw'
    · rename_i h0
      have hc := toNat_chunk remaining
      rw [Always, wp_bind]
      apply wp_mono (wp_recvAll (by omega) fun _ _ _ _ => trivial)
      rintro _ _ _ (⟨buf, rest, hl, hi⟩ | ⟨hlt⟩ | ⟨e, bs, rest, hf, hi, hlt⟩)
      · simp only [wp_bind]
        apply wp_mono (always_write (w := w.reading rest) hp hw)
        rintro ok t _ ⟨rfl, hok, h, rfl, hw'⟩
        cases ok with
        | false =>
          exact .failed .ioError buf rest buf t.progress h
            (Or.inr (hok.resolve_left Bool.false_ne_true)) hi (by omega) List.prefix_rfl hw'
        | true =>
          have hlt := hn ▸ toNat_sub_chunk_lt h0
          exact wp_mono (ih _ hlt (w := (w.reading rest).on h) hw' rfl) fun _ _ _ ho =>
            ho.chunk hi hl
      · refine .reset s.progress w.host (by omega) ?_
        rw [wholeChunks_of_lt (by omega), List.append_nil]
        exact hw
      · have hnone : [] = wholeChunks bs := (wholeChunks_of_lt (by omega)).symm
        exact .failed e bs rest [] s.progress w.host (Or.inl ⟨hf, by omega, hnone⟩) hi (by omega)
          List.nil_prefix (by rwa [List.append_nil])

/-- The directories for a target have been created, up to a failure. -/
def Prepared (f : Faults) (target : Bytes) (fs fs₁ : FileSystem) : Prop :=
  ∃ ps, ps <+: leads (parentPath target) ∧ (ps = leads (parentPath target) ∨ f.disk) ∧
    fs₁ = fs.mkdirs ps

/-- A target can be opened as the file at `k` once its directories have been created. -/
structure Opens (f : Faults) (target : Bytes) (fs fs₁ : FileSystem) (k : Key) : Prop where
  prepared : Prepared f target fs fs₁
  locate : fs₁.locate target = some k
  canPlace : fs₁.CanPlace k

/-- The comparison that decides about a payload; an expected checksum of zero passes everything. -/
def passes (expected : UInt32) (payload : Bytes) : Bool :=
  expected = 0 ∨ Crc32.compute payload = expected

theorem always_createDirectories {p : Bytes} :
    Always f (perform (.createDirectories p)) s w fun _ s' w' => s' = s ∧ ∃ ps, ps <+: leads p ∧
      (ps = leads p ∨ f.disk) ∧ w' = w.on ⟨w.host.fs.mkdirs ps, w.host.stream⟩ := by
  rw [always_perform]
  rintro _ ⟨⟨fs', st⟩, i', o'⟩ ⟨a, ⟨rfl, hst, ps, hps, hd, hfs⟩, rfl, rfl⟩
  obtain rfl := hst
  obtain rfl := hfs
  exact ⟨rfl, ps, hps, hd, rfl⟩

theorem always_createParent {target : Bytes} :
    Always f (createParent target) s w fun _ s' w' =>
      s' = s ∧ ∃ fs₁, Prepared f target w.host.fs fs₁ ∧ w' = w.on ⟨fs₁, w.host.stream⟩ := by
  unfold createParent
  split
  · apply wp_mono always_createDirectories
    rintro _ _ _ ⟨rfl, ps, hps, hd, rfl⟩
    exact ⟨rfl, _, ⟨ps, hps, hd, rfl⟩, rfl⟩
  · rename_i h
    rw [ne_eq, not_not] at h
    rw [Always, wp_pure]
    refine ⟨rfl, w.host.fs, ⟨[], List.nil_prefix, Or.inl ?_, rfl⟩, rfl⟩
    rw [h]
    rfl

/-- What the part of `ReceivePayloadToFile` with the open stream does. -/
inductive CheckOutcome (f : Faults) (size : UInt64) (expected : UInt32) (fs : FileSystem) (k : Key)
    (s : Refs) (w : Side) : Bool → Refs → Side → Prop
  | whole (payload rest : Bytes) (p : UInt64) (h : Host) : payload.length = size.toNat →
      w.incoming = payload ++ rest → Writing fs k payload h →
      CheckOutcome f size expected fs k s w (passes expected payload)
        { s with ec := if passes expected payload then s.ec else some .badMessage, progress := p }
        ((w.reading rest).on h)
  | cut (p : UInt64) (h : Host) : w.incoming.length < size.toNat →
      Writing fs k (wholeChunks w.incoming) h →
      CheckOutcome f size expected fs k s w false
        { s with ec := some .connectionReset, progress := p } ((w.reading []).on h)
  | failed (e : Errc) (bs rest stored : Bytes) (p : UInt64) (h : Host) :
      GivenUp f size bs stored → w.incoming = bs ++ rest → bs.length ≤ size.toNat →
      stored <+: bs → Writing fs k stored h →
      CheckOutcome f size expected fs k s w false { s with ec := some e, progress := p }
        ((w.reading rest).on h)

theorem always_receiveAndCheck {size : UInt64} {expected : UInt32} (hp : fs.CanPlace k)
    (hw : Writing fs k [] w.host) :
    Always f (receiveAndCheck size expected) s w (CheckOutcome f size expected fs k s w) := by
  unfold receiveAndCheck
  rw [Always, wp_bind]
  apply wp_mono (always_receivePayload hp hw)
  rintro _ _ _ (⟨payload, rest, p, h, hl, hi, hw⟩ | ⟨p, h, hlt, hw⟩ |
    ⟨e, bs, rest, stored, p, h, hf, hi, hl, hs, hw⟩)
  · have ho : CheckOutcome f size expected fs k s w (passes expected payload) _ _ :=
      .whole payload rest p h hl hi hw
    have hcrc : (({} : Crc32).update payload).final = Crc32.compute payload := rfl
    simp only [hcrc]
    split
    · rename_i hm
      have hpass : passes expected payload = false := by
        simp only [passes, decide_eq_false_iff_not, not_or]
        exact hm
      rw [hpass] at ho
      exact ho
    · rename_i hm
      have hpass : passes expected payload = true := by
        simp only [passes, decide_eq_true_eq]
        tauto
      rw [hpass] at ho
      exact ho
  · rw [List.nil_append] at hw
    exact .cut p h hlt hw
  · exact .failed e bs rest stored p h hf hi hl hs hw

/-- What `ReceivePayloadToFile` does. -/
inductive FileOutcome (f : Faults) (target : Bytes) (size : UInt64) (expected : UInt32) (s : Refs)
    (w : Side) : Bool → Refs → Side → Prop
  | closed (fs₁ : FileSystem) : Prepared f target w.host.fs fs₁ →
      f.disk ∨ fs₁.openTrunc target = none →
      FileOutcome f target size expected s w false { s with ec := some .permissionDenied }
        (w.on ⟨fs₁, w.host.stream⟩)
  | whole (fs₁ : FileSystem) (k : Key) (payload rest stored : Bytes) (p : UInt64) :
      Opens f target w.host.fs fs₁ k → payload.length = size.toNat → w.incoming = payload ++ rest →
      stored <+: payload → stored = payload ∨ f.disk →
      FileOutcome f target size expected s w (passes expected payload)
        { s with ec := if passes expected payload then s.ec else some .badMessage, progress := p }
        ((w.reading rest).on ⟨fs₁.place k (.file stored), none⟩)
  | cut (fs₁ : FileSystem) (k : Key) (stored : Bytes) (p : UInt64) :
      Opens f target w.host.fs fs₁ k → w.incoming.length < size.toNat →
      stored <+: wholeChunks w.incoming → stored = wholeChunks w.incoming ∨ f.disk →
      FileOutcome f target size expected s w false
        { s with ec := some .connectionReset, progress := p }
        ((w.reading []).on ⟨fs₁.place k (.file stored), none⟩)
  | failed (e : Errc) (fs₁ : FileSystem) (k : Key) (bs rest stored : Bytes) (p : UInt64) :
      Opens f target w.host.fs fs₁ k → GivenUp f size bs stored → w.incoming = bs ++ rest →
      bs.length ≤ size.toNat → stored <+: bs →
      FileOutcome f target size expected s w false { s with ec := some e, progress := p }
        ((w.reading rest).on ⟨fs₁.place k (.file stored), none⟩)

theorem always_openTrunc {target : Bytes} :
    Always f (perform (.openTrunc target)) s w fun ok s' w' => s' = s ∧
      ((ok = false ∧ w' = w ∧ (f.disk ∨ w.host.fs.openTrunc target = none)) ∨
        (ok = true ∧ ∃ k, w.host.fs.locate target = some k ∧ w.host.fs.CanPlace k ∧
          ∃ h, w' = w.on h ∧ Writing w.host.fs k [] h)) := by
  rw [always_perform]
  rintro (_ | _) ⟨h', i', o'⟩ ⟨a, ⟨rfl, hk⟩, rfl, rfl⟩
  · obtain ⟨rfl, hd⟩ := hk
    exact ⟨rfl, Or.inl ⟨rfl, rfl, hd⟩⟩
  · obtain ⟨k, fs', ho, rfl⟩ := hk
    obtain ⟨hl, hp, rfl⟩ := FileSystem.openTrunc_eq_some.mp ho
    exact ⟨rfl, Or.inr ⟨rfl, k, hl, hp, _, rfl, [], [], rfl, rfl⟩⟩

theorem always_receivePayloadToFile {target : Bytes} {size : UInt64} {expected : UInt32} :
    Always f (receivePayloadToFile target size expected) s w
      (FileOutcome f target size expected s w) := by
  unfold receivePayloadToFile
  rw [Always, wp_bind]
  apply wp_mono always_createParent
  rintro _ s _ ⟨rfl, fs₁, hprep, rfl⟩
  rw [wp_bind]
  apply wp_mono always_openTrunc
  rintro _ s _ ⟨rfl, ⟨rfl, rfl, hno⟩ | ⟨rfl, k, hl, hp, h, rfl, hw⟩⟩
  · exact .closed fs₁ hprep hno
  · have ho : Opens f target w.host.fs fs₁ k := ⟨hprep, hl, hp⟩
    simp only [Bool.not_true, Bool.false_eq_true, if_false, wp_bind]
    apply wp_mono (always_receiveAndCheck (w := (w.on ⟨fs₁, w.host.stream⟩).on h) hp hw)
    rintro _ _ _ (⟨payload, rest, p, h, hl, hi, hw⟩ | ⟨p, h, hlt, hw⟩ |
      ⟨e, bs, rest, stored, p, h, hf, hi, hl, hs, hw⟩)
    · apply wp_mono (always_closeStream hp hw)
      rintro _ _ _ ⟨rfl, stored, hpre, hd, rfl⟩
      exact .whole fs₁ k payload rest stored p ho hl hi hpre hd
    · apply wp_mono (always_closeStream hp hw)
      rintro _ _ _ ⟨rfl, stored, hpre, hd, rfl⟩
      exact .cut fs₁ k stored p ho hlt hpre hd
    · apply wp_mono (always_closeStream hp hw)
      rintro _ _ _ ⟨rfl, stored', hpre, hd, rfl⟩
      refine .failed e fs₁ k bs rest stored' p ho ?_ hi hl (hpre.trans hs)
      rcases hd with rfl | hd
      · exact hf
      · exact Or.inr hd

end Xfer.Transfer
