import Xfer.Transfer.Codec

/-! # Round trip of message sequences

What the write functions put on the connection, the read functions of the same
messages take off it again, up to the byte that follows.
-/

namespace Xfer.Transfer

open Net Process Code

variable {f : Faults} {s : Refs} {w : Side}

/-- A message of the protocol; a path that cannot be sent makes no message. -/
inductive Message where
  | session (h : SessionHeader)
  | ack (receiverFlags : UInt32)
  | file (e : FileEntry) (fits : e.relPath.length ≤ 0xFFFF)
  | done

namespace Message

def write : Message → Session Bool
  | session h => writeSessionHeader h
  | ack v => writeAck v
  | file e _ => writeFileHeader e
  | done => writeDone

/-- Read a message of the kind of the given one. -/
def read : Message → Session (Option Message)
  | session _ => do
    let some h ← readSessionHeader | pure none
    pure (some (session h))
  | ack _ => do
    let some v ← readAck | pure none
    pure (some (ack v))
  | file _ _ => do
    let some e ← readFileHeader | pure none
    if h : e.relPath.length ≤ 0xFFFF then pure (some (file e h)) else pure none
  | done => do
    if ← readDone then pure (some done) else pure none

def encode : Message → Bytes
  | session h => encodeSessionHeader h
  | ack v => encodeAck v
  | file e _ => encodeFileHeader e
  | done => encodeDone

theorem always_write (m : Message) : Always f m.write s w (SendAllOutcome f m.encode s w) := by
  cases m with
  | session h => exact wp_sendAll (by simp) fun _ _ _ _ => trivial
  | ack v => exact wp_sendAll (by simp) fun _ _ _ _ => trivial
  | file e h => exact always_writeFileHeader h
  | done => exact wp_sendAll (by simp) fun _ _ _ _ => trivial

theorem always_read (m : Message) {rest : Bytes} (hf : ¬ f.net)
    (hi : w.incoming = m.encode ++ rest) :
    Always f m.read s w fun r s' w' => r = some m ∧ s' = s ∧ w' = w.reading rest := by
  cases m with
  | session h =>
    rw [read, Always, wp_bind]
    apply wp_mono (wp_readSessionHeader fun _ _ _ _ => trivial)
    intro r s' w' hr
    obtain ⟨rfl, rfl, rfl⟩ := hr.of_encode hf (length_encodeSessionHeader h) hi (sessionOf_encode h)
    exact ⟨rfl, rfl, rfl⟩
  | ack v =>
    rw [read, Always, wp_bind]
    apply wp_mono (wp_readAck fun _ _ _ _ => trivial)
    intro r s' w' hr
    obtain ⟨rfl, rfl, rfl⟩ := hr.of_encode hf (length_encodeAck v) hi (ackOf_encode v)
    exact ⟨rfl, rfl, rfl⟩
  | file e h =>
    rw [read, Always, wp_bind]
    apply wp_mono always_readFileHeader
    intro r s' w' hr
    obtain ⟨rfl, rfl, rfl⟩ := hr.of_encode hf h hi
    simp only [dif_pos h]
    exact ⟨rfl, rfl, rfl⟩
  | done =>
    rw [read, Always, wp_bind]
    apply wp_mono always_readDone
    rintro r s' w' (⟨buf, rest', hl, hi', rfl, rfl, rfl⟩ | ⟨rfl, hlost⟩)
    · obtain ⟨rfl, rfl⟩ := List.append_inj (hi'.symm.trans hi) (by rw [hl]; rfl)
      simp only [encode, decode_encodeDone]
      exact ⟨rfl, rfl, rfl⟩
    · exact absurd hlost (not_lost hf hi (by simp [encode]))

/-- Write messages one after another, up to the first failure. -/
def writeAll : List Message → Session Bool
  | [] => pure true
  | m :: ms => do
    if !(← m.write) then pure false else writeAll ms

/-- Read messages of the given kinds one after another, up to the first failure. -/
def readAll : List Message → Session (Option (List Message))
  | [] => pure (some [])
  | m :: ms => do
    let some m ← m.read | pure none
    let some ms ← readAll ms | pure none
    pure (some (m :: ms))

theorem always_writeAll (hf : ¬ f.net ∧ ¬ f.stall) (ms : List Message) :
    Always f (writeAll ms) s w fun ok s' w' =>
      ok = true ∧ s' = s ∧ w' = w.sent (ms.flatMap encode) := by
  induction ms generalizing w with
  | nil => exact ⟨rfl, rfl, by simp⟩
  | cons m ms ih =>
    rw [writeAll, Always, wp_bind]
    apply wp_mono m.always_write
    rintro _ _ _ (_ | ⟨_, _, _, hn, _⟩)
    · apply wp_mono ih
      rintro _ _ _ ⟨rfl, rfl, rfl⟩
      exact ⟨rfl, rfl, by rw [World.sent_sent, List.flatMap_cons]⟩
    · exact absurd hn (by simp [hf])

theorem always_readAll (hf : ¬ f.net) (ms : List Message) {rest : Bytes}
    (hi : w.incoming = ms.flatMap encode ++ rest) :
    Always f (readAll ms) s w fun r s' w' => r = some ms ∧ s' = s ∧ w' = w.reading rest := by
  induction ms generalizing w with
  | nil => exact ⟨rfl, rfl, by rw [← show w.incoming = rest from hi]; rfl⟩
  | cons m ms ih =>
    rw [List.flatMap_cons, List.append_assoc] at hi
    rw [readAll, Always, wp_bind]
    apply wp_mono (m.always_read hf hi)
    rintro _ _ _ ⟨rfl, rfl, rfl⟩
    simp only [wp_bind]
    apply wp_mono (ih rfl)
    rintro _ _ _ ⟨rfl, rfl, rfl⟩
    exact ⟨rfl, rfl, rfl⟩

end Message

/-- Whatever sequence of messages is written, under any partial sends, is read back as it was
under any segmentation, up to the bytes that follow; a path that is too long is refused before
anything is written. -/
theorem messages_roundtrip (ms : List Message) (s : Refs) (w : Side) :
    (Always .none (Message.writeAll ms) s w fun ok s' w' => ok = true ∧ s' = s ∧
      ∃ written, w' = w.sent written ∧ ∀ rest t v,
        Always .none (Message.readAll ms) t (World.reading v (written ++ rest)) fun r t' v' =>
          r = some ms ∧ t' = t ∧ v' = v.reading rest) ∧
    ∀ (f : Faults) (e : { e : FileEntry // 0xFFFF < e.relPath.length }),
      Always f (writeFileHeader e) s w fun ok s' w' =>
        ok = false ∧ s' = { s with ec := some .filenameTooLong } ∧ w' = w := by
  constructor
  · apply wp_mono (Message.always_writeAll (by simp [Faults.none]) ms)
    rintro _ _ _ ⟨rfl, rfl, rfl⟩
    refine ⟨rfl, rfl, _, rfl, fun rest t v => ?_⟩
    exact Message.always_readAll (by simp [Faults.none]) ms rfl
  · exact fun f e => always_writeFileHeader_of_long e.2

end Xfer.Transfer
