import Xfer.Process.Record
import Xfer.Transfer.Payload
import Xfer.Transfer.Phases

/-! # What success says about a received file

The verdict about a payload is given while part of it may still be in the
output stream. The file is as it was sent if and only if the stream writes out
everything it holds when it is closed.
-/

namespace Xfer.Transfer

open Net Common Posix Process Code

variable {f : Faults} {s : Refs} {w : Side} {fs : FileSystem} {k : Key} {target d payload c : Bytes}
  {size : UInt64} {expected : UInt32}

/-- The path leads to a file with this content. -/
def Holds (fs : FileSystem) (target content : Bytes) : Prop :=
  ∃ k, fs.locate target = some k ∧ fs.lookup k = some (.file content)

/-- Unless the step closes the output stream and loses something that the stream holds. -/
def Flushed (t : Side × Call × Side) : Prop :=
  t.2.1 = .closeStream → ∀ k held, t.1.host.stream = some (k, held) →
    t.2.2.host.fs = t.1.host.fs.appendAt k held

/-- A call that does not close the output stream. -/
def Open (c : Call) : Prop := c ≠ .closeStream

theorem place_file_inj (hp : fs.CanPlace k) :
    fs.place k (.file c) = fs.place k (.file d) ↔ c = d := by
  constructor
  · intro h
    have := congrArg (fun fs => fs.lookup k) h
    simpa [FileSystem.lookup_place hp] using this
  · rintro rfl
    rfl

theorem holds_place_iff (hl : fs.locate target = some k) (hp : fs.CanPlace k) :
    Holds (fs.place k (.file c)) target d ↔ c = d := by
  have hloc := FileSystem.locate_place hl hp c
  constructor
  · rintro ⟨k', hk', hd⟩
    obtain rfl := Option.some.inj (hloc.symm.trans hk')
    simpa [FileSystem.lookup_place hp] using hd
  · rintro rfl
    exact ⟨k, hloc, by simp [FileSystem.lookup_place hp]⟩

theorem traced_closeStream {steps : List (Side × Call × Side)} (hp : fs.CanPlace k)
    (hw : Writing fs k d w.host) :
    wp (traced (machine f)) (fun _ _ => True) (perform .closeStream) s (w, steps) fun _ _ x =>
      ∃ c w', w' = w.on ⟨fs.place k (.file c), none⟩ ∧ x = (w', steps ++ [(w, .closeStream, w')]) ∧
        (c = d ↔ Flushed (w, .closeStream, w')) := by
  obtain ⟨p, held, rfl, hh⟩ := hw
  rw [perform, wp_issue]
  refine ⟨trivial, ?_⟩
  rintro _ ⟨⟨h', i', o'⟩, steps'⟩ ⟨⟨a, ⟨rfl, hk⟩, ha⟩, hs⟩
  simp only [hh] at hs hk ha
  subst hs
  obtain ⟨flushed, rest, hheld, -, rfl⟩ := hk
  obtain ⟨rfl, rfl⟩ := ha
  rw [FileSystem.appendAt_place hp]
  refine ⟨p ++ flushed, _, rfl, rfl, ?_⟩
  constructor
  · rintro hall - k' held' hst
    simp only [hh, Option.some.injEq, Prod.mk.injEq] at hst
    obtain ⟨rfl, rfl⟩ := hst
    simp only [hh, FileSystem.appendAt_place hp, hall, World.host_on]
  · intro hfl
    have := hfl rfl k held (by rw [hh])
    simp only [hh, FileSystem.appendAt_place hp] at this
    exact (place_file_inj hp).mp this

theorem flushed_of_open {steps : List (Side × Call × Side)} (h : ∀ t ∈ steps, Open t.2.1) :
    ∀ t ∈ steps, Flushed t := fun t ht hc => absurd hc (h t ht)

/-- When `ReceivePayloadToFile` reports success, all bytes have been received. The file holds them
if and only if nothing is lost when the output stream is closed. -/
theorem payload_held_iff_flushed (f : Faults) (target : Bytes) (size : UInt64) (expected : UInt32)
    (s : Refs) (w : Side) :
    wp (traced (machine f)) (fun _ _ => True) (receivePayloadToFile target size expected) s (w, [])
      fun ok _ x => ok = true → ∃ payload, payload.length = size.toNat ∧
        w.incoming = payload ++ x.1.incoming ∧
        (Holds x.1.host.fs target payload ↔ ∀ t ∈ x.2, Flushed t) := by
  unfold receivePayloadToFile
  rw [wp_bind]
  apply wp_mono ((only_createParent (P := Open) (by simp [Open]) target).traced always_createParent)
  rintro _ s _ ⟨_, steps₁, rfl, ⟨rfl, fs₁, -, rfl⟩, hopen₁⟩
  rw [wp_bind, List.nil_append]
  have honly : Only Open (perform (.openTrunc target)) := only_perform (by simp [Open])
  apply wp_mono (honly.traced always_openTrunc)
  rintro ok s _ ⟨_, steps₂, rfl, ⟨rfl, ho⟩, hopen₂⟩
  rcases ho with ⟨rfl, -, -⟩ | ⟨rfl, k, hl, hp, h, rfl, hw⟩
  · exact fun h => by cases h
  · simp only [Bool.not_true, Bool.false_eq_true, if_false]
    rw [wp_bind]
    have honly : Only Open (receiveAndCheck size expected) :=
      only_receiveAndCheck (by simp [Open]) (by simp [Open]) _ _
    apply wp_mono (honly.traced (always_receiveAndCheck hp hw))
    rintro ok s _ ⟨w₃, steps₃, rfl, ho, hopen₃⟩
    have hflushed := flushed_of_open (List.forall_mem_append.mpr
      ⟨List.forall_mem_append.mpr ⟨hopen₁, hopen₂⟩, hopen₃⟩)
    rw [wp_bind]
    cases ho with
    | whole payload rest p h hlen hi hw =>
      apply wp_mono (traced_closeStream hp hw)
      rintro _ s _ ⟨c, w', rfl, rfl, hc⟩ -
      refine ⟨payload, hlen, hi, ?_⟩
      rw [List.forall_mem_append, List.forall_mem_singleton, and_iff_right hflushed, ← hc]
      exact holds_place_iff hl hp
    | cut p h hlt hw =>
      apply wp_mono (traced_closeStream hp hw)
      exact fun _ _ _ _ h => by cases h
    | failed e bs rest stored p h hf hi hle hst hw =>
      apply wp_mono (traced_closeStream hp hw)
      exact fun _ _ _ _ h => by cases h

/-- A byte that fits in the buffer of the stream is received and given to it, the verdict is
success, and the disk is full when the stream is closed. -/
theorem full_disk_unnoticed :
    ¬ Always ⟨False, False, False, True, False⟩ (receivePayloadToFile [0x61] 1 0) {}
      ⟨⟨.empty, none⟩, [0x31], []⟩ fun ok _ w' => ok = true → Holds w'.host.fs [0x61] [0x31] := by
  intro h
  unfold receivePayloadToFile createParent receiveAndCheck at h
  rw [if_neg (by decide), Always, wp_bind, wp_pure, wp_bind, perform, wp_issue] at h
  have hp : FileSystem.empty.CanPlace [[0x61]] := by decide
  -- the file is opened, the byte arrives, it stays in the stream, and the stream loses it
  have h₁ := h.2 true ⟨⟨FileSystem.empty.place [[0x61]] (.file []), some ([[0x61]], [])⟩, [0x31], []⟩
    ⟨.silent, ⟨rfl, [[0x61]], _, FileSystem.openTrunc_eq_some.mpr ⟨by decide, hp, rfl⟩, rfl⟩, rfl, rfl⟩
  simp only [Bool.not_true, Bool.false_eq_true, if_false, wp_bind] at h₁
  unfold receivePayload recvAll recv at h₁
  have hc : (chunk 1).toNat = 1 := by decide
  simp only [hc, dif_neg (show ¬ (1 : UInt64) = 0 by decide), dif_neg Nat.one_ne_zero, wp_bind,
    perform, wp_issue] at h₁
  have h₂ := h₁.2 (.ok ⟨[0x31], le_rfl⟩)
    ⟨⟨FileSystem.empty.place [[0x61]] (.file []), some ([[0x61]], [])⟩, [], []⟩
    ⟨.inp [0x31], ⟨rfl, Or.inr (Or.inl ⟨rfl, by decide⟩)⟩, rfl, rfl⟩
  have hone : toInt [(0x31 : UInt8)].length = 1 := by decide
  have hnil : recvAll (1 - (1 : ℤ).toNat) = pure (some []) := by
    rw [show 1 - (1 : ℤ).toNat = 0 by decide, recvAll, dif_pos rfl]
  simp only [wp_pure, hone, hnil, dif_neg (show ¬ (1 : ℤ) ≤ 0 by decide), wp_bind, wp_issue,
    Option.map_some] at h₂
  have h₃ := (h₂.2 true
    ⟨⟨FileSystem.empty.place [[0x61]] (.file []), some ([[0x61]], [0x31])⟩, [], []⟩
    ⟨.silent, ⟨rfl, ⟨[], [0x31], rfl, by rw [FileSystem.appendAt_place hp]; rfl⟩, Or.inl rfl⟩, rfl, rfl⟩)
  have hlast : ∀ crc, receivePayload (1 - chunk 1) crc = pure (some crc) := fun crc => by
    rw [receivePayload, dif_pos (by decide)]
  simp only [Bool.not_true, Bool.false_eq_true, if_false, wp_bind, wp_addProgress, hlast, wp_pure] at h₃
  have h₄ := h₃.2 () ⟨⟨FileSystem.empty.place [[0x61]] (.file []), none⟩, [], []⟩
    ⟨.silent, ⟨rfl, [], [0x31], rfl, Or.inr trivial, by rw [FileSystem.appendAt_place hp]; rfl⟩,
      rfl, rfl⟩ rfl
  exact absurd ((holds_place_iff (by decide) hp).mp h₄) (by decide)

end Xfer.Transfer
