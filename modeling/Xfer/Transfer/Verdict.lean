import Xfer.Process.Leaves
import Xfer.Transfer.Announced
import Xfer.Transfer.Completeness
import Xfer.Transfer.Integrity

/-! # Verdict and error code

A party that fails should have set the error code, and one that succeeds should
have left it clear. The receiver breaks this where the end of the session is
missing, and the sender where a source is missing or a file has become shorter.
-/

namespace Xfer.Transfer

open Net Common Posix Process Code

variable {f : Faults} {M : Machine Call.Result Book} {s s' t : Refs} {w w' w₁ : Book}
  {options : ReceiverOptions} {dir : Bytes}

section Receiving

/-- Bytes in `X` are received and the error code is left alone, or it is set. -/
inductive Taking {α : Type} (X : α → Bytes → Prop) (s : Refs) (w : Book) :
    Option α → Refs → Book → Prop
  | done (a : α) (bs : Bytes) {s' : Refs} {w' : Book} : X a bs → s'.ec = s.ec →
      w'.received = w.received ++ bs → Taking X s w (some a) s' w'
  | failed {s' : Refs} {w' : Book} : s'.ec ≠ none → Taking X s w none s' w'

/-- The same of a function that only says whether it has succeeded. -/
def TakingAll (X : Bytes → Prop) (s : Refs) (w : Book) (ok : Bool) : Refs → Book → Prop :=
  Taking (fun _ : Unit => X) s w (if ok then some () else none)

theorem Taking.after {α : Type} {X Y : α → Bytes → Prop} {bs : Bytes} {r : Option α}
    (h : Taking X t w₁ r s' w') (hec : t.ec = s.ec) (hw : w₁.received = w.received ++ bs)
    (hY : ∀ a cs, X a cs → Y a (bs ++ cs)) : Taking Y s w r s' w' := by
  cases h with
  | done a cs hx he hr =>
    exact .done a _ (hY a cs hx) (he.trans hec) (by rw [hr, hw, List.append_assoc])
  | failed he => exact .failed he

theorem Only.received (hM : Observed f M) {α : Type} {x : Session α} {Q : α → Refs → Book → Prop}
    (hx : Only NoRead x) (h : Ends M x s w Q) :
    Ends M x s w fun a s' w' => Q a s' w' ∧ w'.received = w.received :=
  hx.keep h rfl (fun hi hc hm => (received_of_not_reads hM hm hc).trans hi) fun _ _ => trivial

section Functions

variable (hM : Observed f M)
include hM

theorem taking_recvAll {len : ℕ} (hl : len < 2 ^ 31) :
    Ends M (recvAll len) s w (Taking (fun a bs => a = bs ∧ bs.length = len) s w) := by
  refine wp_mono (wp_recvAll_watched hM hl fun _ _ _ _ => trivial) ?_
  rintro _ _ w' (⟨bs, hlen, h⟩ | ⟨e, bs, -, -⟩)
  · exact .done bs bs ⟨rfl, hlen⟩ rfl h.1
  · exact .failed (by simp)

theorem taking_readFileHeader :
    Ends M readFileHeader s w (Taking (fun e bs => e.relPath.length ≤ 0xFFFF ∧
      bs = encodeFileHeader e) s w) := by
  unfold readFileHeader
  rw [Ends, wp_bind]
  refine wp_mono (taking_recvAll hM (by omega)) ?_
  rintro _ t w₁ (⟨buf, _, ⟨rfl, hl⟩, hec, hw⟩ | he)
  · simp only
    split
    · exact .failed (by simp)
    · rename_i hm
      have hf : fixedOf buf = some (decodeU16LE (buf.drop 4), decodeU64LE (buf.drop 6),
          decodeU32LE (buf.drop 14)) := by rw [fixedOf, if_neg hm]
      have hlt : (decodeU16LE (buf.drop 4)).toNat < 2 ^ 16 := UInt16.toNat_lt _
      split
      · rw [wp_bind]
        refine wp_mono (taking_recvAll hM (by omega)) ?_
        rintro _ u w₂ (⟨path, _, ⟨rfl, hl'⟩, hec', hw'⟩ | he)
        · refine .done (⟨path, _, _⟩ : FileEntry) (buf ++ path) ⟨by simp only; omega, ?_⟩ (hec'.trans hec) ?_
          · rw [encodeFileHeader, ← eq_of_fixedOf hl hf hl']
          · rw [hw', hw, List.append_assoc]
        · exact .failed he
      · rename_i h0
        have hl' : ([] : Bytes).length = (decodeU16LE (buf.drop 4)).toNat :=
          (toNat_eq_zero_of_not_pos h0).symm
        refine .done (⟨[], _, _⟩ : FileEntry) buf ⟨by simp, ?_⟩ hec hw
        rw [encodeFileHeader, ← eq_of_fixedOf hl hf hl', List.append_nil]
  · exact .failed he

theorem taking_receivePayload (remaining : UInt64) (crc : Crc32) :
    Ends M (receivePayload remaining crc) s w
      (Taking (fun _ => OfLength remaining.toNat) s w) := by
  fun_induction receivePayload remaining crc generalizing s w with
  | case1 => exact .done _ [] rfl rfl (List.append_nil _).symm
  | case2 remaining crc h want =>
    rename_i ih
    have hwant : want.toNat = min remaining.toNat (2 ^ 20) := toNat_chunk remaining
    rw [Ends, wp_bind]
    refine wp_mono (taking_recvAll hM (by omega)) ?_
    rintro _ t w₁ (⟨buf, _, ⟨rfl, hl⟩, hec, hw⟩ | he)
    · rw [wp_bind, wp_perform]
      refine ⟨trivial, fun ok w₂ hm => ?_⟩
      have h₂ : w₂.received = w₁.received := received_of_not_reads hM hm id
      cases ok with
      | false => exact .failed (by simp)
      | true =>
        simp only [Bool.not_true, Bool.false_eq_true, if_false]
        rw [wp_bind, wp_progress]
        refine wp_mono (ih buf) fun r u w₃ h₃ => ?_
        refine h₃.after hec (h₂.trans hw) fun _ cs hcs => ?_
        have hle : want ≤ remaining := chunk_le remaining
        rw [OfLength, UInt64.toNat_sub_of_le _ _ hle] at hcs
        rw [OfLength, List.length_append, hcs, hl]
        omega
    · exact .failed he

theorem taking_receiveAndCheck (size : UInt64) (expected : UInt32) :
    Ends M (receiveAndCheck size expected) s w (TakingAll (OfLength size.toNat) s w) := by
  unfold receiveAndCheck
  rw [Ends, wp_bind]
  refine wp_mono (taking_receivePayload hM size {}) ?_
  rintro _ t w₁ (⟨crc, bs, hl, hec, hw⟩ | he)
  · simp only
    split
    · exact .failed (by simp)
    · exact .done () bs hl hec hw
  · exact .failed he

theorem ends_createParent (target : Bytes) :
    Ends M (createParent target) s w fun _ s' w' => s' = s ∧ w'.received = w.received := by
  refine Only.received hM (only_createParent (fun _ => id) target) ?_
  unfold createParent
  split
  · exact ⟨trivial, fun _ _ _ => rfl⟩
  · exact rfl

theorem taking_receivePayloadToFile (target : Bytes) (size : UInt64) (expected : UInt32) :
    Ends M (receivePayloadToFile target size expected) s w (TakingAll (OfLength size.toNat) s w) := by
  unfold receivePayloadToFile
  rw [Ends, wp_bind]
  refine wp_mono (ends_createParent hM target) ?_
  rintro _ t w₁ ⟨rfl, hw₁⟩
  rw [wp_bind, wp_perform]
  refine ⟨trivial, fun ok w₂ hm => ?_⟩
  have hw₂ : w₂.received = w.received := (received_of_not_reads hM hm id).trans hw₁
  cases ok with
  | false => exact .failed (by simp)
  | true =>
    simp only [Bool.not_true, Bool.false_eq_true, if_false, wp_bind]
    refine wp_mono (taking_receiveAndCheck hM size expected) fun ok u w₃ h₃ => ?_
    rw [wp_perform]
    refine ⟨trivial, fun _ w₄ hm => ?_⟩
    have hw₄ : w₄.received = w₃.received := received_of_not_reads hM hm id
    rcases ok with _ | _
    · cases h₃ with
      | failed he => exact .failed he
    · cases h₃ with
      | done _ bs hl hec hr => exact .done () bs hl hec (by rw [hw₄, hr, hw₂])

theorem taking_storeRecord (e : FileEntry) :
    Ends M (storeRecord options dir e) s w (TakingAll (OfLength e.size.toNat) s w) := by
  unfold storeRecord
  split
  · exact .failed (by simp)
  · rw [Ends, wp_bind]
    refine wp_mono (taking_receivePayloadToFile hM _ _ _) fun ok t w₁ h => ?_
    rcases ok with _ | _
    · cases h with
      | failed he => exact .failed he
    · cases h with
      | done _ bs hl hec hr => exact .done () bs hl hec hr

/-- What one iteration takes from the connection before it goes on. -/
def Block.Whole : Block → Prop
  | bare e => e.relPath = []
  | record r => r.path ≠ []

theorem taking_receiveRecord : Ends M (receiveRecord options dir) s w
    (TakingAll (fun bs => ∃ b : Block, b.Whole ∧ bs = b.encode) s w) := by
  unfold receiveRecord
  rw [Ends, wp_bind]
  refine wp_mono (taking_readFileHeader hM) ?_
  rintro _ t w₁ (⟨e, bs, ⟨hfit, rfl⟩, hec, hw⟩ | he)
  · simp only
    split
    · rename_i hnil
      exact .done () _ ⟨.bare e, hnil, rfl⟩ hec hw
    · rename_i hne
      refine wp_mono (taking_storeRecord hM e) fun ok u w₂ h => h.after hec hw ?_
      intro _ payload hl
      have hsize : payload.length < 2 ^ 64 := hl ▸ e.size.toNat_lt
      refine ⟨.record ⟨e.relPath, e.crc32, payload, hfit, hsize⟩, hne, ?_⟩
      have he : UInt64.ofNat payload.length = e.size := by rw [hl, UInt64.ofNat_toNat]
      rw [Block.encode, Record.encode, Record.entry, he]
  · exact .failed he

/-- What the record loop takes from the connection before it ends. -/
def Blocks (n : ℕ) (bs : Bytes) : Prop :=
  ∃ blocks : List Block, blocks.length = n ∧ (∀ b ∈ blocks, b.Whole) ∧ bs = blocks.flatMap Block.encode

theorem taking_receiveRecords (n : ℕ) :
    Ends M (receiveRecords options dir n) s w (TakingAll (Blocks n) s w) := by
  induction n generalizing s w with
  | zero => exact .done () [] ⟨[], rfl, by simp, rfl⟩ rfl (List.append_nil _).symm
  | succ n ih =>
    unfold receiveRecords
    rw [Ends, wp_bind]
    refine wp_mono (taking_receiveRecord hM) fun ok t w₁ h => ?_
    rcases ok with _ | _
    · cases h with
      | failed he => exact .failed he
    · cases h with
      | done _ bs hb hec hw =>
        obtain ⟨b, hb, rfl⟩ := hb
        refine wp_mono ih fun ok u w₂ h => h.after hec hw ?_
        rintro _ _ ⟨blocks, rfl, hbs, rfl⟩
        exact ⟨b :: blocks, rfl, List.forall_mem_cons.mpr ⟨hb, hbs⟩, rfl⟩

theorem taking_readSessionHeader : Ends M readSessionHeader s w
    (Taking (fun h bs => bs.length = 32 ∧ sessionOf bs = some h) s w) := by
  unfold readSessionHeader
  rw [Ends, wp_bind]
  refine wp_mono (taking_recvAll hM (by omega)) ?_
  rintro _ t w₁ (⟨buf, _, ⟨rfl, hl⟩, hec, hw⟩ | he)
  · simp only
    split
    · exact .failed (by simp)
    · rename_i hm
      split
      · exact .failed (by simp)
      · rename_i hc
        exact .done _ buf ⟨hl, by rw [sessionOf, if_neg hm, if_neg hc]⟩ hec hw
  · exact .failed he

theorem taking_handshake (hf : ¬ f.stall) : Ends M handshake s w
    (Taking (fun h bs => bs.length = 32 ∧ sessionOf bs = some h) s w) := by
  unfold handshake
  rw [Ends, wp_bind]
  refine wp_mono (taking_readSessionHeader hM) ?_
  rintro _ t w₁ (⟨header, buf, hh, hec, hw⟩ | he)
  · simp only [wp_bind]
    refine wp_mono (wp_sendAll_watched hM (by simp) fun _ _ _ _ _ _ => trivial) ?_
    rintro ok u w₂ (hl | ⟨e, sent, -, he, -⟩)
    · exact .done header buf hh hec (hl.1.trans hw)
    · exact .failed (he.resolve_left hf)
  · exact .failed he

theorem reports_openOutput : Ends M (openOutput options) s w fun r s' w' =>
    Reports s r s' w' ∧ w'.received = w.received := by
  refine Only.received hM (only_openOutput id id (fun _ => id) options) ?_
  have hfind : Ends M (findOutput options) s w fun _ s' _ => s' = s := by
    unfold findOutput
    split
    · exact ⟨trivial, fun _ _ _ => rfl⟩
    · exact rfl
  unfold openOutput
  rw [Ends, wp_bind]
  refine wp_mono hfind ?_
  rintro dir t w₁ rfl
  have hcreate : Ends M (createOutput options dir) t w₁ fun _ t' _ => t' = t := by
    unfold createOutput
    split
    · exact ⟨trivial, fun _ _ _ => rfl⟩
    · exact rfl
  rw [wp_bind]
  refine wp_mono hcreate ?_
  rintro _ _ w₂ rfl
  rw [wp_bind, wp_perform]
  refine ⟨trivial, fun fs w₃ _ => ?_⟩
  split
  · exact ⟨fun h => absurd rfl h, fun _ => by simp⟩
  · exact ⟨fun _ => rfl, fun h => by cases h⟩

theorem taking_openSession (hf : ¬ f.stall) : Ends M (openSession options) s w
    (Taking (fun p bs => bs.length = 32 ∧ sessionOf bs = some p.1) s w) := by
  unfold openSession
  rw [Ends, wp_bind]
  refine wp_mono (taking_handshake hM hf) ?_
  rintro _ t w₁ (⟨header, buf, hh, hec, hw⟩ | he)
  · simp only [wp_bind]
    refine wp_mono (reports_openOutput hM) ?_
    rintro r u w₂ ⟨hr, hw₂⟩
    cases r with
    | none => exact .failed (hr.2 rfl)
    | some dir => exact .done (header, dir) buf hh ((hr.1 (by simp)).trans hec) (hw₂.trans hw)
  · exact .failed he

end Functions

/-- The session header and all the records that it announces have been received. -/
def AllReceived (received : Bytes) : Prop :=
  ∃ buf header body rest, received = buf ++ (body ++ rest) ∧ buf.length = 32 ∧
    sessionOf buf = some header ∧ Blocks header.totalFiles.toNat body

theorem AllReceived.append {received : Bytes} (h : AllReceived received) (bs : Bytes) :
    AllReceived (received ++ bs) := by
  obtain ⟨buf, header, body, rest, rfl, hl, hh, hb⟩ := h
  exact ⟨buf, header, body, rest ++ bs, by simp only [List.append_assoc], hl, hh, hb⟩

/-- No source turns out not to exist, once bytes have been sent, no file ends before it has been
read, and once all records have been received, the end of the session comes. -/
def Orderly (w : Book) : (c : Call) → c.Result → Prop
  | .pathExists _, r => r = true
  | .pread .., .ok bs => w.sent ≠ [] → bs.1 ≠ []
  | .recv _, .ok bs => AllReceived w.received → bs.1 ≠ []
  | .recv _, .error _ => ¬ AllReceived w.received
  | _, _ => True

/-- The orderly steps of a party next to any peer, with files that others change at any time. -/
def orderly (f : Faults) : Machine Call.Result Book := fun w c r w' =>
  watched (volatile f) w c r w' ∧ Orderly w c r

theorem observed_orderly (f : Faults) : Observed f (orderly f) := And.left

theorem steps_orderly (f : Faults) : Steps f False (orderly f) :=
  ⟨observed_orderly f, fun hm hs hnil => hm.2 hs hnil⟩

theorem recvAll_orderly {len : ℕ} (hl : len < 2 ^ 31) (hw : AllReceived w.received) :
    Ends (orderly f) (recvAll len) s w fun r s' _ => r ≠ none ∧ s' = s := by
  induction len using Nat.strong_induction_on generalizing w with
  | _ len ih =>
    unfold recvAll
    split
    · exact ⟨by simp, rfl⟩
    · rename_i h0
      rw [Ends, wp_bind]
      have hone : Ends (orderly f) (recv len) s w fun r s' w' =>
          s' = s ∧ AllReceived w'.received ∧
            ∃ (n : ℕ) (buf : Bytes), 0 < n ∧ n ≤ len ∧ r = (toInt n, buf) := by
        unfold recv
        rw [Ends, wp_bind, wp_perform]
        refine ⟨trivial, fun r w' hm => ?_⟩
        obtain ⟨⟨a, ⟨g, ⟨-, hk⟩, -⟩, ha⟩, ho⟩ := hm
        rcases r with e | ⟨bs, hbs⟩
        · exact absurd hw ho
        · have hne : bs ≠ [] := ho hw
          rcases hk with ⟨-, hnil, -⟩ | ⟨rfl, -⟩ | ⟨-, hnil, -⟩
          · exact absurd hnil hne
          · rw [wp_pure]
            refine ⟨rfl, ?_, bs.length, bs, List.length_pos_iff.mpr hne, hbs, rfl⟩
            rw [ha.1]
            exact hw.append bs
          · exact absurd hnil hne
      refine wp_mono hone ?_
      rintro _ t w₁ ⟨rfl, hw₁, n, buf, hpos, hle, rfl⟩
      simp only
      rw [toInt_of_lt (by omega), dif_neg (by omega), Int.toNat_natCast, wp_bind]
      refine wp_mono (ih (len - n) (by omega) (by omega) hw₁) ?_
      rintro r u w₂ ⟨hr, rfl⟩
      exact ⟨by simpa using hr, rfl⟩

theorem finishSession_orderly (hw : AllReceived w.received) :
    Ends (orderly f) finishSession s w fun _ s' _ => s'.ec = s.ec := by
  unfold finishSession readDone
  rw [Ends, wp_bind, wp_bind]
  refine wp_mono (recvAll_orderly (by omega) hw) ?_
  rintro r t w₁ ⟨hr, rfl⟩
  cases r with
  | none => exact absurd rfl hr
  | some buf =>
    simp only [wp_pure, wp_bind]
    rw [wp_perform]
    exact ⟨trivial, fun _ _ _ => rfl⟩

end Receiving

/-- The verdict is the one that the error code gives. -/
def Agrees (ok : Bool) (s' : Refs) (_ : Book) : Prop := ok = false ↔ s'.ec ≠ none

theorem Handing.agrees {D F : Bytes → Prop} {ok : Bool} (h : Handing f False D F s w ok s' w')
    (hf : ¬ f.stall) (hs : s.ec = none) : Agrees ok s' w' := by
  cases h with
  | done bs hd he hw => simp [Agrees, he, hs]
  | failed bs rest hF he hw =>
    have hec : s'.ec ≠ none := (he.resolve_left hf).resolve_right id
    simp [Agrees, hec]

theorem agrees_sendScanned {sock : Socket} {signals : ℕ} {paths : List Bytes}
    {options : SenderOptions} {manifest : List FileEntry} (hf : ¬ f.stall) (hs : s.ec = none) :
    Ends (orderly f) (sendScanned sock signals paths options manifest) s w Agrees := by
  by_cases hne : manifest = []
  · unfold sendScanned
    rw [if_pos hne]
    simp [Agrees, hs]
  · exact wp_mono (handing_sendScanned (steps_orderly f) hne) fun _ _ _ h => h.agrees hf hs

theorem agrees_sendFiles {sock : Socket} {signals : ℕ} {paths : List Bytes}
    {options : SenderOptions} {manifest : List FileEntry} (hf : ¬ f.stall) (hs : s.ec = none) :
    Ends (orderly f) (sendFiles sock signals paths manifest options) s w Agrees := by
  by_cases hne : manifest = []
  · unfold sendFiles
    rw [if_pos hne]
    simp [Agrees, hs]
  · exact wp_mono (handing_sendFiles (steps_orderly f) hne) fun _ _ _ h => h.agrees hf hs

section Scan

/-- Nothing is kept in the variables. -/
def Quiet {α : Type} (x : Session α) : Prop := Gives x fun s _ s' => s' = s

theorem quiet_pure {α : Type} (a : α) : Quiet (pure a) := gives_pure fun _ => rfl

theorem quiet_perform (c : Call) : Quiet (perform c) := gives_issue fun _ _ => rfl

theorem Quiet.bind {α β : Type} {x : Session α} {g : α → Session β} (hx : Quiet x)
    (hg : ∀ a, Quiet (g a)) : Quiet (x >>= g) :=
  Gives.bind hx hg fun _ _ _ _ _ hs hs' => hs'.trans hs

variable {paths : List Bytes} {options : SenderOptions} {path pre : Bytes}

theorem quiet_makeRelPath : Quiet (makeRelPath path pre) := by
  unfold makeRelPath
  refine Quiet.bind ?_ fun _ => quiet_pure _
  split
  · exact quiet_pure _
  · refine (quiet_perform _).bind fun _ => ?_
    split
    · exact quiet_pure _
    · exact quiet_perform _

theorem quiet_scanFile : Quiet (scanFile pre path) := by
  unfold scanFile
  refine (quiet_perform _).bind fun _ => ?_
  split
  · exact quiet_pure _
  · refine quiet_makeRelPath.bind fun _ => ?_
    split <;> exact quiet_pure _

theorem quiet_scanBelow (qs : List Bytes) : Quiet (scanBelow pre qs) := by
  induction qs with
  | nil => exact quiet_pure _
  | cons q qs ih =>
    unfold scanBelow
    refine Quiet.bind ?_ fun _ => ih.bind fun _ => quiet_pure _
    refine (quiet_perform _).bind fun _ => ?_
    split
    · exact quiet_pure _
    · exact quiet_scanFile

theorem orderly_scanPath (p : Bytes) :
    Ends (orderly f) (scanPath options p) s w fun _ s' _ => s' = s := by
  unfold scanPath
  rw [Ends, wp_bind, wp_perform]
  refine ⟨trivial, fun found w₁ hm => ?_⟩
  obtain rfl : found = true := hm.2
  simp only [Bool.not_true, Bool.false_eq_true, if_false]
  refine Gives.wp (Q := fun s _ s' => s' = s) (Quiet.bind (quiet_perform _) fun _ => ?_)
  split
  · exact quiet_scanFile.bind fun _ => quiet_pure _
  · refine (quiet_perform _).bind fun _ => ?_
    split
    · split
      · exact quiet_pure _
      · exact (quiet_perform _).bind fun _ => (quiet_scanBelow _).bind fun _ => quiet_pure _
    · exact quiet_pure _

theorem orderly_scanPaths (paths : List Bytes) :
    Ends (orderly f) (scanPaths options paths) s w fun _ s' _ => s' = s := by
  induction paths generalizing s w with
  | nil => exact rfl
  | cons p paths ih =>
    unfold scanPaths
    rw [Ends, wp_bind]
    refine wp_mono (orderly_scanPath p) ?_
    rintro r _ w₁ rfl
    cases r with
    | none => exact rfl
    | some out =>
      simp only [wp_bind]
      refine wp_mono ih ?_
      rintro r _ w₂ rfl
      cases r <;> exact rfl

/-- Where all sources are found, the scan leaves the error code alone, whatever else fails. -/
theorem orderly_collectFiles (std : StdSort) :
    Ends (orderly f) (collectFiles std options paths) s w fun _ s' _ => s' = s := by
  unfold collectFiles
  rw [Ends, wp_bind]
  refine wp_mono (orderly_scanPaths paths) ?_
  rintro r _ w₁ rfl
  cases r <;> exact rfl

end Scan

theorem agrees_sendPaths (std : StdSort) {sock : Socket} {signals : ℕ} {paths : List Bytes}
    {options : SenderOptions} (hf : ¬ f.stall) (hs : s.ec = none) :
    Ends (orderly f) (sendPaths std sock signals paths options) s w Agrees := by
  rw [sendPaths_eq, Ends, wp_bind]
  refine wp_mono (orderly_collectFiles std) ?_
  rintro es _ w₁ rfl
  exact agrees_sendScanned hf hs

theorem agrees_receiveStream (hf : ¬ f.stall) (hs : s.ec = none) (hw : w.received = []) :
    Ends (orderly f) (receiveStream options) s w Agrees := by
  have hM : Observed f (orderly f) := observed_orderly f
  unfold receiveStream
  rw [Ends, wp_bind]
  refine wp_mono (taking_openSession hM hf) ?_
  rintro _ t w₁ (⟨⟨header, dir⟩, buf, ⟨hl, hh⟩, hec, hw₁⟩ | he)
  · simp only [wp_bind]
    refine wp_mono (taking_receiveRecords hM header.totalFiles.toNat) fun ok u w₂ h => ?_
    rcases ok with _ | _
    · cases h with
      | failed he => simp [Agrees, he]
    · cases h with
      | done _ body hb hec' hw₂ =>
        have hall : AllReceived w₂.received := by
          refine ⟨buf, header, body, [], ?_, hl, hh, hb⟩
          rw [hw₂, hw₁, hw, List.nil_append, List.append_nil]
        simp only [Bool.not_true, Bool.false_eq_true, if_false, wp_bind]
        refine wp_mono (finishSession_orderly hall) fun _ v w₃ hv => ?_
        simp [Agrees, hv, hec', hec, hs]
  · simp [Agrees, he]

/-- In orderly runs, each function fails exactly if it leaves an error code. -/
theorem verdict_agrees (f : Faults) (hf : ¬ f.stall) (s : Refs) (hs : s.ec = none) (host : Host) :
    (∀ options, Ends (orderly f) (receiveStream options) s ⟨host, [], []⟩ Agrees) ∧
    (∀ std sock signals paths options,
      Ends (orderly f) (sendPaths std sock signals paths options) s ⟨host, [], []⟩ Agrees) ∧
    ∀ sock signals paths manifest options,
      Ends (orderly f) (sendFiles sock signals paths manifest options) s ⟨host, [], []⟩ Agrees := by
  constructor
  · exact fun _ => agrees_receiveStream hf hs rfl
  constructor
  · exact fun std _ _ _ _ => agrees_sendPaths std hf hs
  · exact fun _ _ _ _ _ => agrees_sendFiles hf hs

/-- Where everything but the socket may fail in any way, and the socket with an error. -/
theorem verdict_agrees_nested :
    Ends (orderly ⟨True, False, True, True, True⟩) (receiveStream { outputDir := [0x2F, 0x64] })
      { progress := 7 } ⟨⟨nested, none⟩, [], []⟩ Agrees ∧
    Ends (orderly ⟨True, False, True, True, True⟩)
      (sendPaths insertionSort ⟨3⟩ 2 [[0x2F, 0x61], [0x2F, 0x64]] { recursive := true })
      { progress := 7 } ⟨⟨nested, none⟩, [], []⟩ Agrees ∧
    Ends (orderly ⟨True, False, True, True, True⟩)
      (sendFiles ⟨3⟩ 2 [[0x2F, 0x64]] [⟨[0x62], 2, 0⟩, ⟨[0x62], 9, 7⟩] { zeroCopy := false })
      { progress := 7 } ⟨⟨nested, none⟩, [], []⟩ Agrees := by
  obtain ⟨hr, hp, hf⟩ :=
    verdict_agrees ⟨True, False, True, True, True⟩ id { progress := 7 } rfl ⟨nested, none⟩
  exact ⟨hr _, hp _ _ _ _ _, hf _ _ _ _ _⟩

/-- A source that does not exist leaves an error code, and yet `SendPaths` succeeds. -/
theorem missing_source_disagrees : ¬ ∀ f : Faults, ¬ f.stall → ∀ std sock signals paths options s host,
    s.ec = none → Ends (watched (volatile f)) (sendPaths std sock signals paths options) s
      ⟨host, [], []⟩ Agrees := by
  intro h
  have hrun := h .none id insertionSort ⟨0⟩ 0 [[0x2F, 0x61]] {} {} ⟨.empty, none⟩ rfl
  rw [sendPaths_eq, Ends, wp_bind] at hrun
  unfold collectFiles scanPaths scanPath at hrun
  simp only [wp_bind] at hrun
  rw [wp_perform] at hrun
  have hno : FileSystem.empty.pathExists [0x2F, 0x61] = false := by decide
  have hmissing := hrun.2 false ⟨⟨.empty, none⟩, [], []⟩
    ⟨.silent, ⟨⟨.empty, none⟩, ⟨rfl, rfl, Or.inl hno.symm⟩, rfl⟩, rfl, rfl⟩
  exact absurd (hmissing.mpr (by simp)) (by simp)

end Xfer.Transfer
