import Xfer.Process.Leaves
import Xfer.Transfer.Codec
import Xfer.Transfer.Phases

/-! # What the parties call

Whatever a manifest, a peer or a file system says, a sender makes calls of a few
kinds only, none of which changes a file, and so does a receiver, which reads no
file. Payloads and files go through a buffer of a mebibyte.
-/

namespace Xfer.Transfer

open Net Common Posix Process Code

variable {P : Call → Prop} {bound : ℕ}

/-- A call of a sender. It fits the buffer, or what `sendfile` takes at a time. -/
def SenderCall : Call → Prop
  | .look | .pathExists _ | .stat _ | .relative .. | .iterate .. | .openRead _ | .close _ => True
  | .pread _ n _ => n ≤ kBufSize.toNat
  | .sendfile _ _ _ n => n ≤ kMaxSendfile.toNat
  | .send bs => bs.length ≤ kBufSize.toNat
  | .recv n => n ≤ 8
  | _ => False

/-- A call of a receiver, which fits the buffer. -/
def ReceiverCall : Call → Prop
  | .look | .currentPath | .createDirectories _ | .openTrunc _ | .closeStream | .elapsed => True
  | .write bs => bs.length ≤ kBufSize.toNat
  | .recv n => n ≤ kBufSize.toNat
  | .send bs => bs.length ≤ 8
  | _ => False

theorem toNat_chunk_le (r : UInt64) : (chunk r).toNat ≤ kBufSize.toNat := by
  rw [toNat_chunk]
  exact Nat.min_le_right _ _

theorem toNat_uint16_le (n : UInt16) : n.toNat ≤ kBufSize.toNat :=
  (Nat.le_of_lt n.toNat_lt).trans (by decide)

theorem only_sendAll_of_le (hP : ∀ bs : Bytes, bs.length ≤ bound → P (.send bs)) {data : Bytes}
    (h : data.length ≤ bound) : Only P (sendAll data) := by
  fun_induction sendAll data with
  | case1 => exact only_pure _
  | case2 data _ ih =>
    refine Only.bind ?_ fun n => ?_
    · refine (only_perform (hP _ h)).bind fun r => ?_
      split
      · exact only_pure _
      · exact (only_setEc _).bind fun _ => only_pure _
    · split
      · exact only_pure _
      · exact ih n ‹_› ((List.length_drop ▸ Nat.sub_le _ _ : (data.drop _).length ≤ _).trans h)

theorem only_recvAll_of_le (hP : ∀ n, n ≤ bound → P (.recv n)) {len : ℕ} (h : len ≤ bound) :
    Only P (recvAll len) := by
  fun_induction recvAll len with
  | case1 => exact only_pure _
  | case2 len _ ih =>
    refine Only.bind ?_ fun r => ?_
    · refine (only_perform (hP _ h)).bind fun r => ?_
      split
      · exact only_pure _
      · exact (only_setEc _).bind fun _ => only_pure _
    · simp only
      split
      · split
        · exact (only_setEc _).bind fun _ => only_pure _
        · exact only_pure _
      · exact (ih _ ‹_› ((Nat.sub_le _ _).trans h)).bind fun _ => only_pure _

section Sender

theorem only_senderCall_openEntry (paths : List Bytes) (e : FileEntry) :
    Only SenderCall (openEntry paths e) := by
  refine Only.bind ?_ fun r => ?_
  · refine (only_perform trivial).bind fun fs => ?_
    split
    · exact (only_setEc _).bind fun _ => only_pure _
    · exact only_pure _
  · split
    · refine (only_perform trivial).bind fun r => ?_
      split
      · exact (only_setEc _).bind fun _ => only_pure _
      · exact only_pure _
    · exact only_pure _

theorem only_senderCall_sumEntry (paths : List Bytes) (e : FileEntry) :
    Only SenderCall (sumEntry paths e) := by
  have hloop : ∀ fd remaining offset crc, Only SenderCall (crcLoop fd remaining offset crc) := by
    intro fd remaining offset crc
    fun_induction crcLoop fd remaining offset crc with
    | case1 => exact only_pure _
    | case2 remaining offset crc h want ih =>
      refine (only_perform (toNat_chunk_le remaining)).bind fun r => ?_
      split
      · exact (only_setEc _).bind fun _ => only_pure _
      · split
        · exact only_pure _
        · exact ih _ ‹_›
  refine (only_senderCall_openEntry paths e).bind fun r => ?_
  split
  · refine Only.bind ?_ fun crc => ?_
    · refine (hloop _ _ _ _).bind fun r => ?_
      split <;> exact only_pure _
    · refine (only_perform trivial).bind fun _ => only_get.bind fun s => ?_
      split <;> exact only_pure _
  · exact only_pure _

theorem only_senderCall_sendFromFd (sock : Socket) (signals : ℕ) (fd : Fd) (offset length : UInt64) :
    Only SenderCall (sendFromFd sock signals fd offset length) := by
  have hloop : ∀ signals off remaining, Only SenderCall (sendfileLoop fd signals off remaining) := by
    intro signals off remaining
    fun_induction sendfileLoop fd signals off remaining with
    | case1 => exact only_pure _
    | case2 signals off remaining h want ih₁ ih₂ =>
      have hwant : want.toNat ≤ kMaxSendfile.toNat := by
        unfold want
        split
        · exact le_rfl
        · exact UInt64.not_lt.mp ‹_›
      refine (only_perform hwant).bind fun r => ?_
      split
      · exact ih₁ ‹_›
      · exact (only_setEc _).bind fun _ => only_pure _
      · split
        · exact (only_setEc _).bind fun _ => only_pure _
        · exact (ih₂ _ ‹_› ‹_›).map
  unfold sendFromFd
  split
  · exact (only_setEc _).bind fun _ => only_pure _
  · split
    · exact only_pure _
    · exact hloop _ _ _

theorem only_senderCall_sendFileBytes (sock : Socket) (signals : ℕ) (fd : Fd) (size : UInt64)
    (zeroCopy : Bool) : Only SenderCall (sendFileBytes sock signals fd size zeroCopy) := by
  have hzero : ∀ offset remaining,
      Only SenderCall (zeroCopyLoop sock signals fd offset remaining) := by
    intro offset remaining
    fun_induction zeroCopyLoop sock signals fd offset remaining with
    | case1 => exact only_pure _
    | case2 offset remaining h ih =>
      refine (only_senderCall_sendFromFd sock signals fd _ _).bind fun pushed => ?_
      split
      · simp only
        split
        · exact (only_setEc _).bind fun _ => only_pure _
        · exact (only_addProgress _).bind fun _ => ih pushed ‹_›
      · exact only_pure _
  have hpread : ∀ offset remaining, Only SenderCall (preadLoop fd offset remaining) := by
    intro offset remaining
    fun_induction preadLoop fd offset remaining with
    | case1 => exact only_pure _
    | case2 offset remaining h want ih =>
      refine (only_perform (toNat_chunk_le remaining)).bind fun r => ?_
      split
      · exact (only_setEc _).bind fun _ => only_pure _
      · rename_i bs
        split
        · exact only_pure _
        · refine (only_sendAll_of_le (fun _ h => h) (bs.2.trans (toNat_chunk_le remaining))).bind fun ok => ?_
          split
          · exact only_pure _
          · exact (only_addProgress _).bind fun _ => ih _ ‹_›
  unfold sendFileBytes
  split
  · exact only_pure _
  · split
    · exact hzero _ _
    · exact hpread _ _

theorem only_senderCall_sendRecord (sock : Socket) (signals : ℕ) (paths : List Bytes)
    (options : SenderOptions) (e : FileEntry) :
    Only SenderCall (sendRecord sock signals paths options e) := by
  refine Only.bind ?_ fun ok => ?_
  · unfold writeFileHeader
    split
    · exact (only_setEc _).bind fun _ => only_pure _
    · refine (only_sendAll_of_le (fun _ h => h) (by rw [length_encodeFixed]; decide)).bind fun ok => ?_
      split
      · exact only_pure _
      · split
        · exact only_sendAll_of_le (fun _ h => h) ((List.length_take_le _ _).trans (toNat_uint16_le _))
        · exact only_pure _
  · split
    · exact only_pure _
    · refine (only_senderCall_openEntry paths e).bind fun r => ?_
      split
      · refine (only_senderCall_sendFileBytes _ _ _ _ _).bind fun ok => ?_
        exact (only_perform trivial).bind fun _ => only_pure _
      · exact only_pure _

theorem only_senderCall_sendManifest (sock : Socket) (signals : ℕ) (paths : List Bytes)
    (options : SenderOptions) (es : List FileEntry) :
    Only SenderCall (sendManifest sock signals paths options es) := by
  have hrecords : Only SenderCall (sendRecords sock signals paths options es) := by
    induction es with
    | nil => exact only_pure _
    | cons e es ih =>
      refine (only_senderCall_sendRecord sock signals paths options e).bind fun ok => ?_
      split
      · exact only_pure _
      · exact ih
  refine (only_sendAll_of_le (fun _ h => h) (by rw [length_encodeSessionHeader]; decide)).bind fun ok => ?_
  split
  · exact only_pure _
  · refine Only.bind ?_ fun r => ?_
    · refine (only_recvAll_of_le (fun _ h => h) (by decide)).bind fun r => ?_
      split
      · split
        · exact (only_setEc _).bind fun _ => only_pure _
        · exact only_pure _
      · exact only_pure _
    · split
      · refine (only_modify _).bind fun _ => hrecords.bind fun ok => ?_
        split
        · exact only_pure _
        · exact only_sendAll_of_le (fun _ h => h) (by rw [length_encodeDone]; decide)
      · exact only_pure _

theorem only_senderCall_sendPaths (std : StdSort) (sock : Socket) (signals : ℕ) (paths : List Bytes)
    (options : SenderOptions) : Only SenderCall (sendPaths std sock signals paths options) := by
  refine Only.bind ?_ fun manifest => ?_
  · refine (scans_collectFiles std options paths).mono fun c hc => ?_
    cases c with
    | pathExists => trivial
    | stat => trivial
    | relative => trivial
    | iterate => trivial
    | _ => exact hc.elim
  · split
    · exact only_pure _
    · refine ((pass_computeCrcs paths).only (only_senderCall_sumEntry paths) manifest).bind fun r => ?_
      split
      · exact only_senderCall_sendManifest _ _ _ _ _
      · exact only_pure _

theorem only_senderCall_sendFiles (sock : Socket) (signals : ℕ) (paths : List Bytes)
    (manifest : List FileEntry) (options : SenderOptions) :
    Only SenderCall (sendFiles sock signals paths manifest options) := by
  have hfill : ∀ e, Only SenderCall (fillEntry paths e) := by
    intro e
    unfold fillEntry
    split
    · exact only_senderCall_sumEntry paths e
    · exact only_pure _
  unfold sendFiles
  split
  · exact only_pure _
  · refine ((pass_fillCrcs paths).only hfill manifest).bind fun r => ?_
    split
    · exact only_senderCall_sendManifest _ _ _ _ _
    · exact only_pure _

end Sender

section Receiver

theorem only_receiverCall_openSession (options : ReceiverOptions) :
    Only ReceiverCall (openSession options) := by
  refine Only.bind ?_ fun r => ?_
  · refine Only.bind ?_ fun r => ?_
    · refine (only_recvAll_of_le (fun _ h => h) (by decide)).bind fun r => ?_
      split
      · split
        · exact (only_setEc _).bind fun _ => only_pure _
        · simp only
          split
          · exact (only_setEc _).bind fun _ => only_pure _
          · exact only_pure _
      · exact only_pure _
    · split
      · refine (only_sendAll_of_le (fun _ h => h) (by rw [length_encodeAck])).bind fun ok => ?_
        split <;> exact only_pure _
      · exact only_pure _
  · split
    · refine (only_openOutput trivial trivial (fun _ => trivial) options).bind fun r => ?_
      split
      · exact (only_modify _).bind fun _ => only_pure _
      · exact only_pure _
    · exact only_pure _

theorem gives_recvAll (len : ℕ) :
    Gives (recvAll len) fun _ r _ => ∀ buf, r = some buf → buf.length ≤ len := by
  fun_induction recvAll len with
  | case1 => exact gives_pure fun _ buf h => Option.some.inj h ▸ le_rfl
  | case2 len h ih =>
    have hrecv : Gives (recv len) fun _ r _ => r.2.length ≤ len := by
      apply Gives.bind (Q := fun _ _ _ => True) gives_true (P := fun _ _ r _ => r.2.length ≤ len)
      · intro r
        split
        · rename_i bs
          exact gives_pure fun _ => bs.2
        · exact gives_true.bind (fun _ => gives_pure fun _ => Nat.zero_le _) fun _ _ _ _ _ _ h => h
      · exact fun _ _ _ _ _ _ h => h
    apply Gives.bind hrecv (P := fun a _ r _ => ∀ buf, r = some buf →
      buf.length ≤ min a.1.toNat a.2.length + (len - a.1.toNat))
    · rintro ⟨n, bs⟩
      simp only
      split
      · have hnone : Gives (pure none : Session (Option Bytes)) fun _ r _ => ∀ buf, r = some buf →
            buf.length ≤ min n.toNat bs.length + (len - n.toNat) :=
          gives_pure fun _ buf h => by cases h
        split
        · exact gives_true.bind (fun _ => hnone) fun _ _ _ _ _ _ h => h
        · exact hnone
      · apply Gives.bind (ih n ‹_›) (P := fun a _ r _ => r = a.map (bs.take n.toNat ++ ·))
        · exact fun _ => gives_pure fun _ => rfl
        · rintro s (_ | rest) t r s' hrest rfl buf h
          · cases h
          · obtain rfl := Option.some.inj h
            rw [List.length_append, List.length_take]
            exact Nat.add_le_add_left (hrest rest rfl) _
    · rintro s ⟨n, bs⟩ t r s' hb h buf rfl
      have := h buf rfl
      simp only at hb this
      omega

theorem only_receiverCall_receivePayload (remaining : UInt64) (crc : Crc32) :
    Only ReceiverCall (receivePayload remaining crc) := by
  fun_induction receivePayload remaining crc with
  | case1 => exact only_pure _
  | case2 remaining crc h want ih =>
    have hwant := toNat_chunk_le remaining
    apply (gives_recvAll _).only (only_recvAll_of_le (fun _ h => h) hwant)
    rintro (_ | buf) hbuf
    · exact only_pure _
    · refine (only_perform ((hbuf buf rfl).trans hwant)).bind fun ok => ?_
      split
      · exact (only_setEc _).bind fun _ => only_pure _
      · exact (only_addProgress _).bind fun _ => ih _

theorem only_receiverCall_receivePayloadToFile (target : Bytes) (size : UInt64) (expected : UInt32) :
    Only ReceiverCall (receivePayloadToFile target size expected) := by
  refine (only_createParent (fun _ => trivial) _).bind fun _ => ?_
  refine (only_perform trivial).bind fun ok => ?_
  split
  · exact (only_setEc _).bind fun _ => only_pure _
  · refine Only.bind ?_ fun ok => (only_perform trivial).bind fun _ => only_pure _
    refine (only_receiverCall_receivePayload _ _).bind fun r => ?_
    split
    · split
      · exact (only_setEc _).bind fun _ => only_pure _
      · exact only_pure _
    · exact only_pure _

theorem only_receiverCall_receiveRecord (options : ReceiverOptions) (dir : Bytes) :
    Only ReceiverCall (receiveRecord options dir) := by
  refine Only.bind ?_ fun r => ?_
  · refine (only_recvAll_of_le (fun _ h => h) (by decide)).bind fun r => ?_
    split
    · split
      · exact (only_setEc _).bind fun _ => only_pure _
      · simp only
        split
        · refine (only_recvAll_of_le (fun _ h => h) (toNat_uint16_le _)).bind fun r => ?_
          split <;> exact only_pure _
        · exact only_pure _
    · exact only_pure _
  · split
    · split
      · exact only_pure _
      · unfold storeRecord
        split
        · exact (only_setEc _).bind fun _ => only_pure _
        · refine (only_receiverCall_receivePayloadToFile _ _ _).bind fun ok => ?_
          split
          · exact only_pure _
          · exact (only_modify _).bind fun _ => only_pure _
    · exact only_pure _

theorem only_receiverCall_receiveStream (options : ReceiverOptions) :
    Only ReceiverCall (receiveStream options) := by
  have hrecords : ∀ dir n, Only ReceiverCall (receiveRecords options dir n) := by
    intro dir n
    induction n with
    | zero => exact only_pure _
    | succ n ih =>
      refine (only_receiverCall_receiveRecord options dir).bind fun ok => ?_
      split
      · exact only_pure _
      · exact ih
  refine (only_receiverCall_openSession options).bind fun r => ?_
  split
  · refine (hrecords _ _).bind fun ok => ?_
    split
    · exact only_pure _
    · refine Only.bind ?_ fun _ => only_pure _
      refine Only.bind ?_ fun _ => (only_perform trivial).bind fun _ => only_modify _
      refine (only_recvAll_of_le (fun _ h => h) (by decide)).bind fun r => ?_
      split <;> exact only_pure _
  · exact only_pure _

end Receiver

/-- Whatever the sizes in the manifest, in the headers and on disk, and whatever the calls come back
with, the parties make no other calls. -/
theorem parties_call :
    (∀ std sock signals paths options,
      Only SenderCall (sendPaths std sock signals paths options)) ∧
    (∀ sock signals paths manifest options,
      Only SenderCall (sendFiles sock signals paths manifest options)) ∧
    ∀ options, Only ReceiverCall (receiveStream options) :=
  ⟨only_senderCall_sendPaths, only_senderCall_sendFiles, only_receiverCall_receiveStream⟩

end Xfer.Transfer
