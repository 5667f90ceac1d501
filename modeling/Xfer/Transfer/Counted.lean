import Xfer.Process.Leaves
import Xfer.Process.Record
import Xfer.Transfer.Codec
import Xfer.Transfer.Phases

/-! # The bar at the end of a session

Whatever its system calls come back with, a party that succeeds has counted the
whole session: the sender the bytes that its header announces, the receiver the
bytes that its summary gains.
-/

namespace Xfer.Transfer

open Net Common Posix Process Code Program

variable {α β : Type}

/-- The bar and the total of the summary stay as they are. -/
def Steady (x : Session α) : Prop := Gives x fun s _ s' =>
  s'.progress = s.progress ∧ s'.summary.totalBytes = s.summary.totalBytes

/-- What the bar and the total of the summary gain is in this relation to what is returned. -/
def Counts (x : Session α) (N : α → UInt64 → UInt64 → Prop) : Prop := Gives x fun s a s' =>
  ∃ n m, s'.progress = s.progress + n ∧ s'.summary.totalBytes = s.summary.totalBytes + m ∧ N a n m

section Rules

variable {x : Session α} {f : α → Session β} {N : α → UInt64 → UInt64 → Prop}
  {N' : β → UInt64 → UInt64 → Prop}

theorem steady_pure (a : α) : Steady (pure a) := gives_pure fun _ => ⟨rfl, rfl⟩

theorem steady_perform (c : Call) : Steady (perform c) := gives_issue fun _ _ => ⟨rfl, rfl⟩

theorem steady_setEc (e : Errc) : Steady (setEc e) := gives_modify fun _ => ⟨rfl, rfl⟩

theorem Steady.bind (hx : Steady x) (hf : ∀ a, Steady (f a)) : Steady (x >>= f) := by
  apply Gives.bind hx hf
  rintro s a t b s' ⟨h₁, h₂⟩ ⟨h₃, h₄⟩
  exact ⟨h₃.trans h₁, h₄.trans h₂⟩

theorem counts_pure {a : α} (h : N a 0 0) : Counts (pure a) N :=
  gives_pure fun _ => ⟨0, 0, (UInt64.add_zero _).symm, (UInt64.add_zero _).symm, h⟩

theorem Counts.bind {K : α → β → UInt64 → UInt64 → Prop} (hx : Counts x N)
    (hf : ∀ a, Counts (f a) (K a))
    (h : ∀ a n m b n' m', N a n m → K a b n' m' → N' b (n + n') (m + m')) :
    Counts (x >>= f) N' := by
  apply Gives.bind hx hf
  rintro s a t b s' ⟨n, m, hn, hm, ha⟩ ⟨n', m', hn', hm', hb⟩
  refine ⟨n + n', m + m', ?_, ?_, h a n m b n' m' ha hb⟩
  · rw [hn', hn, UInt64.add_assoc]
  · rw [hm', hm, UInt64.add_assoc]

theorem Steady.counts (hx : Steady x) (h : ∀ a, N a 0 0) : Counts x N := by
  apply Gives.mono hx
  rintro s a s' ⟨hp, ht⟩
  exact ⟨0, 0, hp.trans (UInt64.add_zero _).symm, ht.trans (UInt64.add_zero _).symm, h a⟩

theorem Steady.then (hx : Steady x) (hf : ∀ a, Counts (f a) N') : Counts (x >>= f) N' := by
  apply Gives.bind hx hf
  rintro s a t b s' ⟨hp, ht⟩ ⟨n, m, hn, hm, hb⟩
  exact ⟨n, m, hn.trans (congrArg (· + n) hp), hm.trans (congrArg (· + m) ht), hb⟩

theorem Counts.and_then {x y : Session Bool} {A B D : UInt64 → UInt64 → Prop}
    (hx : Counts x fun ok n m => ok = true → A n m) (hy : Counts y fun ok n m => ok = true → B n m)
    (h : ∀ n m n' m', A n m → B n' m' → D (n + n') (m + m')) :
    Counts (do if !(← x) then pure false else y) fun ok n m => ok = true → D n m := by
  apply hx.bind (K := fun ok ok' n m => ok' = true → ok = true ∧ B n m)
  · rintro (_ | _)
    · exact counts_pure fun h => absurd h Bool.false_ne_true
    · apply Gives.mono hy
      rintro s ok s' ⟨n, m, hn, hm, hb⟩
      exact ⟨n, m, hn, hm, fun hok => ⟨rfl, hb hok⟩⟩
  · rintro ok n m ok' n' m' ha hb hok
    exact h n m n' m' (ha (hb hok).1) (hb hok).2

end Rules

section Steady

theorem steady_sendAll (data : Bytes) : Steady (sendAll data) := by
  fun_induction sendAll data with
  | case1 => exact steady_pure _
  | case2 data h ih =>
    refine Steady.bind ?_ fun n => ?_
    · refine (steady_perform _).bind fun r => ?_
      split
      · exact steady_pure _
      · exact (steady_setEc _).bind fun _ => steady_pure _
    · split
      · exact steady_pure _
      · exact ih n ‹_›

theorem steady_recvAll (len : ℕ) : Steady (recvAll len) := by
  fun_induction recvAll len with
  | case1 => exact steady_pure _
  | case2 len h ih =>
    refine Steady.bind ?_ fun r => ?_
    · refine (steady_perform _).bind fun r => ?_
      split
      · exact steady_pure _
      · exact (steady_setEc _).bind fun _ => steady_pure _
    · simp only
      split
      · split
        · exact (steady_setEc _).bind fun _ => steady_pure _
        · exact steady_pure _
      · exact (ih _ ‹_›).bind fun _ => steady_pure _

theorem steady_sendfileLoop (fd : Fd) (signals : ℕ) (off remaining : UInt64) :
    Steady (sendfileLoop fd signals off remaining) := by
  fun_induction sendfileLoop fd signals off remaining with
  | case1 => exact steady_pure _
  | case2 signals off remaining h want ih₁ ih₂ =>
    refine (steady_perform _).bind fun r => ?_
    split
    · exact ih₁ ‹_›
    · exact (steady_setEc _).bind fun _ => steady_pure _
    · split
      · exact (steady_setEc _).bind fun _ => steady_pure _
      · exact (ih₂ _ ‹_› ‹_›).bind fun _ => steady_pure _

theorem steady_sendFromFd (sock : Socket) (signals : ℕ) (fd : Fd) (offset length : UInt64) :
    Steady (sendFromFd sock signals fd offset length) := by
  unfold sendFromFd
  split
  · exact (steady_setEc _).bind fun _ => steady_pure _
  · split
    · exact steady_pure _
    · exact steady_sendfileLoop _ _ _ _

theorem steady_openEntry (paths : List Bytes) (e : FileEntry) : Steady (openEntry paths e) := by
  refine Steady.bind ?_ fun r => ?_
  · refine (steady_perform _).bind fun fs => ?_
    split
    · exact (steady_setEc _).bind fun _ => steady_pure _
    · exact steady_pure _
  · split
    · refine (steady_perform _).bind fun r => ?_
      split
      · exact (steady_setEc _).bind fun _ => steady_pure _
      · exact steady_pure _
    · exact steady_pure _

theorem steady_writeFileHeader (e : FileEntry) : Steady (writeFileHeader e) := by
  unfold writeFileHeader
  split
  · exact (steady_setEc _).bind fun _ => steady_pure _
  · refine (steady_sendAll _).bind fun ok => ?_
    split
    · exact steady_pure _
    · split
      · exact steady_sendAll _
      · exact steady_pure _

theorem steady_readFileHeader : Steady readFileHeader := by
  refine (steady_recvAll _).bind fun r => ?_
  split
  · split
    · exact (steady_setEc _).bind fun _ => steady_pure _
    · simp only
      split
      · refine (steady_recvAll _).bind fun r => ?_
        split <;> exact steady_pure _
      · exact steady_pure _
  · exact steady_pure _

theorem steady_createParent (target : Bytes) : Steady (createParent target) := by
  unfold createParent
  split
  · exact steady_perform _
  · exact steady_pure _

theorem steady_handshake : Steady handshake := by
  refine Steady.bind ?_ fun r => ?_
  · refine (steady_recvAll _).bind fun r => ?_
    split
    · split
      · exact (steady_setEc _).bind fun _ => steady_pure _
      · simp only
        split
        · exact (steady_setEc _).bind fun _ => steady_pure _
        · exact steady_pure _
    · exact steady_pure _
  · split
    · refine (steady_sendAll _).bind fun ok => ?_
      split <;> exact steady_pure _
    · exact steady_pure _

theorem steady_openOutput (options : ReceiverOptions) : Steady (openOutput options) := by
  refine Steady.bind ?_ fun dir => Steady.bind ?_ fun _ => (steady_perform _).bind fun fs => ?_
  · unfold findOutput
    split
    · exact steady_perform _
    · exact steady_pure _
  · unfold createOutput
    split
    · exact steady_perform _
    · exact steady_pure _
  · split
    · exact (steady_setEc _).bind fun _ => steady_pure _
    · exact steady_pure _

theorem steady_finishSession : Steady finishSession := by
  refine Steady.bind ?_ fun _ => (steady_perform _).bind fun _ => gives_modify fun _ => ⟨rfl, rfl⟩
  refine (steady_recvAll _).bind fun r => ?_
  split <;> exact steady_pure _

end Steady

section Sender

theorem counts_addProgress (k : UInt64) : Counts (addProgress k) fun _ n _ => n = k :=
  gives_modify fun _ => ⟨k, 0, rfl, (UInt64.add_zero _).symm, rfl⟩

theorem add_sub_cancel_right (k n : UInt64) : k + (n - k) = n := by
  rw [UInt64.add_comm, UInt64.sub_add_cancel]

theorem counts_zeroCopyLoop (sock : Socket) (signals : ℕ) (fd : Fd) (offset remaining : UInt64) :
    Counts (zeroCopyLoop sock signals fd offset remaining) fun ok n _ =>
      ok = true → n = remaining := by
  fun_induction zeroCopyLoop sock signals fd offset remaining with
  | case1 offset => exact counts_pure fun _ => rfl
  | case2 offset remaining h ih =>
    refine (steady_sendFromFd _ _ _ _ _).then fun pushed => ?_
    split
    · simp only
      split
      · exact (steady_setEc _).then fun _ => counts_pure fun h => absurd h Bool.false_ne_true
      · apply (counts_addProgress _).bind fun _ => ih pushed ‹_›
        rintro _ n m ok n' m' rfl hn' hok
        rw [hn' hok, add_sub_cancel_right]
    · exact counts_pure fun h => absurd h Bool.false_ne_true

theorem counts_preadLoop (fd : Fd) (offset remaining : UInt64) :
    Counts (preadLoop fd offset remaining) fun ok n _ => ok = true → n = remaining := by
  fun_induction preadLoop fd offset remaining with
  | case1 offset => exact counts_pure fun _ => rfl
  | case2 offset remaining h want ih =>
    refine (steady_perform _).then fun r => ?_
    split
    · exact (steady_setEc _).then fun _ => counts_pure fun h => absurd h Bool.false_ne_true
    · split
      · exact counts_pure fun h => absurd h Bool.false_ne_true
      · refine (steady_sendAll _).then fun ok => ?_
        split
        · exact counts_pure fun h => absurd h Bool.false_ne_true
        · apply (counts_addProgress _).bind fun _ => ih _ ‹_›
          rintro _ n m ok n' m' rfl hn' hok
          rw [hn' hok, add_sub_cancel_right]

theorem counts_sendRecord (sock : Socket) (signals : ℕ) (paths : List Bytes)
    (options : SenderOptions) (e : FileEntry) :
    Counts (sendRecord sock signals paths options e) fun ok n _ => ok = true → n = e.size := by
  refine (steady_writeFileHeader e).then fun ok => ?_
  split
  · exact counts_pure fun h => absurd h Bool.false_ne_true
  · refine (steady_openEntry paths e).then fun r => ?_
    split
    · apply Counts.bind (N := fun ok n _ => ok = true → n = e.size)
      · unfold sendFileBytes
        split
        · rename_i h0
          exact counts_pure fun _ => h0.symm
        · split
          · exact counts_zeroCopyLoop _ _ _ _ _
          · exact counts_preadLoop _ _ _
      · exact fun ok => (steady_perform _).then fun _ =>
          counts_pure (N := fun ok' n _ => ok' = ok ∧ n = 0) ⟨rfl, rfl⟩
      · rintro ok n m ok' n' m' hn ⟨rfl, rfl⟩ hok
        rw [hn hok, UInt64.add_zero]
    · exact counts_pure fun h => absurd h Bool.false_ne_true

theorem counts_sendRecords (sock : Socket) (signals : ℕ) (paths : List Bytes)
    (options : SenderOptions) (es : List FileEntry) :
    Counts (sendRecords sock signals paths options es) fun ok n _ =>
      ok = true → ∀ total, es.foldl (fun total e => total + e.size) total = total + n := by
  induction es with
  | nil => exact counts_pure fun _ total => (UInt64.add_zero total).symm
  | cons e es ih =>
    apply (counts_sendRecord sock signals paths options e).and_then ih
    rintro n m n' m' rfl hn' total
    rw [List.foldl_cons, hn', UInt64.add_assoc]

theorem gives_after {x : Session α} {f : α → Session β} {Q : β → Refs → Prop}
    (hf : ∀ a, Gives (f a) fun _ b s' => Q b s') : Gives (x >>= f) fun _ b s' => Q b s' :=
  gives_true.bind hf fun _ _ _ _ _ _ h => h

theorem counts_sendRest (sock : Socket) (signals : ℕ) (paths : List Bytes)
    (options : SenderOptions) (es : List FileEntry) :
    Counts (do if !(← sendRecords sock signals paths options es) then pure false else writeDone)
      fun ok n _ => ok = true →
        ∀ total, es.foldl (fun total e => total + e.size) total = total + n := by
  apply (counts_sendRecords sock signals paths options es).and_then (B := fun n _ => n = 0)
  · exact (steady_sendAll _).counts fun _ _ => rfl
  · rintro n m _ m' hn rfl total
    rw [hn, UInt64.add_zero]

theorem gives_sendManifest (sock : Socket) (signals : ℕ) (paths : List Bytes)
    (options : SenderOptions) (es : List FileEntry) :
    Gives (sendManifest sock signals paths options es) fun _ ok s' =>
      ok = true → s'.progress = (sessionHeader es).totalBytes := by
  refine gives_after fun ok => ?_
  split
  · exact gives_pure fun _ h => absurd h Bool.false_ne_true
  · refine gives_after fun r => ?_
    split
    · apply Gives.bind (Q := fun _ _ t => t.progress = 0) (gives_modify fun _ => rfl)
        fun _ => counts_sendRest sock signals paths options es
      rintro _ _ t ok s' ht ⟨n, m, hn, -, htotal⟩ hok
      rw [hn, ht, ← htotal hok]
      rfl
    · exact gives_pure fun _ h => absurd h Bool.false_ne_true

/-- Of the calls in the log, one is given all of a header that announces so many bytes. -/
def Heralded (log : List ((c : Call) × c.Result)) (total : UInt64) : Prop :=
  ∃ h r, ⟨.send (encodeSessionHeader h), r⟩ ∈ log ∧ total = h.totalBytes

theorem heralded_sendManifest {W : Type} {M : Machine Call.Result W} {s : Refs}
    {y : W × List ((c : Call) × c.Result)} (sock : Socket) (signals : ℕ) (paths : List Bytes)
    (options : SenderOptions) (es : List FileEntry) :
    wp (logged M) (fun _ _ => True) (sendManifest sock signals paths options es) s y
      fun ok s' y' => ok = true → Heralded y'.2 s'.progress := by
  have hlog : wp (logged M) (fun _ _ => True) (sendManifest sock signals paths options es) s y
      fun _ _ y' => ∃ r, ⟨.send (encodeSessionHeader (sessionHeader es)), r⟩ ∈ y'.2 := by
    have hne : encodeSessionHeader (sessionHeader es) ≠ [] := by
      rw [← List.length_pos_iff, length_encodeSessionHeader]
      decide
    unfold sendManifest writeSessionHeader sendAll send
    rw [dif_neg hne, bind_assoc, bind_assoc]
    exact wp_logged_issue
  have hgives := (gives_sendManifest sock signals paths options es).wp (M := logged M) (w := y)
    (s := s)
  exact (hlog.and hgives).mono (fun _ _ hg => hg) fun _ _ ⟨⟨r, hr⟩, h⟩ hok => ⟨_, r, hr, h hok⟩

/-- Nothing is written to the connection, or the bar reaches the total of the header. -/
def Reached (log : List ((c : Call) × c.Result)) (ok : Bool) (progress : UInt64) : Prop :=
  ok = true → (∀ e ∈ log, ¬ e.1.Writes) ∨ Heralded log progress

theorem reached_rest {W : Type} {M : Machine Call.Result W} {s : Refs}
    {y : W × List ((c : Call) × c.Result)} (sock : Socket) (signals : ℕ) (paths : List Bytes)
    (options : SenderOptions) (x : Session (Option (List FileEntry))) :
    wp (logged M) (fun _ _ => True) (do
      let some es ← x | pure false
      sendManifest sock signals paths options es) s y
        fun ok s' y' => Reached y'.2 ok s'.progress := by
  have hx : wp (logged M) (fun _ _ => True) x s y fun _ _ _ => True := ensures_true
  rw [wp_bind]
  apply wp_mono hx
  rintro (_ | es) s y -
  · exact fun h => absurd h Bool.false_ne_true
  · apply wp_mono (heralded_sendManifest sock signals paths options es)
    exact fun ok s y h hok => Or.inr (h hok)

end Sender

section Receiver

theorem counts_receivePayload (remaining : UInt64) (crc : Crc32) :
    Counts (receivePayload remaining crc) fun r n m => r ≠ none → n = remaining ∧ m = 0 := by
  fun_induction receivePayload remaining crc with
  | case1 => exact counts_pure fun _ => ⟨rfl, rfl⟩
  | case2 remaining crc h want ih =>
    refine (steady_recvAll _).then fun r => ?_
    split
    · refine (steady_perform _).then fun ok => ?_
      split
      · exact (steady_setEc _).then fun _ => counts_pure fun h => absurd rfl h
      · apply Counts.bind (N := fun _ n m => n = want ∧ m = 0)
        · exact gives_modify fun _ => ⟨want, 0, rfl, (UInt64.add_zero _).symm, rfl, rfl⟩
        · exact fun _ => ih _
        · rintro _ n m r n' m' ⟨rfl, rfl⟩ hn' hr
          obtain ⟨rfl, rfl⟩ := hn' hr
          exact ⟨add_sub_cancel_right _ _, rfl⟩
    · exact counts_pure fun h => absurd rfl h

theorem counts_receivePayloadToFile (target : Bytes) (size : UInt64) (expected : UInt32) :
    Counts (receivePayloadToFile target size expected) fun ok n m =>
      ok = true → n = size ∧ m = 0 := by
  refine (steady_createParent target).then fun _ => (steady_perform _).then fun ok => ?_
  split
  · exact (steady_setEc _).then fun _ => counts_pure fun h => absurd h Bool.false_ne_true
  · apply Counts.bind (N := fun ok n m => ok = true → n = size ∧ m = 0)
      (K := fun ok ok' n m => ok' = ok ∧ n = 0 ∧ m = 0)
    · apply (counts_receivePayload size {}).bind (K := fun r ok n m =>
        ok = true → r ≠ none ∧ n = 0 ∧ m = 0)
      · rintro (_ | crc)
        · exact counts_pure fun h => absurd h Bool.false_ne_true
        · simp only
          split
          · exact (steady_setEc _).then fun _ => counts_pure fun h => absurd h Bool.false_ne_true
          · exact counts_pure fun _ => ⟨Option.some_ne_none _, rfl, rfl⟩
      · rintro r n m ok n' m' hn hok' hok
        obtain ⟨hr, rfl, rfl⟩ := hok' hok
        rw [UInt64.add_zero, UInt64.add_zero]
        exact hn hr
    · exact fun ok => (steady_perform _).then fun _ => counts_pure ⟨rfl, rfl, rfl⟩
    · rintro ok n m ok' n' m' hn ⟨rfl, rfl, rfl⟩ hok
      rw [UInt64.add_zero, UInt64.add_zero]
      exact hn hok

/-- As much is added to the summary as to the bar. -/
theorem counts_receiveRecord (options : ReceiverOptions) (dir : Bytes) :
    Counts (receiveRecord options dir) fun ok n m => ok = true → m = n := by
  refine steady_readFileHeader.then fun r => ?_
  split
  · rename_i entry
    split
    · exact counts_pure fun _ => rfl
    · unfold storeRecord
      split
      · exact (steady_setEc _).then fun _ => counts_pure fun h => absurd h Bool.false_ne_true
      · apply (counts_receivePayloadToFile _ _ _).and_then (B := fun n m => n = 0 ∧ m = entry.size)
        · apply Counts.bind (N := fun _ n m => n = 0 ∧ m = entry.size)
          · exact gives_modify fun _ => ⟨0, entry.size, (UInt64.add_zero _).symm, rfl, rfl, rfl⟩
          · exact fun _ => counts_pure (N := fun _ n m => n = 0 ∧ m = 0) ⟨rfl, rfl⟩
          · rintro _ n m ok n' m' ⟨rfl, rfl⟩ ⟨rfl, rfl⟩ _
            exact ⟨rfl, UInt64.add_zero _⟩
        · rintro n m n' m' ⟨rfl, rfl⟩ ⟨rfl, rfl⟩
          rw [UInt64.zero_add, UInt64.add_zero]
  · exact counts_pure fun h => absurd h Bool.false_ne_true

theorem counts_receiveRecords (options : ReceiverOptions) (dir : Bytes) (n : ℕ) :
    Counts (receiveRecords options dir n) fun ok n m => ok = true → m = n := by
  induction n with
  | zero => exact counts_pure fun _ => rfl
  | succ n ih =>
    apply (counts_receiveRecord options dir).and_then ih
    rintro n m n' m' rfl rfl
    rfl

theorem gives_openSession (options : ReceiverOptions) :
    Gives (openSession options) fun s r s' => r ≠ none →
      s'.progress = 0 ∧ s'.summary.totalBytes = s.summary.totalBytes := by
  apply Gives.bind steady_handshake (P := fun _ s r s' => r ≠ none →
    s'.progress = 0 ∧ s'.summary.totalBytes = s.summary.totalBytes)
  · rintro (_ | header)
    · exact gives_pure fun _ h => absurd rfl h
    · apply Gives.bind (steady_openOutput options) (P := fun _ s r s' => r ≠ none →
        s'.progress = 0 ∧ s'.summary.totalBytes = s.summary.totalBytes)
      · rintro (_ | dir)
        · exact gives_pure fun _ h => absurd rfl h
        · exact fun s _ => ⟨rfl, rfl⟩
      · rintro s _ t r s' ⟨-, ht⟩ h hr
        exact ⟨(h hr).1, (h hr).2.trans ht⟩
  · rintro s _ t r s' ⟨-, ht⟩ h hr
    exact ⟨(h hr).1, (h hr).2.trans ht⟩

theorem gives_receiveStream (options : ReceiverOptions) :
    Gives (receiveStream options) fun s ok s' =>
      ok = true → s'.summary.totalBytes = s.summary.totalBytes + s'.progress := by
  apply (gives_openSession options).bind (P := fun r s ok s' => ok = true → r ≠ none ∧
    ∃ n, s'.progress = s.progress + n ∧ s'.summary.totalBytes = s.summary.totalBytes + n)
  · rintro (_ | ⟨header, dir⟩)
    · exact gives_pure fun _ h => absurd h Bool.false_ne_true
    · have hrest := (counts_receiveRecords options dir header.totalFiles.toNat).and_then
        (B := fun n m => n = 0 ∧ m = 0) (D := fun n m => m = n)
        (steady_finishSession.then fun _ => counts_pure (a := true) fun _ => ⟨rfl, rfl⟩) (by
          rintro n m _ _ rfl ⟨rfl, rfl⟩
          rfl)
      apply Gives.mono hrest
      rintro s ok s' ⟨n, m, hn, hm, hnm⟩ hok
      exact ⟨Option.some_ne_none _, n, hn, (hnm hok) ▸ hm⟩
  · intro s r t ok s' ho h hok
    obtain ⟨hr, n, hn, hm⟩ := h hok
    obtain ⟨h0, ht⟩ := ho hr
    rw [hm, hn, ht, h0, UInt64.zero_add]

end Receiver

/-- Whatever its calls come back with, a sender that succeeds has written nothing to the connection,
or its bar has reached the total of the header that it has written; and a receiver that succeeds
has added to its summary what its bar shows. -/
theorem bar_reaches_total {W : Type} (M : Machine Call.Result W) (s : Refs) (w : W) :
    (∀ std sock signals paths options,
      wp (logged M) (fun _ _ => True) (sendPaths std sock signals paths options) s (w, [])
        fun ok s' y => Reached y.2 ok s'.progress) ∧
    (∀ sock signals paths manifest options,
      wp (logged M) (fun _ _ => True) (sendFiles sock signals paths manifest options) s (w, [])
        fun ok s' y => Reached y.2 ok s'.progress) ∧
    (∀ options, wp M (fun _ _ => True) (receiveStream options) s w fun ok s' _ =>
      ok = true → s'.summary.totalBytes = s.summary.totalBytes + s'.progress) := by
  constructor
  · intro std sock signals paths options
    unfold sendPaths
    rw [wp_bind]
    have hlooks := (only_collectFiles std options paths).logged (M := M) (t := s) (y := (w, []))
      (by simp)
    apply wp_mono hlooks
    intro manifest s y hy
    split
    · exact fun _ => Or.inl fun e he => (hy e he).isLocal.2
    · exact reached_rest sock signals paths options _
  · constructor
    · intro sock signals paths manifest options
      unfold sendFiles
      split
      · exact fun _ => Or.inl (by simp)
      · exact reached_rest sock signals paths options _
    · intro options
      exact (gives_receiveStream options).wp

end Xfer.Transfer
