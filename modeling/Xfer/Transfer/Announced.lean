import Xfer.Transfer.Emission
import Xfer.Transfer.Handing

/-! # The session that is announced

Sizes are fixed when the manifest is built, and files are read later. Whatever
they hold by then, the sender hands over the session that the manifest
announces, or a part of it.
-/

namespace Xfer.Transfer

open Net Common Posix Process Code

variable {f : Faults} {short : Prop} {M : Machine Call.Result Book} {s : Refs} {w : Book}
  {e : FileEntry} {es : List FileEntry} {sock : Socket} {signals : ℕ} {paths : List Bytes}
  {options : SenderOptions}

/-- What comes after the session header: a header, a path and a payload for each entry, and the
end; but nothing from an entry on whose path is too long. -/
inductive Bodies : List FileEntry → Bytes → Prop
  | nil : Bodies [] encodeDone
  | cons {e : FileEntry} {es : List FileEntry} {payload bs : Bytes} : e.relPath.length ≤ 0xFFFF →
      payload.length = e.size.toNat → Bodies es bs →
      Bodies (e :: es) (encodeFileHeader e ++ payload ++ bs)
  | stop {e : FileEntry} {es : List FileEntry} : 0xFFFF < e.relPath.length → Bodies (e :: es) []

/-- The paths of all entries fit. -/
def Fits (es : List FileEntry) : Prop := ∀ e ∈ es, e.relPath.length ≤ 0xFFFF

/-- The header announces the entries. -/
structure Announces (h : SessionHeader) (es : List FileEntry) : Prop where
  files : h.totalFiles.toNat = es.length % 2 ^ 64
  bytes : h.totalBytes.toNat = (es.map fun e => e.size.toNat).sum % 2 ^ 64

/-- A whole session for the entries. -/
def WholeSession (es : List FileEntry) (bs : Bytes) : Prop :=
  ∃ h body, Announces h es ∧ Bodies es body ∧ bs = encodeSessionHeader h ++ body

theorem exists_bodies (es : List FileEntry) : ∃ bs, Bodies es bs := by
  induction es with
  | nil => exact ⟨_, .nil⟩
  | cons e es ih =>
    obtain ⟨bs, h⟩ := ih
    by_cases hl : e.relPath.length ≤ 0xFFFF
    · have hp : (List.replicate e.size.toNat (0 : UInt8)).length = e.size.toNat :=
        List.length_replicate
      exact ⟨_, .cons hl hp h⟩
    · exact ⟨_, .stop (Nat.lt_of_not_le hl)⟩

theorem toNat_foldl_add (es : List FileEntry) (total : UInt64) :
    (es.foldl (fun total e => total + e.size) total).toNat =
      (total.toNat + (es.map fun e => e.size.toNat).sum) % 2 ^ 64 := by
  induction es generalizing total with
  | nil => simp
  | cons e es ih =>
    rw [List.foldl_cons, ih, UInt64.toNat_add, List.map_cons, List.sum_cons, Nat.mod_add_mod,
      Nat.add_assoc]

theorem announces_sessionHeader (es : List FileEntry) : Announces (sessionHeader es) es where
  files := UInt64.toNat_ofNat'
  bytes := by
    rw [sessionHeader, toNat_foldl_add]
    simp

/-- A part of a session for the manifest. -/
def Begun (manifest : List FileEntry) (bs : Bytes) : Prop :=
  ∃ es, Filled manifest es ∧ WholeSession es bs

/-- A session for the manifest, whose paths all fit. -/
def Completed (manifest : List FileEntry) (bs : Bytes) : Prop :=
  ∃ es, Filled manifest es ∧ Fits es ∧ WholeSession es bs

theorem filled_refl (es : List FileEntry) : Filled es es := List.forall₂_same.mpr fun _ _ => ⟨rfl, rfl⟩

section Records

variable (hM : Steps f short M)
include hM

/-- A record whose path fits. -/
def OneRecord (e : FileEntry) (bs : Bytes) : Prop :=
  ∃ payload : Bytes, payload.length = e.size.toNat ∧ bs = encodeFileHeader e ++ payload

theorem handing_sendRecord (hl : e.relPath.length ≤ 0xFFFF) :
    Ends M (sendRecord sock signals paths options e) s w
      (Handing f short (OneRecord e) (OneRecord e) s w) := by
  unfold sendRecord
  have hcut : ∀ cs, cs = encodeFileHeader e → ∃ ds, OneRecord e (cs ++ ds) := by
    rintro _ rfl
    exact ⟨List.replicate e.size.toNat 0, _, List.length_replicate, rfl⟩
  refine Handing.andThen (handing_writeFileHeader hM.observed hl) ?_ hcut
  rintro _ t w₁ rfl hec hw
  rw [wp_bind]
  have honly := local_of_looks (oblivious_openEntry paths e).only
  refine wp_mono (Only.sent hM.observed (noWrite_of_local honly) (reports_openEntry paths e)) ?_
  rintro r u w₂ ⟨hr, h₂⟩
  cases r with
  | none =>
    obtain ⟨ds, hds⟩ := hcut _ rfl
    exact .failed _ ds hds (Or.inr (Or.inl (hr.2 rfl))) (h₂.trans hw)
  | some k =>
    have hu : u.ec = s.ec := (hr.1 (by simp)).trans hec
    have hne : w₂.sent ≠ [] := by
      intro h
      have := congrArg List.length ((h₂.trans hw).symm.trans h)
      rw [List.length_append, length_encodeFileHeader, List.length_nil] at this
      omega
    simp only [wp_bind]
    refine wp_mono (handing_sendFileBytes hM sock signals options.zeroCopy hne) ?_
    intro ok v w₃ h
    rw [wp_perform]
    refine ⟨trivial, fun _ w₄ hm => ?_⟩
    have hpay : ∀ cs, OfLength e.size.toNat cs → OneRecord e (encodeFileHeader e ++ cs) :=
      fun cs hcs => ⟨cs, hcs, rfl⟩
    exact (h.after hu (h₂.trans hw) hpay hpay).level (sent_of_not_writes hM.observed hm id)

theorem handing_records (es : List FileEntry) :
    Ends M (do if !(← sendRecords sock signals paths options es) then pure false else writeDone) s w
      (Handing f short (fun bs => Fits es ∧ Bodies es bs) (Bodies es) s w) := by
  induction es generalizing s w with
  | nil =>
    refine wp_mono (handing_sendAll hM.observed (by simp)) fun _ _ _ h => h.mono ?_ ?_
    · rintro _ rfl
      exact ⟨fun _ h => (List.not_mem_nil h).elim, .nil⟩
    · rintro _ rfl
      exact .nil
  | cons e es ih =>
    have hrun : (do if !(← sendRecords sock signals paths options (e :: es)) then pure false else
        writeDone) = (do
          if !(← sendRecord sock signals paths options e) then pure false
          else do if !(← sendRecords sock signals paths options es) then pure false else writeDone) := by
      rw [sendRecords, bind_assoc]
      refine congrArg _ (funext fun ok => ?_)
      cases ok <;> rfl
    rw [hrun]
    by_cases hl : e.relPath.length ≤ 0xFFFF
    · have hcut : ∀ cs, OneRecord e cs → ∃ ds, Bodies (e :: es) (cs ++ ds) := by
        rintro _ ⟨payload, hp, rfl⟩
        obtain ⟨bs, hbs⟩ := exists_bodies es
        exact ⟨bs, .cons hl hp hbs⟩
      refine Handing.andThen (handing_sendRecord hM hl) ?_ hcut
      rintro _ t w₁ ⟨payload, hp, rfl⟩ hec hw
      refine wp_mono ih fun _ _ _ h => h.after hec hw ?_ ?_
      · rintro bs ⟨hfits, hbs⟩
        exact ⟨List.forall_mem_cons.mpr ⟨hl, hfits⟩, .cons hl hp hbs⟩
      · exact fun bs hbs => .cons hl hp hbs
    · have hlong := Nat.lt_of_not_le hl
      have hcut : ∀ cs, cs = [] → ∃ ds, Bodies (e :: es) (cs ++ ds) := by
        rintro _ rfl
        exact ⟨[], .stop hlong⟩
      have hno : Ends M (sendRecord sock signals paths options e) s w
          (Handing f short (fun _ => False) (· = []) s w) := by
        unfold sendRecord writeFileHeader
        rw [if_pos hlong]
        exact .failed [] [] rfl (Or.inr (Or.inl (by simp))) (List.append_nil _).symm
      exact Handing.andThen hno (fun _ _ _ h => h.elim) hcut

theorem handing_sendManifest (es : List FileEntry) :
    Ends M (sendManifest sock signals paths options es) s w
      (Handing f short (fun bs => Fits es ∧ WholeSession es bs) (WholeSession es) s w) := by
  unfold sendManifest
  have hcut : ∀ cs, cs = encodeSessionHeader (sessionHeader es) →
      ∃ ds, WholeSession es (cs ++ ds) := by
    rintro _ rfl
    obtain ⟨body, hb⟩ := exists_bodies es
    exact ⟨body, _, body, announces_sessionHeader es, hb, rfl⟩
  refine Handing.andThen (handing_sendAll hM.observed (by simp)) ?_ hcut
  rintro _ t w₁ rfl hec hw
  rw [wp_bind]
  refine wp_mono (Only.sent hM.observed (oblivious_readAck fun _ => id).only (reports_readAck hM.observed)) ?_
  rintro r u w₂ ⟨hr, h₂⟩
  cases r with
  | none =>
    obtain ⟨ds, hds⟩ := hcut _ rfl
    exact .failed _ ds hds (Or.inr (Or.inl (hr.2 rfl))) (h₂.trans hw)
  | some v =>
    rw [startProgress, wp_bind, wp_modify]
    have hu : u.ec = s.ec := (hr.1 (by simp)).trans hec
    refine wp_mono (handing_records hM es) fun _ _ _ h => h.after hu (h₂.trans hw) ?_ ?_
    · rintro bs ⟨hfits, hbs⟩
      exact ⟨hfits, _, bs, announces_sessionHeader es, hbs, rfl⟩
    · exact fun bs hbs => ⟨_, bs, announces_sessionHeader es, hbs, rfl⟩

/-- A pass over the manifest that leaves the connection alone, and then the session proper. -/
theorem handing_afterPass {x : Session (Option (List FileEntry))} {manifest : List FileEntry}
    (hx : Only Local x) (h : Ends M x s w (Passes manifest s)) :
    Ends M (do
      let some es ← x | pure false
      sendManifest sock signals paths options es) s w
      (Handing f short (Completed manifest) (Begun manifest) s w) := by
  rw [Ends, wp_bind]
  refine wp_mono (Only.sent hM.observed (noWrite_of_local hx) h) ?_
  rintro r t w₁ ⟨⟨hr, hes⟩, hw⟩
  cases r with
  | none =>
    obtain ⟨body, hb⟩ := exists_bodies manifest
    have hbegun : Begun manifest (encodeSessionHeader (sessionHeader manifest) ++ body) :=
      ⟨manifest, filled_refl manifest, _, body, announces_sessionHeader manifest, hb, rfl⟩
    exact .failed [] _ hbegun (Or.inr (Or.inl (hr.2 rfl))) (by rw [hw, List.append_nil])
  | some es =>
    have hfilled := hes es rfl
    refine wp_mono (handing_sendManifest hM es) fun _ _ _ h => (h.congr (hr.1 (by simp)) hw).mono ?_ ?_
    · rintro bs ⟨hfits, hbs⟩
      exact ⟨es, hfilled, hfits, hbs⟩
    · exact fun bs hbs => ⟨es, hfilled, hbs⟩

theorem handing_sendScanned {manifest : List FileEntry} (hne : manifest ≠ []) :
    Ends M (sendScanned sock signals paths options manifest) s w
      (Handing f short (Completed manifest) (Begun manifest) s w) := by
  unfold sendScanned
  rw [if_neg hne]
  exact handing_afterPass hM (local_of_looks (only_computeCrcs paths manifest))
    (passes_computeCrcs paths manifest)

theorem handing_sendFiles {manifest : List FileEntry} (hne : manifest ≠ []) :
    Ends M (sendFiles sock signals paths manifest options) s w
      (Handing f short (Completed manifest) (Begun manifest) s w) := by
  unfold sendFiles
  rw [if_neg hne]
  exact handing_afterPass hM (local_of_looks (only_fillCrcs paths manifest)) (passes_fillCrcs paths manifest)

end Records

/-- What has been sent is a part of a session for the manifest. -/
def Announced (manifest : List FileEntry) (sent : Bytes) : Prop :=
  ∃ bs, Begun manifest bs ∧ sent <+: bs

/-- From here on, a part of a session for the manifest has been sent at every moment, and on success
a whole one; the files may change all the time, and the peer is any peer. -/
def KeepsTo (f : Faults) (w : Book) (s : Refs) (manifest : List FileEntry) (x : Session Bool) :
    Prop :=
  Throughout (watched (volatile f)) (fun w => Announced manifest w.sent) (x.run s) w
    fun r w' => r.1 = true → manifest ≠ [] → Completed manifest w'.sent

theorem announced_nil (manifest : List FileEntry) : Announced manifest [] := by
  obtain ⟨body, hb⟩ := exists_bodies manifest
  exact ⟨_, ⟨manifest, filled_refl manifest, _, body, announces_sessionHeader manifest, hb, rfl⟩,
    List.nil_prefix⟩

theorem Completed.begun {manifest : List FileEntry} {bs : Bytes} (h : Completed manifest bs) :
    Begun manifest bs := by
  obtain ⟨es, hes, -, hbs⟩ := h
  exact ⟨es, hes, hbs⟩

theorem Handing.announced {manifest : List FileEntry} {s' : Refs} {w' : Book} {ok : Bool}
    (h : Handing f short (Completed manifest) (Begun manifest) s w ok s' w') (hw : w.sent = []) :
    Announced manifest w'.sent ∧ (ok = true → manifest ≠ [] → Completed manifest w'.sent) := by
  cases h with
  | done bs hd he hs =>
    rw [hs, hw, List.nil_append]
    exact ⟨⟨bs, hd.begun, List.prefix_rfl⟩, fun _ _ => hd⟩
  | failed bs rest hf he hs =>
    rw [hs, hw, List.nil_append]
    exact ⟨⟨bs ++ rest, hf, List.prefix_append _ _⟩, fun h => by cases h⟩

theorem KeepsTo.of_ends {manifest : List FileEntry} {x : Session Bool}
    (h : Ends (watched (volatile f)) x s w fun ok _ w' => Announced manifest w'.sent ∧
      (ok = true → manifest ≠ [] → Completed manifest w'.sent)) :
    KeepsTo f w s manifest x := by
  refine (volatile_live f).throughout ?_ h
  rintro w w' hpre ⟨bs, hbs, hw⟩
  exact ⟨bs, hbs, hpre.trans hw⟩

theorem steps_watched (f : Faults) : Steps f True (watched (volatile f)) :=
  ⟨observed_watched f, fun _ _ _ => trivial⟩

theorem ends_sendScanned (manifest : List FileEntry) (hw : w.sent = []) :
    Ends (watched (volatile f)) (sendScanned sock signals paths options manifest) s w
      fun ok _ w' => Announced manifest w'.sent ∧
        (ok = true → manifest ≠ [] → Completed manifest w'.sent) := by
  by_cases hne : manifest = []
  · unfold sendScanned
    rw [if_pos hne]
    refine ⟨?_, fun _ h => absurd hne h⟩
    rw [hw]
    exact announced_nil manifest
  · exact wp_mono (handing_sendScanned (steps_watched f) hne) fun _ _ _ h => h.announced hw

theorem throughout_collectFiles (std : StdSort) {Q : List FileEntry × Refs → Book → Prop}
    (hw : w.sent = []) (hQ : ∀ manifest s' w', w'.sent = [] → Q (manifest, s') w') :
    Throughout (watched (volatile f)) (fun w => w.sent = [])
      ((collectFiles std options paths).run s) w Q := by
  have h : Ends (watched (volatile f)) (collectFiles std options paths) s w fun _ _ _ => True :=
    Program.ensures_true
  have hlocal := local_of_looks (only_collectFiles std options paths)
  refine (hlocal.keep (I := fun w => w.sent = []) h hw ?_ fun hi _ => hi).mono
    (fun _ _ hg => hg) fun r w' hr => ⟨hr.2, hQ r.1 r.2 w' hr.2⟩
  intro w c r w' hi hc hm
  exact (sent_of_not_writes (observed_watched f) hm hc.2).trans hi

/-- The sender never sends anything but a part of the session that its manifest announces, and it
succeeds only with the whole of it: `SendFiles`, `SendPaths` after its scan, whatever that has
found, and `SendPaths` as a whole, whose scan sends nothing and, if nothing changes or fails during
it, finds what the sources stand for. -/
theorem sent_session_wellFormed (f : Faults) (std : StdSort) (sock : Socket) (signals : ℕ)
    (paths : List Bytes) (options : SenderOptions) (s : Refs) (host : Host) :
    (∀ manifest, KeepsTo f ⟨host, [], []⟩ s manifest (sendFiles sock signals paths manifest options)) ∧
    (∀ manifest,
      KeepsTo f ⟨host, [], []⟩ s manifest (sendScanned sock signals paths options manifest)) ∧
    Throughout (watched (volatile f)) (fun w => w.sent = [])
      ((collectFiles std options paths).run s) ⟨host, [], []⟩ (fun r w' =>
        KeepsTo f w' r.2 r.1 (sendScanned sock signals paths options r.1)) ∧
    (¬ f.scan → Ends (watched (kernel f)) (collectFiles std options paths) s ⟨host, [], []⟩
      fun manifest _ _ => manifest = manifestOf (selected std host.fs options paths)) ∧
    Throughout (watched (volatile f)) (fun w => ∃ manifest, Announced manifest w.sent)
      ((sendPaths std sock signals paths options).run s) ⟨host, [], []⟩ fun r w' => r.1 = true →
        w'.sent = [] ∨ ∃ manifest, manifest ≠ [] ∧ Completed manifest w'.sent := by
  have hscanned : ∀ manifest s w, w.sent = [] →
      KeepsTo f w s manifest (sendScanned sock signals paths options manifest) := fun manifest _ _ hw =>
    .of_ends (ends_sendScanned manifest hw)
  refine ⟨fun manifest => .of_ends ?_, fun manifest => hscanned manifest s _ rfl,
    throughout_collectFiles std rfl fun manifest s' w' hw => hscanned manifest s' w' hw,
    fun hf => ?_, ?_⟩
  · by_cases hne : manifest = []
    · unfold sendFiles
      rw [if_pos hne]
      exact ⟨announced_nil manifest, fun _ h => absurd hne h⟩
    · exact wp_mono (handing_sendFiles (steps_watched f) hne) fun _ _ _ h => h.announced rfl
  · refine wp_mono (wp_collectFiles ?_ std options paths) fun _ _ _ h => (h.2.1 hf).1
    rintro c r w' hc ⟨a, hk, ha⟩
    obtain ⟨rfl, hw, hr⟩ := answered_of_scans hc hk
    obtain ⟨host', received', sent'⟩ := w'
    obtain rfl : host' = host := hw
    obtain ⟨rfl, rfl⟩ := ha
    exact ⟨rfl, hr⟩
  · rw [sendPaths_eq, StateT.run_bind]
    refine Program.ensures_bind.mpr ((throughout_collectFiles std rfl
      (Q := fun r w' => KeepsTo f w' r.2 r.1 (sendScanned sock signals paths options r.1))
      fun manifest s' w' hw => hscanned manifest s' w' hw).mono ?_ ?_)
    · rintro w _ hw
      exact ⟨[], hw ▸ announced_nil []⟩
    · rintro ⟨manifest, s'⟩ w' ⟨hw, hk⟩
      by_cases hne : manifest = []
      · subst hne
        unfold sendScanned
        rw [if_pos rfl]
        exact ⟨⟨[], hw ▸ announced_nil []⟩, fun _ => Or.inl hw⟩
      · refine hk.mono (fun w _ h => ⟨manifest, h⟩) fun r w' h => ⟨⟨manifest, h.1⟩, fun hok => ?_⟩
        exact Or.inr ⟨manifest, hne, h.2 hok hne⟩

end Xfer.Transfer
