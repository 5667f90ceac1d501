import Xfer.Transfer.Stale

/-! # Checksums given and computed

The call on paths and the call on a manifest differ in where checksums come from.
Where each checksum that the manifest gives is that of what would be read for its
entry, the two passes before the session have the same result, and the session
proper is the same.
-/

namespace Xfer.Transfer

open Net Common Posix Process Code

variable {f : Faults} {fs : FileSystem} {s : Refs} {std : StdSort} {sock : Socket} {signals : ℕ}
  {paths : List Bytes} {options : SenderOptions} {items : List Collected} {e e' : FileEntry}
  {es es' : List FileEntry} {X : Setting f} {v : X.State}

/-- Files and sockets do not change because something is looked at. -/
def Still (X : Setting f) : Prop := ∀ v c, Looks c → (X.answer v c).2 = v

/-- The entry as it was collected, or with the checksum of what is read for it. -/
def Prefilled (fs : FileSystem) (paths : List Bytes) (e e' : FileEntry) : Prop :=
  e' = e ∨ summed fs paths e e'

section Pass

variable (hX : Still X) (hf : ¬ f.read) (hs : Addressable (X.side v).host.fs) (h0 : s.ec = none)
include hX hf hs h0

theorem run_sumEntry (paths : List Bytes) (e : FileEntry) : (X.run (sumEntry paths e) s v).2 = v ∧
    ((∃ e', X.run (sumEntry paths e) s v = ((some e', s), v) ∧
        summed (X.side v).host.fs paths e e') ∨
      (X.run (sumEntry paths e) s v).1.1 = none ∧ readBack (X.side v).host.fs paths e = none) := by
  have hv : (X.run (sumEntry paths e) s v).2 = v := X.run_of_only (only_sumEntry paths e) hX
  refine ⟨hv, ?_⟩
  obtain ⟨-, ⟨e', hr, he, hs'⟩ | ⟨hr, -, hno⟩⟩ := X.run_of_always (always_sumEntry hs h0 e)
  · exact Or.inl ⟨e', Prod.ext (Prod.ext hr hs') hv, he⟩
  · exact Or.inr ⟨hr, hno.resolve_left hf⟩

/-- A checksum that is given makes no difference. -/
theorem run_fillEntry (hc : e.crc32 = 0) (he : Prefilled (X.side v).host.fs paths e e') :
    X.run (fillEntry paths e') s v = X.run (sumEntry paths e) s v := by
  unfold fillEntry
  split
  · rename_i h0'
    have hee : e' = e := by
      rcases he with rfl | ⟨p, -, rfl⟩
      · rfl
      · obtain ⟨path, size, crc⟩ := e
        simp only at hc h0'
        rw [h0', hc]
    rw [hee]
  · rename_i hne
    obtain ⟨p, hp, rfl⟩ : summed (X.side v).host.fs paths e e' := by
      refine he.resolve_left ?_
      rintro rfl
      exact hne hc
    obtain ⟨-, ⟨e'', hrun, p', hp', rfl⟩ | ⟨-, hno⟩⟩ := run_sumEntry hX hf hs h0 paths e
    · obtain rfl := Option.some.inj (hp.symm.trans hp')
      exact hrun.symm
    · rw [hp] at hno
      cases hno

theorem run_fillCrcs (hc : ∀ e ∈ es, e.crc32 = 0)
    (he : List.Forall₂ (Prefilled (X.side v).host.fs paths) es es') :
    X.run (fillCrcs paths es') s v = X.run (computeCrcs paths es) s v := by
  induction he with
  | nil => rfl
  | cons he _ ih =>
    obtain ⟨hce, hces⟩ := List.forall_mem_cons.mp hc
    rw [(pass_fillCrcs paths).cons, (pass_computeCrcs paths).cons, X.run_bind, X.run_bind,
      run_fillEntry hX hf hs h0 hce he]
    obtain ⟨hv, ⟨e', hrun, -⟩ | ⟨hr, -⟩⟩ := run_sumEntry hX hf hs h0 paths _
    · rw [hrun]
      simp only [X.run_bind, ih hces]
    · rw [hr]

end Pass

/-- On a file system that can be read and does not change, the call on the manifest that a scan finds
without an error, with any of its checksums filled in by what would be read, is the call on the
source paths: the verdict, the error code and everything that has been written and read are the
same. -/
theorem sendFiles_eq_sendPaths (hf : ¬ f.read) (X : Setting f) (hX : Still X) (v : X.State)
    (hs : Addressable (X.side v).host.fs) (s : Refs) (h0 : s.ec = none) (std : StdSort)
    (sock : Socket) (signals : ℕ) (paths : List Bytes) (options : SenderOptions)
    (found : List FileEntry) (hcol : (X.run (collectFiles std options paths) s v).1 = (found, s))
    (manifest : List FileEntry)
    (hm : List.Forall₂ (Prefilled (X.side v).host.fs paths) found manifest) :
    X.run (sendFiles sock signals paths manifest options) s v =
      X.run (sendPaths std sock signals paths options) s v := by
  have hrun : X.run (collectFiles std options paths) s v = ((found, s), v) :=
    Prod.ext hcol (X.run_of_only (only_collectFiles std options paths) hX)
  have hcrc : ∀ e ∈ found, e.crc32 = 0 := by
    obtain ⟨-, -, hes⟩ := X.run_of_always (s := s) (v := v)
      (x := collectFiles std options paths) always_scan
    rw [hrun] at hes
    exact fun e he => (hes e he).1
  have hnil : manifest = [] ↔ found = [] := by
    rw [← List.length_eq_zero_iff, ← List.length_eq_zero_iff, hm.length_eq]
  unfold sendFiles sendPaths
  rw [X.run_bind, hrun]
  simp only [hnil]
  split
  · rfl
  · rw [X.run_bind, X.run_bind, run_fillCrcs hX hf hs h0 hcrc hm]

theorem run_collectFiles (hf : ¬ f.scan)
    (hsel : selected std (X.side v).host.fs options paths = some items) :
    (X.run (collectFiles std options paths) s v).1 = (items.map Collected.entry, s) := by
  obtain ⟨hr, ht, -⟩ := X.run_of_always (s := s) (always_collectFiles_of_selected hf hsel)
  exact Prod.ext hr ht

theorem still_resolved (f : Faults) : Still (Setting.resolved f) := fun v c hc =>
  eq_of_looks ((Setting.resolved f).lawful v c) hc

/-- With the checksum of one of the two files given. -/
theorem nested_prefilled :
    (Setting.resolved .none).run (sendFiles ⟨0⟩ 0 [rootName] [⟨[0x61], 1, 0⟩,
        ⟨[0x64, 0x2F, 0x62], 2, Crc32.compute [0x32, 0x33]⟩] { recursive := true }) {}
        (acknowledged nested) =
      (Setting.resolved .none).run
        (sendPaths insertionSort ⟨0⟩ 0 [rootName] { recursive := true }) {} (acknowledged nested) := by
  refine sendFiles_eq_sendPaths id (Setting.resolved .none) (still_resolved .none)
    (acknowledged nested) addressable_nested {} rfl insertionSort ⟨0⟩ 0 _ _ _
    (run_collectFiles id selected_nested) _ ?_
  exact .cons (Or.inl rfl) (.cons (Or.inr ⟨[0x32, 0x33], by decide, rfl⟩) .nil)

/-- The entry with the checksum of the whole file that is taken for it. -/
def WholeSummed (fs : FileSystem) (paths : List Bytes) (e e' : FileEntry) : Prop :=
  ∃ p b, resolve fs paths e = some p ∧ fs.status p = some (.file b) ∧
    e' = { e with crc32 := Crc32.compute b }

/-- An empty file `/a/b/x` below a file `/a/x` with a byte in it. -/
def shadowed : FileSystem :=
  (((FileSystem.empty.place [[0x61]] .dir).place [[0x61], [0x78]] (.file [0x31])).place
    [[0x61], [0x62]] .dir).place [[0x61], [0x62], [0x78]] (.file [])

theorem addressable_shadowed : Addressable shadowed := by
  unfold shadowed
  refine Addressable.place (Addressable.placeDir (Addressable.place
    (Addressable.placeDir addressable_empty) ?_)) ?_
  · decide
  · decide

theorem readBack_crc (c : UInt32) :
    readBack fs paths { e with crc32 := c } = readBack fs paths e := rfl

theorem readBack_shadowed (c : UInt32) :
    readBack shadowed [[0x2F, 0x61]] ⟨[0x78], 0, c⟩ = some [] := by
  have h : readBack shadowed [[0x2F, 0x61]] { relPath := [0x78] } = some [] := by decide
  exact (readBack_crc c).trans h

theorem selected_shadowed : selected insertionSort shadowed
    { recursive := true, stripPrefix := [0x2F, 0x6E] } [[0x2F, 0x61]] =
      some [⟨[0x2F, 0x61, 0x2F, 0x62, 0x2F, 0x78], { relPath := [0x78] }⟩] := by decide

theorem sendManifest_empty (hread : readBack fs paths e = some []) (hs : Addressable fs)
    (hz : e.size = 0) (hfit : e.relPath.length ≤ 0xFFFF) :
    Always .none (sendManifest ⟨0⟩ 0 paths options [e]) s (acknowledged fs) fun _ _ w' =>
      w'.outgoing = encodeSessionHeader (sessionHeader [e]) ++ (encodeFileHeader e ++ encodeDone) := by
  have hman : Always .none (sendManifest ⟨0⟩ 0 paths options [e]) s (acknowledged fs)
      fun ok _ w' => ManifestOutcome .none ⟨0⟩ fs paths [e] (acknowledged fs) ok w' :=
    wp_sendManifest hs (fun _ _ _ _ => trivial) (fun _ _ _ _ => trivial) fun _ _ _ _ => trivial
  apply wp_mono hman
  intro ok t w' ho
  cases ho with
  | sent rs buf rest v hrs =>
    obtain ⟨r, _, hr, hnil, rfl⟩ := List.forall₂_cons_left_iff.mp hrs
    obtain rfl := List.forall₂_nil_left_iff.mp hnil
    have hp : r.payload = [] := Option.some.inj (hr.payload.symm.trans hread)
    simp [hr.encode, hp, acknowledged]
  | failed w' _ hf =>
    rcases hf with (h | h | h | h) | ha | ⟨e', he, hno⟩
    · exact h.elim
    · exact h.elim
    · exact h.elim
    · cases h
    · exact absurd ⟨encodeAck 0, [], 0, length_encodeAck 0, (List.append_nil _).symm,
        ackOf_encode 0⟩ ha
    · obtain rfl := List.mem_singleton.mp he
      obtain ⟨r, hr, -⟩ := exists_sends hread (by rw [hz]; rfl) hfit
      exact absurd hr (hno r)

/-- The entry `x` of no bytes, with a checksum. -/
def emptyEntry (c : UInt32) : FileEntry := ⟨[0x78], 0, c⟩

/-- All that is sent for it. -/
def emptyWire (c : UInt32) : Bytes :=
  encodeSessionHeader (sessionHeader [emptyEntry c]) ++ (encodeFileHeader (emptyEntry c) ++ encodeDone)

theorem emptyWire_inj {c c' : UInt32} (h : emptyWire c = emptyWire c') : c = c' := by
  have hheader : sessionHeader [emptyEntry c] = sessionHeader [emptyEntry c'] := rfl
  unfold emptyWire at h
  rw [hheader] at h
  have hfit : ∀ c, (emptyEntry c).relPath.length ≤ 0xFFFF := fun _ => (by decide : 1 ≤ 0xFFFF)
  have he := (encodeFileHeader_inj (hfit c) (hfit c') (List.append_cancel_left h)).1
  exact congrArg FileEntry.crc32 he

theorem sendFiles_shadowed {c : UInt32} (hc : c ≠ 0) :
    ((Setting.resolved .none).run (sendFiles ⟨0⟩ 0 [[0x2F, 0x61]] [emptyEntry c] options) s
      (acknowledged shadowed)).2.outgoing = emptyWire c := by
  have hgiven : ∀ e ∈ [emptyEntry c], e.crc32 ≠ 0 := fun e he =>
    (List.mem_singleton.mp he).symm ▸ hc
  unfold sendFiles
  rw [if_neg (List.cons_ne_nil _ _), fillCrcs_eq hgiven]
  exact Setting.resolved_of_always (sendManifest_empty (readBack_shadowed c) addressable_shadowed rfl
    (by decide : 1 ≤ 0xFFFF))

theorem sendPaths_shadowed (h0 : s.ec = none) :
    ((Setting.resolved .none).run (sendPaths insertionSort ⟨0⟩ 0 [[0x2F, 0x61]]
      { recursive := true, stripPrefix := [0x2F, 0x6E] }) s (acknowledged shadowed)).2.outgoing =
        emptyWire (Crc32.compute []) := by
  apply Setting.resolved_of_always (Q := fun _ _ w' => w'.outgoing = emptyWire (Crc32.compute []))
  apply always_sendPaths_of_readable (w := acknowledged shadowed) id id addressable_shadowed h0
    selected_shadowed (List.cons_ne_nil _ _)
  · intro c hc
    rw [List.mem_singleton.mp hc]
    exact (readBack_shadowed 0).trans_ne (Option.some_ne_none _)
  · intro es' hes
    obtain ⟨e, _, ⟨p, hp, rfl⟩, hnil, rfl⟩ := List.forall₂_cons_left_iff.mp hes
    obtain rfl := List.forall₂_nil_left_iff.mp hnil
    obtain rfl := Option.some.inj ((readBack_shadowed 0).symm.trans hp)
    exact sendManifest_empty (readBack_shadowed _) addressable_shadowed rfl (by decide : 1 ≤ 0xFFFF)

/-- The checksum of a whole file, which is longer than its entry says, is not what the call on the
paths announces. -/
theorem whole_checksum_differs : ¬ ∀ (f : Faults), ¬ f.read → ∀ X : Setting f, Still X →
    ∀ v, Addressable (X.side v).host.fs → ∀ s : Refs, s.ec = none →
    ∀ std sock signals paths options found,
      (X.run (collectFiles std options paths) s v).1 = (found, s) → ∀ manifest,
      List.Forall₂ (fun e e' => e' = e ∨ WholeSummed (X.side v).host.fs paths e e') found manifest →
      X.run (sendFiles sock signals paths manifest options) s v =
        X.run (sendPaths std sock signals paths options) s v := by
  intro h
  have hgiven : Crc32.compute [0x31] ≠ Crc32.compute [] := by
    rw [Crc32.compute_eq, Crc32.compute_eq]
    decide
  have hwhole : WholeSummed shadowed [[0x2F, 0x61]] { relPath := [0x78] }
      (emptyEntry (Crc32.compute [0x31])) :=
    ⟨[0x2F, 0x61, 0x2F, 0x78], [0x31], by decide, by decide, rfl⟩
  have hsame := h .none id (Setting.resolved .none) (still_resolved .none) (acknowledged shadowed)
    addressable_shadowed {} rfl insertionSort ⟨0⟩ 0 _ _ _ (run_collectFiles id selected_shadowed) _
    (.cons (Or.inr hwhole) .nil)
  have hne : Crc32.compute [0x31] ≠ 0 := by
    rw [Crc32.compute_eq]
    decide
  have hout := (sendFiles_shadowed hne).symm.trans (congrArg (fun r => r.2.outgoing) hsame)
  exact hgiven (emptyWire_inj (hout.trans (sendPaths_shadowed rfl)))

end Xfer.Transfer
