import Xfer.Transfer.Completeness

/-! # What is found before the session opens

The pass before the session resolves, opens and reads the files of the entries
that it looks at, and if one of them fails, nothing has been written. That a file
is shorter than announced or a path too long for a header is found when the record
is due, and then the session header has gone out.
-/

namespace Xfer.Transfer

open Net Common Posix Process Code FileSystem

variable {f : Faults} {sock : Socket} {signals : ℕ} {s s' : Refs} {w w' : Side} {paths : List Bytes}
  {options : SenderOptions} {fs : FileSystem} {std : StdSort} {items : List Collected}
  {e e' : FileEntry} {es es' : List FileEntry} {k : Key} {size : UInt64}

theorem eq_of_looks {c : Call} {r : c.Result} (h : machine f w c r w') (hc : Looks c) : w' = w := by
  obtain ⟨host, inc, out⟩ := w
  obtain ⟨host', inc', out'⟩ := w'
  obtain ⟨a, hk, ha⟩ := h
  obtain ⟨rfl, rfl⟩ : a = .silent ∧ host' = host := by
    cases c with
    | look => exact ⟨hk.1, hk.2.1⟩
    | pathExists path => exact ⟨hk.1, hk.2.1⟩
    | stat path => exact ⟨hk.1, hk.2.1⟩
    | relative path base => exact ⟨hk.1, hk.2.1⟩
    | iterate follow path => exact ⟨hk.1, hk.2.1⟩
    | openRead path => exact ⟨hk.1, hk.2.1⟩
    | pread fd want offset => exact ⟨hk.1, hk.2.1⟩
    | close fd => exact hk
    | _ => exact hc.elim
  obtain ⟨rfl, rfl⟩ := ha
  rfl

theorem always_looks {α : Type} {x : Session α} (hx : Only Looks x) :
    Always f x s w fun _ _ w' => w' = w := by
  have h : Always f x s w fun _ _ _ => True := Program.ensures_true
  apply wp_mono (hx.keep (I := fun w' => w' = w) h rfl
    (fun hw hc hm => (eq_of_looks hm hc).trans hw) fun _ _ => trivial)
  exact fun _ _ _ hw => hw.2

theorem always_collectFiles_of_selected (hf : ¬ f.scan)
    (hsel : selected std w.host.fs options paths = some items) :
    Always f (collectFiles std options paths) s w fun es s' w' =>
      es = items.map Collected.entry ∧ s' = s ∧ w' = w := by
  apply wp_mono (always_collectFiles hf)
  rintro es t _ ⟨rfl, rfl, hs⟩
  exact ⟨by rw [hsel]; rfl, hs (by simp [hsel]), rfl⟩

theorem payload_eq_none (h : payload fs k size = none) :
    size ≠ 0 ∧ ∀ b, fs.lookup k ≠ some (.file b) := by
  constructor
  · rintro rfl
    cases h
  · intro b hb
    rw [payload_file hb] at h
    cases h

/-- The sum of an entry whose file cannot be found, opened or read is not to be had. -/
theorem always_sumEntry_of_unreadable (h : readBack w.host.fs paths e = none) :
    Always f (sumEntry paths e) s w fun r _ _ => r = none := by
  unfold sumEntry
  rw [Always, wp_bind]
  apply wp_mono always_openEntry
  rintro r t w ⟨rfl, ⟨k, rfl, ho, rfl⟩ | ⟨rfl, -, -⟩⟩
  · rw [readBack, ho, Option.bind_some] at h
    obtain ⟨h0, hk⟩ := payload_eq_none h
    simp only [wp_bind]
    unfold crcOfFd
    rw [wp_bind]
    apply wp_mono (always_crcLoop_of_not_file hk h0)
    rintro r u w ⟨rfl, rfl, hec⟩
    simp only [wp_pure]
    apply wp_mono always_close
    rintro _ u w ⟨rfl, rfl⟩
    rw [wp_get, if_pos hec]
    exact rfl
  · exact rfl

/-- A pass stops at an entry that nothing can be made of, under a condition that it keeps until
then. -/
theorem Pass.stops {one : FileEntry → Session (Option FileEntry)}
    {pass : List FileEntry → Session (Option (List FileEntry))} (hp : Pass one pass)
    (hlook : ∀ e, Only Looks (one e)) (he : e ∈ es) {I : Refs → Prop}
    (hI : ∀ {s} e', I s → Always f (one e') s w fun r s' _ => r = none ∨ I s')
    (h : ∀ {s}, I s → Always f (one e) s w fun r _ _ => r = none) (hs : I s) :
    Always f (pass es) s w fun r _ w' => r = none ∧ w' = w := by
  refine Always.and ?_ (always_looks (hp.only hlook es))
  induction es generalizing s with
  | nil => cases he
  | cons e' es ih =>
    rw [hp.cons, Always, wp_bind]
    rcases List.mem_cons.mp he with rfl | he
    · apply wp_mono (h hs)
      rintro _ t w rfl
      exact rfl
    · apply wp_mono ((hI e' hs).and (always_looks (hlook e')))
      rintro r t w ⟨hr, rfl⟩
      cases r with
      | none => exact rfl
      | some e' =>
        simp only [wp_bind]
        apply wp_mono (ih he (hr.resolve_left (Option.some_ne_none e')))
        rintro _ u w rfl
        exact rfl

/-- The call fails, and neither the connection nor the host has been touched. -/
def Untouched (w : Side) (ok : Bool) (_ : Refs) (w' : Side) : Prop := ok = false ∧ w' = w

theorem sendScanned_untouched (he : e ∈ es) (h : readBack w.host.fs paths e = none) :
    Always f (sendScanned sock signals paths options es) s w (Untouched w) := by
  unfold sendScanned
  rw [if_neg (List.ne_nil_of_mem he), Always, wp_bind]
  apply wp_mono ((pass_computeCrcs paths).stops (only_sumEntry paths) he (I := fun _ => True)
    (fun _ _ => wp_mono (always_looks (only_sumEntry paths _)) fun _ _ _ _ => Or.inr trivial)
    (fun _ => always_sumEntry_of_unreadable h) trivial)
  rintro _ u w ⟨rfl, rfl⟩
  exact ⟨rfl, rfl⟩

theorem sendPaths_untouched (hf : ¬ f.scan)
    (hsel : selected std w.host.fs options paths = some items)
    {c : Collected} (hc : c ∈ items) (h : readBack w.host.fs paths c.entry = none) :
    Always f (sendPaths std sock signals paths options) s w (Untouched w) := by
  rw [sendPaths_eq, Always, wp_bind]
  apply wp_mono (always_collectFiles_of_selected hf hsel)
  rintro _ t _ ⟨rfl, rfl, rfl⟩
  exact sendScanned_untouched (List.mem_map_of_mem hc) h

theorem sendFiles_untouched (he : e ∈ es) (h0 : e.crc32 = 0)
    (h : readBack w.host.fs paths e = none) :
    Always f (sendFiles sock signals paths es options) s w (Untouched w) := by
  unfold sendFiles
  rw [if_neg (List.ne_nil_of_mem he), Always, wp_bind]
  have hone : ∀ {s}, Always f (fillEntry paths e) s w fun r _ _ => r = none := by
    intro s
    rw [fillEntry, if_pos h0]
    exact always_sumEntry_of_unreadable h
  apply wp_mono ((pass_fillCrcs paths).stops (only_fillEntry paths) he (I := fun _ => True)
    (fun _ _ => wp_mono (always_looks (only_fillEntry paths _)) fun _ _ _ _ => Or.inr trivial)
    (fun _ => hone) trivial)
  rintro _ u w ⟨rfl, rfl⟩
  exact ⟨rfl, rfl⟩

/-- The call fails after the header of a session has gone out. -/
def Late (w : Side) (ok : Bool) (_ : Refs) (w' : Side) : Prop :=
  ok = false ∧ ∃ header sent, w'.outgoing = w.outgoing ++ (encodeSessionHeader header ++ sent)

theorem always_outgoing {α : Type} {x : Session α} :
    Always f x s w fun _ _ w' => w.outgoing <+: w'.outgoing :=
  Program.ensures_iff_exec.mpr fun _ _ he => Exec.outgoing_prefix he

theorem sendManifest_announces : Always .none (sendManifest sock signals paths options es) s w
    fun _ _ w' => w.outgoing ++ encodeSessionHeader (sessionHeader es) <+: w'.outgoing := by
  unfold sendManifest
  rw [Always, wp_bind]
  apply wp_mono (wp_sendAll (by simp) fun _ _ _ _ => trivial)
  rintro _ t _ (_ | ⟨_, _, _, hn, _⟩)
  · exact always_outgoing
  · exact absurd hn (by simp [Faults.none])

/-- Once the pass is over, a record that cannot be made shows after the session header. -/
theorem sendManifest_late (hs : Addressable w.host.fs) (he : e ∈ es)
    (hno : ∀ r, ¬ Sends w.host.fs paths e r) :
    Always .none (sendManifest sock signals paths options es) s w (Late w) := by
  have hman : Always .none (sendManifest sock signals paths options es) s w fun ok _ w' =>
      ManifestOutcome .none sock w.host.fs paths es w ok w' :=
    wp_sendManifest hs (fun _ _ _ _ => trivial) (fun _ _ _ _ => trivial) fun _ _ _ _ => trivial
  apply wp_mono (hman.and sendManifest_announces)
  rintro ok t w' ⟨ho, sent, hsent⟩
  cases ho with
  | sent rs buf rest v hrs =>
    obtain ⟨r, -, hr⟩ := mem_of_forall₂ hrs he
    exact absurd hr (hno r)
  | failed => exact ⟨rfl, _, sent, by rw [← hsent, List.append_assoc]⟩

theorem Sends.deliverable {r : Record} (h : Sends fs paths e r) : Deliverable fs paths e :=
  ⟨h.fits, r.payload, h.payload, h.length⟩

theorem deliverable_of_filled (h : filled fs paths e e') (hd : Deliverable fs paths e') :
    Deliverable fs paths e := by
  unfold filled at h
  split at h
  · obtain ⟨p, -, rfl⟩ := h
    exact hd
  · exact h ▸ hd

theorem always_sendFiles_of_readable {Q : Bool → Refs → Side → Prop} (hf : ¬ f.read)
    (hs : Addressable w.host.fs) (h0 : s.ec = none) (hne : es ≠ [])
    (hread : ∀ e ∈ es, e.crc32 = 0 → readBack w.host.fs paths e ≠ none)
    (hQ : ∀ {es'}, List.Forall₂ (filled w.host.fs paths) es es' →
      Always f (sendManifest sock signals paths options es') s w Q) :
    Always f (sendFiles sock signals paths es options) s w Q := by
  unfold sendFiles
  rw [if_neg hne, Always, wp_bind]
  apply wp_mono (always_fillCrcs hs h0 es)
  rintro r t w₁ ⟨rfl, ⟨es', rfl, hes, rfl⟩ | ⟨rfl, -, hr⟩⟩
  · exact hQ hes
  · obtain ⟨e, he, hc, hn⟩ := hr.resolve_left hf
    exact absurd hn (hread e he hc)

theorem always_sendScanned_of_readable {Q : Bool → Refs → Side → Prop} (hf : ¬ f.read)
    (hs : Addressable w.host.fs) (h0 : s.ec = none) (hne : es ≠ [])
    (hread : ∀ e ∈ es, readBack w.host.fs paths e ≠ none)
    (hQ : ∀ {es'}, List.Forall₂ (summed w.host.fs paths) es es' →
      Always f (sendManifest sock signals paths options es') s w Q) :
    Always f (sendScanned sock signals paths options es) s w Q := by
  unfold sendScanned
  rw [if_neg hne, Always, wp_bind]
  apply wp_mono (always_computeCrcs hs h0 _)
  rintro r t w₂ ⟨rfl, ⟨es', rfl, hes, rfl⟩ | ⟨rfl, -, hr⟩⟩
  · exact hQ hes
  · obtain ⟨e, he, hn⟩ := hr.resolve_left hf
    exact absurd hn (hread e he)

theorem always_sendPaths_of_readable {Q : Bool → Refs → Side → Prop} (hscan : ¬ f.scan)
    (hf : ¬ f.read) (hs : Addressable w.host.fs) (h0 : s.ec = none)
    (hsel : selected std w.host.fs options paths = some items) (hne : items ≠ [])
    (hread : ∀ c ∈ items, readBack w.host.fs paths c.entry ≠ none)
    (hQ : ∀ {es'}, List.Forall₂ (summed w.host.fs paths) (items.map Collected.entry) es' →
      Always f (sendManifest sock signals paths options es') s w Q) :
    Always f (sendPaths std sock signals paths options) s w Q := by
  rw [sendPaths_eq, Always, wp_bind]
  apply wp_mono (always_collectFiles_of_selected hscan hsel)
  rintro _ t _ ⟨rfl, rfl, rfl⟩
  exact always_sendScanned_of_readable hf hs h0 (by simpa using hne) (List.forall_mem_map.mpr hread) hQ

theorem sendFiles_late (hs : Addressable w.host.fs) (h0 : s.ec = none)
    (hread : ∀ e ∈ es, readBack w.host.fs paths e ≠ none) (he : e ∈ es)
    (hno : ¬ Deliverable w.host.fs paths e) :
    Always .none (sendFiles sock signals paths es options) s w (Late w) := by
  apply always_sendFiles_of_readable id hs h0 (List.ne_nil_of_mem he) fun e he _ => hread e he
  intro es' hes
  obtain ⟨e', he', hfill⟩ := mem_of_forall₂ hes he
  exact sendManifest_late hs he' fun r hr => hno (deliverable_of_filled hfill hr.deliverable)

theorem sendPaths_late (hs : Addressable w.host.fs) (h0 : s.ec = none)
    (hsel : selected std w.host.fs options paths = some items)
    (hread : ∀ c ∈ items, readBack w.host.fs paths c.entry ≠ none) {c : Collected}
    (hc : c ∈ items) (hno : ¬ Deliverable w.host.fs paths c.entry) :
    Always .none (sendPaths std sock signals paths options) s w (Late w) := by
  apply always_sendPaths_of_readable id id hs h0 hsel (List.ne_nil_of_mem hc) hread
  intro es' hes
  obtain ⟨e', he', p, -, rfl⟩ := mem_of_forall₂ hes (List.mem_map_of_mem hc)
  exact sendManifest_late hs he' fun r hr => hno hr.deliverable

/-- An entry that the pass before the session looks at and that cannot be found, opened or read ends
the call with nothing touched, whatever else fails; the scan itself touches nothing, and may find
less if it fails. Where all can be read, a file that is too short
or a path that is too long ends it after the session header has gone out. -/
theorem unreadable_found_early (f : Faults) (std : StdSort) (sock : Socket) (signals : ℕ)
    (paths : List Bytes) (options : SenderOptions) (manifest : List FileEntry) (s : Refs) (w : Side) :
    (¬ f.scan → (∃ items, selected std w.host.fs options paths = some items ∧
        ∃ c ∈ items, readBack w.host.fs paths c.entry = none) →
      Always f (sendPaths std sock signals paths options) s w (Untouched w)) ∧
    Always f (collectFiles std options paths) s w (fun found s' w' => w' = w ∧
      ((∃ e ∈ found, readBack w.host.fs paths e = none) →
        Always f (sendScanned sock signals paths options found) s' w (Untouched w))) ∧
    ((∃ e ∈ manifest, e.crc32 = 0 ∧ readBack w.host.fs paths e = none) →
      Always f (sendFiles sock signals paths manifest options) s w (Untouched w)) ∧
    (Addressable w.host.fs → s.ec = none →
      ((∃ items, selected std w.host.fs options paths = some items ∧
          (∀ c ∈ items, readBack w.host.fs paths c.entry ≠ none) ∧
          ∃ c ∈ items, ¬ Deliverable w.host.fs paths c.entry) →
        Always .none (sendPaths std sock signals paths options) s w (Late w)) ∧
      ((∀ e ∈ manifest, readBack w.host.fs paths e ≠ none) ∧
          (∃ e ∈ manifest, ¬ Deliverable w.host.fs paths e) →
        Always .none (sendFiles sock signals paths manifest options) s w (Late w))) := by
  constructor
  · rintro hf ⟨items, hsel, c, hc, hn⟩
    exact sendPaths_untouched hf hsel hc hn
  constructor
  · apply wp_mono always_scan
    rintro found t _ ⟨rfl, -⟩
    refine ⟨rfl, ?_⟩
    rintro ⟨e, he, hn⟩
    exact sendScanned_untouched he hn
  constructor
  · rintro ⟨e, he, h0, hn⟩
    exact sendFiles_untouched he h0 hn
  intro hs h0
  constructor
  · rintro ⟨items, hsel, hread, c, hc, hno⟩
    exact sendPaths_late hs h0 hsel hread hc hno
  · rintro ⟨hread, e, he, hno⟩
    exact sendFiles_late hs h0 hread he hno

/-- An entry for the only file there is, one byte longer than that. -/
def tooLong : FileEntry := { relPath := [0x61], size := 2 }

/-- It fails with a session header on the wire. -/
theorem short_file_found_late : ¬ Always .none
    (sendFiles ⟨0⟩ 0 [[0x2F, 0x61]] [tooLong] {}) {} (acknowledged lone)
      fun ok _ w' => ok = false → w'.outgoing = [] := by
  have hread : readBack lone [[0x2F, 0x61]] tooLong = some [0x31] := by decide
  have hno : ¬ Deliverable lone [[0x2F, 0x61]] tooLong := by
    rintro ⟨-, b, hb, hl⟩
    obtain rfl := Option.some.inj (hread.symm.trans hb)
    exact absurd hl (by decide)
  have hall : ∀ e ∈ [tooLong], readBack lone [[0x2F, 0x61]] e ≠ none := by simp [hread]
  have hlate : Always .none (sendFiles ⟨0⟩ 0 [[0x2F, 0x61]] [tooLong] {}) {} (acknowledged lone)
      (Late (acknowledged lone)) :=
    sendFiles_late addressable_lone rfl hall List.mem_cons_self hno
  intro h
  obtain ⟨ok, s', w', ⟨hok, header, sent, hout⟩, hnothing⟩ := (hlate.and h).exists
  have hl := congrArg List.length (hout.symm.trans (hnothing hok))
  rw [List.length_append, List.length_append, length_encodeSessionHeader, List.length_nil] at hl
  omega

end Xfer.Transfer
