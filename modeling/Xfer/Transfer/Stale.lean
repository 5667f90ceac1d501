import Xfer.Net.Setting
import Xfer.Transfer.Precheck

/-! # A stale error code

The pass before the session takes an error code that is set for a failure of its
own, the session proper does not look at it. So what a sender does depends on the
code that it is called with exactly if that pass has something to read and could
read it.
-/

namespace Xfer.Transfer

open Net Common Posix Process Code

variable {f : Faults} {scan : Prop} {fs : FileSystem} {x : Session Bool} {e e' : ErrorCode} {s t : Refs}
  {w : Side} {std : StdSort} {sock : Socket} {signals : ℕ} {paths : List Bytes}
  {options : SenderOptions} {es : List FileEntry}

/-- Two runs return the same verdict and have put the same bytes on the socket. -/
def Agree (X : Setting f) (r r' : (Bool × Refs) × X.State) : Prop :=
  r.1.1 = r'.1.1 ∧ (X.side r.2).outgoing = (X.side r'.2).outgoing

/-- It makes no difference which of the two codes the caller passes in, in settings where the calls
of the scan may fail only if `scan` holds. -/
def EcIrrelevant (scan : Prop) (fs : FileSystem) (x : Session Bool) (e e' : ErrorCode) : Prop :=
  ∀ (f : Faults), (f.scan → scan) → ∀ (X : Setting f) (v : X.State) (s : Refs),
    (X.side v).host.fs = fs →
      Agree X (X.run x { s with ec := e } v) (X.run x { s with ec := e' } v)

theorem EcIrrelevant.symm (h : EcIrrelevant scan fs x e e') : EcIrrelevant scan fs x e' e :=
  fun f hf X v s hv => (h f hf X v s hv).imp Eq.symm Eq.symm

/-- The verdict is known, and nothing is sent. -/
def Silent (verdict : Bool) (w : Side) (ok : Bool) (_ : Refs) (w' : Side) : Prop :=
  ok = verdict ∧ w'.outgoing = w.outgoing

theorem agree_of_silent {X : Setting f} {v : X.State} {verdict : Bool}
    (hs : Always f x s (X.side v) (Silent verdict (X.side v)))
    (ht : Always f x t (X.side v) (Silent verdict (X.side v))) :
    Agree X (X.run x s v) (X.run x t v) := by
  obtain ⟨h₁, h₂⟩ := X.run_of_always hs
  obtain ⟨h₃, h₄⟩ := X.run_of_always ht
  exact ⟨h₁.trans h₃.symm, h₂.trans h₄.symm⟩

theorem Untouched.silent {ok : Bool} {s' : Refs} {w' : Side} (h : Untouched w ok s' w') :
    Silent false w ok s' w' := ⟨h.1, congrArg World.outgoing h.2⟩

/-- A call with a pass before its session, which looks at something if `Looked`, and at something
that it cannot read if `Unread`. -/
structure Prechecked (scan : Prop) (fs : FileSystem) (x : Session Bool) (Looked Unread : Prop) :
    Prop where
  stale : ∀ {f : Faults} {s w}, (f.scan → scan) → w.host.fs = fs → Looked → s.ec ≠ none →
    Always f x s w (Untouched w)
  unread : ∀ {f : Faults} {s w}, (f.scan → scan) → w.host.fs = fs → Unread →
    Always f x s w (Untouched w)
  clear : ∀ {s w}, w.host.fs = fs → Looked → ¬ Unread → s.ec = none →
    Always .none x s w fun _ _ w' => w'.outgoing ≠ w.outgoing
  blind : ¬ Looked → ∀ e e', EcIrrelevant scan fs x e e'

variable {Looked Unread : Prop}

/-- A set code keeps a session from being opened that a clear one lets be opened. -/
theorem Prechecked.not_irrelevant (h : Prechecked scan fs x Looked Unread) (hl : Looked)
    (hu : ¬ Unread) (hne : e ≠ none) : ¬ EcIrrelevant scan fs x none e := by
  intro hirr
  let X := Setting.resolved .none
  have hw : (X.side (acknowledged fs)).host.fs = fs := rfl
  have hagree := (hirr .none False.elim X (acknowledged fs) {} hw).2
  have hclear := X.run_of_always (h.clear (s := {}) hw hl hu rfl)
  have hstale := X.run_of_always (h.stale (f := .none) (s := { ec := e }) False.elim hw hl hne)
  exact hclear (hagree.trans (congrArg World.outgoing hstale.2))

theorem Prechecked.irrelevant_iff (h : Prechecked scan fs x Looked Unread) :
    EcIrrelevant scan fs x e e' ↔ (e = none ↔ e' = none) ∨ ¬ Looked ∨ Unread := by
  constructor
  · intro hirr
    by_contra hno
    obtain ⟨hkind, hno⟩ := not_or.mp hno
    obtain ⟨hl, hu⟩ := not_or.mp hno
    rw [not_not] at hl
    by_cases he : e = none
    · subst he
      exact h.not_irrelevant hl hu (fun he' => hkind (iff_of_true rfl he')) hirr
    · by_cases he' : e' = none
      · subst he'
        exact h.not_irrelevant hl hu he hirr.symm
      · exact hkind (iff_of_false he he')
  · intro hcond f hf X v s hv
    by_cases hl : Looked
    · have hsilent : ∀ {t}, t.ec ≠ none ∨ Unread →
          Always f x t (X.side v) (Silent false (X.side v)) := by
        intro t ht
        rcases ht with ht | hu
        · exact wp_mono (h.stale hf hv hl ht) fun _ _ _ hr => hr.silent
        · exact wp_mono (h.unread hf hv hu) fun _ _ _ hr => hr.silent
      rcases hcond with hkind | hno | hu
      · by_cases he : e = none
        · rw [he, hkind.mp he]
          exact ⟨rfl, rfl⟩
        · exact agree_of_silent (hsilent (Or.inl he)) (hsilent (Or.inl fun he' => he (hkind.mpr he')))
      · exact absurd hl hno
      · exact agree_of_silent (hsilent (Or.inr hu)) (hsilent (Or.inr hu))
    · exact h.blind hl e e' f hf X v s hv

theorem encodeSessionHeader_announced {header : SessionHeader} {w w' : Side}
    (h : w.outgoing ++ encodeSessionHeader header <+: w'.outgoing) : w'.outgoing ≠ w.outgoing := by
  intro he
  have hl := h.length_le
  rw [he, List.length_append, length_encodeSessionHeader] at hl
  omega

theorem sendFiles_untouched_of_ec (hs : Addressable w.host.fs) (hec : s.ec ≠ none)
    (hlook : ∃ e ∈ es, e.crc32 = 0) :
    Always f (sendFiles sock signals paths es options) s w (Untouched w) := by
  obtain ⟨e, he, h0⟩ := hlook
  unfold sendFiles
  rw [if_neg (List.ne_nil_of_mem he), Always, wp_bind]
  have hkeep : ∀ {s} e', s.ec ≠ none →
      Always f (fillEntry paths e') s w fun r s' _ => r = none ∨ s'.ec ≠ none := by
    intro s e' hec
    unfold fillEntry
    split
    · exact wp_mono (always_sumEntry_of_ec hs hec) fun _ _ _ => Or.inl
    · exact Or.inr hec
  have hone : ∀ {s}, s.ec ≠ none → Always f (fillEntry paths e) s w fun r _ _ => r = none := by
    intro s hec
    rw [fillEntry, if_pos h0]
    exact always_sumEntry_of_ec hs hec
  apply wp_mono ((pass_fillCrcs paths).stops (only_fillEntry paths) he hkeep hone hec)
  rintro _ u w ⟨rfl, rfl⟩
  exact ⟨rfl, rfl⟩

theorem prechecked_sendScanned (hs : Addressable fs) :
    Prechecked True fs (sendScanned sock signals paths options es) (es ≠ [])
      (∃ e ∈ es, readBack fs paths e = none) where
  stale := by
    rintro f s w - rfl hne hec
    unfold sendScanned
    rw [if_neg hne, Always, wp_bind]
    apply wp_mono ((always_computeCrcs_of_ec hs hec hne).and (always_looks (only_computeCrcs paths _)))
    rintro _ u w ⟨rfl, rfl⟩
    exact ⟨rfl, rfl⟩
  unread := by
    rintro f s w - rfl ⟨e, he, hn⟩
    exact sendScanned_untouched he hn
  clear := by
    rintro s w rfl hne hread h0
    apply always_sendScanned_of_readable id hs h0 hne fun e he hn => hread ⟨e, he, hn⟩
    exact fun _ => wp_mono sendManifest_announces fun _ _ _ => encodeSessionHeader_announced
  blind := by
    rintro hnil e e' f - X v s -
    -- nothing is announced, and that is a success
    unfold sendScanned
    rw [if_pos (not_not.mp hnil)]
    exact ⟨rfl, rfl⟩

theorem prechecked_sendPaths (hs : Addressable fs) :
    Prechecked False fs (sendPaths std sock signals paths options)
      (manifestOf (selected std fs options paths) ≠ [])
      (∃ e ∈ manifestOf (selected std fs options paths), readBack fs paths e = none) where
  stale := by
    rintro f s w hf rfl hne hec
    rw [sendPaths_eq, Always, wp_bind]
    apply wp_mono (always_collectFiles hf)
    rintro _ t _ ⟨rfl, rfl, ht⟩
    obtain rfl := ht fun hno => hne (manifestOf_eq_nil.mpr (Or.inl hno))
    exact (prechecked_sendScanned hs).stale (fun _ => trivial) rfl hne hec
  unread := by
    rintro f s w hf rfl hu
    rw [sendPaths_eq, Always, wp_bind]
    apply wp_mono (always_collectFiles hf)
    rintro _ t _ ⟨rfl, rfl, -⟩
    exact (prechecked_sendScanned hs).unread (fun _ => trivial) rfl hu
  clear := by
    rintro s w rfl hne hread h0
    rw [sendPaths_eq, Always, wp_bind]
    apply wp_mono (always_collectFiles id)
    rintro _ t _ ⟨rfl, rfl, ht⟩
    obtain rfl := ht fun hno => hne (manifestOf_eq_nil.mpr (Or.inl hno))
    exact (prechecked_sendScanned hs).clear rfl hne hread h0
  blind := by
    rintro hnil e e' f hf X v s rfl
    have hsilent : ∀ t, Always f (sendPaths std sock signals paths options) t (X.side v)
        (Silent true (X.side v)) := by
      intro t
      rw [sendPaths_eq, Always, wp_bind]
      apply wp_mono (always_collectFiles hf)
      rintro _ t _ ⟨rfl, rfl, -⟩
      unfold sendScanned
      rw [if_pos (not_not.mp hnil)]
      exact ⟨rfl, rfl⟩
    exact agree_of_silent (hsilent _) (hsilent _)

theorem fillCrcs_eq (h : ∀ e ∈ es, e.crc32 ≠ 0) : fillCrcs paths es = pure (some es) := by
  induction es with
  | nil => rfl
  | cons e es ih =>
    obtain ⟨he, hes⟩ := List.forall_mem_cons.mp h
    rw [(pass_fillCrcs paths).cons, fillEntry, if_neg he, ih hes]
    rfl

theorem prechecked_sendFiles (hs : Addressable fs) :
    Prechecked True fs (sendFiles sock signals paths es options) (∃ e ∈ es, e.crc32 = 0)
      (∃ e ∈ es, e.crc32 = 0 ∧ readBack fs paths e = none) where
  stale := by
    rintro f s w - rfl hlook hec
    exact sendFiles_untouched_of_ec hs hec hlook
  unread := by
    rintro f s w - rfl ⟨e, he, h0, hn⟩
    exact sendFiles_untouched he h0 hn
  clear := by
    rintro s w rfl ⟨e, he, -⟩ hread h0
    apply always_sendFiles_of_readable id hs h0 (List.ne_nil_of_mem he)
      fun e he hc hn => hread ⟨e, he, hc, hn⟩
    exact fun _ => wp_mono sendManifest_announces fun _ _ _ => encodeSessionHeader_announced
  blind := by
    rintro hno e e' f - X v s -
    have hgiven : ∀ e ∈ es, e.crc32 ≠ 0 := fun e he h0 => hno ⟨e, he, h0⟩
    have hobl : Oblivious (fun _ => True) (sendFiles sock signals paths es options) := by
      unfold sendFiles
      rw [fillCrcs_eq hgiven]
      split
      · exact .pure _
      · exact oblivious_sendManifest sock signals paths options es
    obtain ⟨h₁, h₂⟩ := X.run_of_oblivious (v := v) hobl (sameButEc_of_ec s e e')
    exact ⟨h₁, congrArg (fun v => (X.side v).outgoing) h₂⟩

/-- What the two calls send and return depends on the error code that they are called with unless
both codes are clear or both are set, nothing is left to be summed up before the session, or
something of that cannot be read; for the first call, also with whatever a failing scan finds. -/
theorem stale_ec_irrelevant_iff (hs : Addressable fs) (std : StdSort) (sock : Socket) (signals : ℕ)
    (paths : List Bytes) (options : SenderOptions) (manifest : List FileEntry) (e e' : ErrorCode) :
    (EcIrrelevant False fs (sendPaths std sock signals paths options) e e' ↔
      (e = none ↔ e' = none) ∨ manifestOf (selected std fs options paths) = [] ∨
        ∃ items, selected std fs options paths = some items ∧
          ∃ c ∈ items, readBack fs paths c.entry = none) ∧
    (EcIrrelevant True fs (sendScanned sock signals paths options manifest) e e' ↔
      (e = none ↔ e' = none) ∨ manifest = [] ∨ ∃ e ∈ manifest, readBack fs paths e = none) ∧
    (EcIrrelevant True fs (sendFiles sock signals paths manifest options) e e' ↔
      (e = none ↔ e' = none) ∨ (∀ e ∈ manifest, e.crc32 ≠ 0) ∨
        ∃ e ∈ manifest, e.crc32 = 0 ∧ readBack fs paths e = none) := by
  constructor
  · rw [(prechecked_sendPaths hs).irrelevant_iff, not_not, exists_mem_manifestOf]
  constructor
  · rw [(prechecked_sendScanned hs).irrelevant_iff, not_not]
  · rw [(prechecked_sendFiles hs).irrelevant_iff]
    simp only [not_exists, not_and, ne_eq]

theorem selected_lone : selected insertionSort lone {} [[0x2F, 0x61]] =
    some [⟨[0x2F, 0x61], { relPath := [0x61], size := 1 }⟩] := by decide

theorem readable_lone : ¬ ∃ items, selected insertionSort lone {} [[0x2F, 0x61]] = some items ∧
    ∃ c ∈ items, readBack lone [[0x2F, 0x61]] c.entry = none := by
  rintro ⟨items, hsel, c, hc, hn⟩
  obtain rfl := Option.some.inj (selected_lone.symm.trans hsel)
  obtain rfl := List.mem_singleton.mp hc
  exact absurd hn (by decide)

/-- With one readable file, a code left over from an earlier failure matters to the first call, and
not to the second one where the checksum is given. -/
theorem stale_ec_lone :
    ¬ EcIrrelevant False lone (sendPaths insertionSort ⟨0⟩ 0 [[0x2F, 0x61]] {}) none (some .ioError) ∧
    EcIrrelevant True lone (sendFiles ⟨0⟩ 0 [[0x2F, 0x61]] [⟨[0x61], 1, 7⟩] {}) none (some .ioError) := by
  have h := stale_ec_irrelevant_iff addressable_lone insertionSort ⟨0⟩ 0 [[0x2F, 0x61]] {}
    [⟨[0x61], 1, 7⟩] none (some .ioError)
  constructor
  · rw [h.1]
    rintro (hkind | hnil | hread)
    · exact absurd (hkind.mp rfl) (by decide)
    · rw [selected_lone] at hnil
      cases hnil
    · exact readable_lone hread
  · exact h.2.2.mpr (Or.inr (Or.inl (by decide)))

/-- The call that would send the file fails and sends nothing. -/
theorem stale_ec_matters : ¬ ∀ fs std sock signals paths options e e',
    EcIrrelevant False fs (sendPaths std sock signals paths options) e e' := by
  intro h
  have hne : manifestOf (selected insertionSort lone {} [[0x2F, 0x61]]) ≠ [] := by
    rw [selected_lone]
    exact List.cons_ne_nil _ _
  exact (prechecked_sendPaths addressable_lone).not_irrelevant hne
    (fun hno => readable_lone (exists_mem_manifestOf.mp hno)) (Option.some_ne_none Errc.ioError)
    (h lone insertionSort ⟨0⟩ 0 _ {} none _)

end Xfer.Transfer
