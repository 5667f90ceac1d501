import Xfer.Transfer.Idempotence
import Xfer.Transfer.Populated
import Xfer.Transfer.Storing

/-! # Receiving records in several sessions

From one session to the next nothing is kept but the file system. Records that
are sent in several sessions, one after the other, come to what they come to in
one session.
-/

namespace Xfer.Transfer

open Net Common Posix Process Code

variable {options : ReceiverOptions} {dir : Bytes} {fs F : FileSystem} {rs rs' : List Record}
  {d : DocumentedSession} {ds : List DocumentedSession} {m : ReceiverSummary} {h : Host}

theorem storeAll_append (fs : FileSystem) (rs rs' : List Record) :
    storeAll options dir fs (rs ++ rs') = match storeAll options dir fs rs with
      | (F, true) => storeAll options dir F rs'
      | (F, false) => (F, false) := by
  induction rs generalizing fs with
  | nil => rfl
  | cons r rs ih =>
    rw [List.cons_append, storeAll_cons, storeAll_cons]
    obtain ⟨fs', _ | _⟩ := store options dir fs r
    · rfl
    · exact ih fs'

/-- A session that succeeds leaves its output directory ready for the next one. -/
theorem deliver_append (h : deliver options fs rs = (F, true)) (rs' : List Record) :
    deliver options fs (rs ++ rs') = deliver options F rs' ∧
      outputDir options F = outputDir options fs := by
  unfold deliver at h
  simp only at h
  split at h
  · rename_i hdir
    have he := (storeAll_eq_true.mp h).extends
    have hout : outputDir options F = outputDir options fs :=
      outputDir_eq (he.cwd.trans (grows_prepareOutput options fs).cwd)
    have hdF : F.isDirectory (outputDir options F) := hout ▸ he.isDirectory hdir
    refine ⟨?_, hout⟩
    unfold deliver
    simp only
    rw [if_pos hdir, prepareOutput_of_isDirectory hdF, if_pos hdF, storeAll_append, h, hout]
  · cases h

theorem deliver_append_of_failed (h : deliver options fs rs = (F, false)) :
    deliver options fs (rs ++ rs') = (F, false) := by
  unfold deliver at h ⊢
  simp only at h ⊢
  split at h
  · rename_i hdir
    rw [if_pos hdir, storeAll_append, h]
  · rename_i hdir
    rw [if_neg hdir, h]

theorem untimed_summarize (dir : Bytes) (m : ReceiverSummary) (rs : List Record) :
    untimed (summarize dir m rs) = summarize dir (untimed m) rs := by
  rw [summarize_eq, summarize_eq]
  rfl

/-- However the sessions are received, one after the other and up to the first that fails. -/
def InParts (options : ReceiverOptions) : List DocumentedSession → Host → ReceiverSummary →
    (Bool → Host → ReceiverSummary → Prop) → Prop
  | [], h, m, Q => Q true h m
  | d :: ds, h, m, Q => ∀ s out, s.summary = m →
    Always .none (receiveStream options) s ⟨h, d.stream, out⟩ fun ok s' w' =>
      if ok then InParts options ds w'.host s'.summary Q else Q false w'.host s'.summary

theorem InParts.mono {Q Q' : Bool → Host → ReceiverSummary → Prop} (hi : InParts options ds h m Q)
    (hQ : ∀ ok h m, Q ok h m → Q' ok h m) : InParts options ds h m Q' := by
  induction ds generalizing h m with
  | nil => exact hQ _ _ _ hi
  | cons d ds ih =>
    intro s out hs
    apply wp_mono (hi s out hs)
    rintro (_ | _) s' w' hw
    · exact hQ _ _ _ hw
    · exact ih hw

theorem always_deliver (hne : ∀ r ∈ d.records, r.path ≠ []) (s : Refs) (h : Host) (out : Bytes) :
    Always .none (receiveStream options) s ⟨h, d.stream, out⟩ fun ok s' w' =>
      deliver options h.fs d.records = (w'.host.fs, ok) ∧
        (ok = true → untimed s'.summary =
          untimed (summarize (outputDir options h.fs) s.summary d.records)) := by
  have hi : (⟨h, d.stream, out⟩ : Side).incoming = encodeSessionHeader d.header ++
      (d.records.flatMap Record.encode ++ encodeDone) := rfl
  apply wp_mono (always_receiveStream_deliver (f := .none) id id id hi d.count.symm hne)
  rintro ok s' w' ⟨hdel, -, hok⟩
  refine ⟨hdel, fun h => ?_⟩
  obtain ⟨⟨elapsed, hs⟩, -⟩ := hok h
  rw [hs]
  rfl

theorem inParts_deliver (hne : ∀ r ∈ (d :: ds).flatMap DocumentedSession.records, r.path ≠ []) :
    InParts options (d :: ds) h m fun ok h' m' =>
      deliver options h.fs ((d :: ds).flatMap DocumentedSession.records) = (h'.fs, ok) ∧
        (ok = true → untimed m' = untimed (summarize (outputDir options h.fs) m
          ((d :: ds).flatMap DocumentedSession.records))) := by
  induction ds generalizing d h m with
  | nil =>
    rintro s out rfl
    rw [List.flatMap_singleton] at hne ⊢
    apply wp_mono (always_deliver hne s h out)
    rintro (_ | _) s' w' hw
    · exact hw
    · exact hw
  | cons d' ds ih =>
    rintro s out rfl
    rw [List.flatMap_cons] at hne ⊢
    rw [List.forall_mem_append] at hne
    apply wp_mono (always_deliver hne.1 s h out)
    rintro (_ | _) s' w' ⟨hdel, hm⟩
    · exact ⟨deliver_append_of_failed hdel, fun h => absurd h Bool.false_ne_true⟩
    · obtain ⟨happ, hout⟩ := deliver_append hdel ((d' :: ds).flatMap DocumentedSession.records)
      apply (ih hne.2).mono
      rintro ok h' m' ⟨hdel', hm'⟩
      refine ⟨happ.trans hdel', fun hok => ?_⟩
      rw [hm' hok, untimed_summarize, hm rfl, ← untimed_summarize, summarize_append, hout]

/-- In one session or in several, one after the other, records come to the same: the same verdict,
the same file system and, apart from the time, the same summary. -/
theorem receive_in_parts (options : ReceiverOptions) (s : Refs) (h : Host) (out : Bytes)
    (whole d : DocumentedSession) (ds : List DocumentedSession)
    (hd : whole.records = (d :: ds).flatMap DocumentedSession.records)
    (hne : ∀ r ∈ whole.records, r.path ≠ []) :
    Always .none (receiveStream options) s ⟨h, whole.stream, out⟩ fun ok s' w' =>
      InParts options (d :: ds) h s.summary fun ok' h' m' =>
        ok' = ok ∧ h'.fs = w'.host.fs ∧ (ok = true → untimed m' = untimed s'.summary) := by
  apply wp_mono (always_deliver hne s h out)
  rintro ok s' w' ⟨hdel, hm⟩
  rw [hd] at hne hdel hm
  apply (inParts_deliver hne).mono
  rintro ok' h' m' ⟨hdel', hm'⟩
  obtain ⟨hfs, rfl⟩ := Prod.mk.inj (hdel'.symm.trans hdel)
  exact ⟨rfl, hfs, fun hok => (hm' hok).trans (hm hok).symm⟩

/-- The records of the sample session, each in a session of its own. -/
def samplePart (r : Record) : DocumentedSession := ⟨{ totalFiles := 1 }, [r], rfl⟩

theorem sample_in_parts : Always .none (receiveStream { outputDir := rootName }) {}
    ⟨⟨.empty, none⟩, sampleSession.stream, []⟩ fun ok s' w' =>
      InParts { outputDir := rootName }
        (samplePart (.small 0x61 0 0x62) :: [samplePart (.small 0x63 0 0x64)]) ⟨.empty, none⟩ {}
        fun ok' h' m' => ok' = ok ∧ h'.fs = w'.host.fs ∧
          (ok = true → untimed m' = untimed s'.summary) :=
  receive_in_parts { outputDir := rootName } {} ⟨.empty, none⟩ [] sampleSession _ _ rfl (by decide)

end Xfer.Transfer
