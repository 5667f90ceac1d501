import Xfer.Transfer.Records

/-! # Receiving a session

The handshake, the output directory and the trailer, and the rule by which a
property of the whole session follows from its opening and from one iteration
of the record loop.
-/

namespace Xfer.Transfer

open Net Common Posix Process Code

variable {f : Faults} {G : Side → Call → Prop} {s s' : Refs} {w w' : Side}
  {options : ReceiverOptions}

inductive HandshakeOutcome (f : Faults) (s : Refs) (w : Side) :
    Option SessionHeader → Refs → Side → Prop
  | noHeader {s' : Refs} {w' : Side} : ReadOutcome f 32 sessionOf s w none s' w' →
      HandshakeOutcome f s w none s' w'
  | noAck (rest : Bytes) {s' : Refs} {w' : Side} :
      SendAllOutcome f (encodeAck 0) s (w.reading rest) false s' w' →
      HandshakeOutcome f s w none s' w'
  | done (buf rest : Bytes) (header : SessionHeader) : buf.length = 32 →
      w.incoming = buf ++ rest → sessionOf buf = some header →
      HandshakeOutcome f s w (some header) s ((w.reading rest).sent (encodeAck 0))

theorem wp_handshake
    (hr : ∀ bs rest, w.incoming = bs ++ rest → bs.length < 32 →
      G (w.reading rest) (.recv (32 - bs.length)))
    (hs : ∀ buf rest sent more, w.incoming = buf ++ rest → buf.length = 32 →
      encodeAck 0 = sent ++ more → more ≠ [] → G ((w.reading rest).sent sent) (.send more)) :
    wp (machine f) G handshake s w (HandshakeOutcome f s w) := by
  unfold handshake
  rw [wp_bind]
  apply wp_mono (wp_readSessionHeader hr)
  intro r s₁ w₁ ho
  cases r with
  | none => exact .noHeader ho
  | some header =>
    cases ho with
    | read buf rest _ hl hi hp =>
      simp only [wp_bind]
      apply wp_mono (wp_sendAll (by simp) fun sent more he hne => hs buf rest sent more hi hl he hne)
      intro ok s₂ w₂ ha
      cases ok with
      | false => exact .noAck rest ha
      | true =>
        cases ha with
        | done => exact .done buf rest header hl hi hp

/-- The output directory has been created, if it was to be, up to a failure. -/
def Made (f : Faults) (options : ReceiverOptions) (dir : Bytes) (fs fs₁ : FileSystem) : Prop :=
  ∃ ps, ps <+: leads dir ∧ (options.createDir = true → ps = leads dir ∨ f.disk) ∧
    (options.createDir = false → ps = []) ∧ fs₁ = fs.mkdirs ps

/-- The directory that is meant by the options. -/
def outputDir (options : ReceiverOptions) (fs : FileSystem) : Bytes :=
  if options.outputDir = [] then fs.currentPath else options.outputDir

inductive OutputOutcome (f : Faults) (options : ReceiverOptions) (s : Refs) (w : Side) :
    Option Bytes → Refs → Side → Prop
  | missing (fs₁ : FileSystem) : Made f options (outputDir options w.host.fs) w.host.fs fs₁ →
      fs₁.isDirectory (outputDir options w.host.fs) = false →
      OutputOutcome f options s w none { s with ec := some .notADirectory }
        (w.on ⟨fs₁, w.host.stream⟩)
  | ready (fs₁ : FileSystem) : Made f options (outputDir options w.host.fs) w.host.fs fs₁ →
      fs₁.isDirectory (outputDir options w.host.fs) →
      OutputOutcome f options s w (some (outputDir options w.host.fs)) s
        (w.on ⟨fs₁, w.host.stream⟩)

theorem always_createOutput {dir : Bytes} :
    Always f (createOutput options dir) s w fun _ s' w' =>
      s' = s ∧ ∃ fs₁, Made f options dir w.host.fs fs₁ ∧ w' = w.on ⟨fs₁, w.host.stream⟩ := by
  unfold createOutput
  split
  · rename_i hc
    apply wp_mono always_createDirectories
    rintro _ _ _ ⟨rfl, ps, hps, hd, rfl⟩
    exact ⟨rfl, _, ⟨ps, hps, fun _ => hd, by simp [hc], rfl⟩, rfl⟩
  · rename_i hc
    rw [Always, wp_pure]
    exact ⟨rfl, w.host.fs, ⟨[], List.nil_prefix, by simp [hc], fun _ => rfl, rfl⟩, rfl⟩

theorem always_findOutput {Q : Bytes → Refs → Side → Prop} (h : Q (outputDir options w.host.fs) s w) :
    Always f (findOutput options) s w Q := by
  unfold findOutput
  unfold outputDir at h
  split
  · rename_i hnil
    rw [if_pos hnil] at h
    rw [always_perform]
    rintro _ ⟨h', i', o'⟩ ⟨a, ⟨rfl, rfl, rfl⟩, rfl, rfl⟩
    exact h
  · rename_i hne
    rwa [if_neg hne] at h

theorem always_openOutput :
    Always f (openOutput options) s w (OutputOutcome f options s w) := by
  unfold openOutput
  rw [Always, wp_bind]
  apply always_findOutput
  rw [wp_bind]
  apply wp_mono always_createOutput
  rintro _ s _ ⟨rfl, fs₁, hm, rfl⟩
  rw [wp_bind]
  apply always_look
  split
  · rename_i hd
    exact .missing fs₁ hm (by simpa using hd)
  · rename_i hd
    exact .ready fs₁ hm (by simpa using hd)

/-- Everything before the record loop. -/
inductive OpenOutcome (f : Faults) (options : ReceiverOptions) (s : Refs) (w : Side) :
    Option (SessionHeader × Bytes) → Refs → Side → Prop
  | noHandshake {s' : Refs} {w' : Side} : HandshakeOutcome f s w none s' w' →
      OpenOutcome f options s w none s' w'
  | noOutput (header : SessionHeader) {s₁ s' : Refs} {w₁ w' : Side} :
      HandshakeOutcome f s w (some header) s₁ w₁ → OutputOutcome f options s₁ w₁ none s' w' →
      OpenOutcome f options s w none s' w'
  | opened (header : SessionHeader) (dir : Bytes) {s₁ s' : Refs} {w₁ w' : Side} :
      HandshakeOutcome f s w (some header) s₁ w₁ → OutputOutcome f options s₁ w₁ (some dir) s' w' →
      OpenOutcome f options s w (some (header, dir)) { s' with progress := 0 } w'

theorem always_openSession : Always f (openSession options) s w (OpenOutcome f options s w) := by
  unfold openSession
  rw [Always, wp_bind]
  apply wp_mono (wp_handshake (fun _ _ _ _ => trivial) fun _ _ _ _ _ _ _ _ => trivial)
  intro r s₁ w₁ hh
  cases r with
  | none => exact .noHandshake hh
  | some header =>
    simp only [wp_bind]
    apply wp_mono always_openOutput
    intro r s₂ w₂ ho
    cases r with
    | none => exact .noOutput header hh ho
    | some dir => exact .opened header dir hh ho

theorem OpenOutcome.header {header header' : SessionHeader} {dir rest t : Bytes}
    (hi : w.incoming ++ t = encodeSessionHeader header ++ rest)
    (h : OpenOutcome f options s w (some (header', dir)) s' w') :
    header' = header ∧ w'.incoming ++ t = rest := by
  cases h with
  | opened _ _ hh ho =>
    cases hh with
    | done buf rest' _ hl hi' hp =>
      rw [hi', List.append_assoc] at hi
      obtain ⟨rfl, hr⟩ := List.append_inj hi (by simp [hl])
      rw [sessionOf_encode] at hp
      cases ho with
      | ready => exact ⟨(Option.some.inj hp).symm, hr⟩

theorem OpenOutcome.ec_ne_none (hs : ¬ f.stall) (h : OpenOutcome f options s w none s' w') :
    s'.ec ≠ none := by
  cases h with
  | noHandshake hh =>
    cases hh with
    | noHeader hr =>
      cases hr with
      | malformed => simp
      | lost hl => cases hl <;> simp
    | noAck rest ha =>
      cases ha with
      | failed e sent _ _ he => exact he.resolve_left hs
  | noOutput header hh ho =>
    cases ho with
    | missing => simp

theorem HandshakeOutcome.host {r : Option SessionHeader} (h : HandshakeOutcome f s w r s' w') :
    w'.host = w.host := by
  cases h with
  | noHeader hr =>
    cases hr with
    | malformed => rfl
    | lost hl => cases hl <;> rfl
  | noAck rest hs => cases hs; rfl
  | done => rfl

theorem OpenOutcome.made {r : Option (SessionHeader × Bytes)} (h : OpenOutcome f options s w r s' w') :
    w'.host.fs = w.host.fs ∨ Made f options (outputDir options w.host.fs) w.host.fs w'.host.fs := by
  cases h with
  | noHandshake hh => exact Or.inl (congrArg Host.fs hh.host)
  | noOutput header hh ho =>
    cases ho with
    | missing fs₁ hm _ => rw [hh.host] at hm; exact Or.inr hm
  | opened header dir hh ho =>
    cases ho with
    | ready fs₁ hm _ => rw [hh.host] at hm; exact Or.inr hm

theorem OpenOutcome.isDirectory {header : SessionHeader} {dir : Bytes}
    (h : OpenOutcome f options s w (some (header, dir)) s' w') :
    dir = outputDir options w.host.fs ∧ w'.host.fs.isDirectory dir ∧
      Made f options dir w.host.fs w'.host.fs := by
  cases h with
  | opened _ _ hh ho =>
    cases ho with
    | ready fs₁ hm hd => rw [hh.host] at hm hd ⊢; exact ⟨rfl, hd, hm⟩

theorem always_elapsed :
    Always f (perform .elapsed) s w fun _ s' w' => s' = s ∧ w' = w := by
  rw [always_perform]
  rintro _ ⟨h', i', o'⟩ ⟨a, ⟨rfl, rfl⟩, rfl, rfl⟩
  exact ⟨rfl, rfl⟩

/-- The trailer does not decide anything. -/
theorem always_finishSession : Always f finishSession s w fun _ s' w' =>
    ∃ ec elapsed rest, rest <:+ w.incoming ∧
      (¬ f.net → ∀ {rest'}, w.incoming = encodeDone ++ rest' → rest = rest' ∧ ec = s.ec) ∧
      w' = w.reading rest ∧
      s' = { s with ec := ec, summary := { s.summary with elapsedSeconds := elapsed } } := by
  unfold finishSession
  rw [Always, wp_bind]
  apply wp_mono always_readDone
  rintro ok s₁ w₁ h
  obtain ⟨ec, rest, hs, hd, rfl, rfl⟩ : ∃ ec rest, rest <:+ w.incoming ∧
      (¬ f.net → ∀ {rest'}, w.incoming = encodeDone ++ rest' → rest = rest' ∧ ec = s.ec) ∧
      s₁ = { s with ec := ec } ∧ w₁ = w.reading rest := by
    rcases h with ⟨buf, rest, hl, hi, rfl, rfl, rfl⟩ | ⟨rfl, hlost⟩
    · refine ⟨_, rest, ⟨buf, hi.symm⟩, fun _ _ hi' => ?_, rfl, rfl⟩
      exact ⟨(List.append_inj (hi.symm.trans hi') hl).2, rfl⟩
    · have hnl : ¬ f.net → ∀ {rest'}, w.incoming ≠ encodeDone ++ rest' := fun hn _ hi' =>
        not_lost hn hi' (by simp) hlost
      rcases hlost with ⟨_⟩ | ⟨e, bs, rest, _, hi, _⟩
      · exact ⟨_, [], List.nil_suffix, fun hn _ hi' => absurd hi' (hnl hn), rfl, rfl⟩
      · exact ⟨_, rest, ⟨bs, hi.symm⟩, fun hn _ hi' => absurd hi' (hnl hn), rfl, rfl⟩
  rw [wp_bind]
  apply wp_mono always_elapsed
  rintro elapsed _ _ ⟨rfl, rfl⟩
  exact ⟨ec, elapsed, rest, hs, hd, rfl, rfl⟩

/-- A property of the session: established by its opening, kept by each iteration, and kept by
the trailer. -/
theorem always_receiveStream {I : Bytes → ℕ → Refs → Side → Prop} {J : Refs → Side → Prop}
    {Q : Bool → Refs → Side → Prop}
    (hno : ∀ {s' w'}, OpenOutcome f options s w none s' w' → Q false s' w')
    (hopen : ∀ {header dir s' w'}, OpenOutcome f options s w (some (header, dir)) s' w' →
      I dir header.totalFiles.toNat s' w')
    (hstep : ∀ {dir n s w ok s' w'}, I dir (n + 1) s w →
      RecordOutcome f options dir s w ok s' w' → if ok then I dir n s' w' else J s' w')
    (hfail : ∀ {s' w'}, J s' w' → Q false s' w')
    (hdone : ∀ {dir s' w'}, I dir 0 s' w' → Always f finishSession s' w' fun _ => Q true) :
    Always f (receiveStream options) s w Q := by
  unfold receiveStream
  rw [Always, wp_bind]
  apply wp_mono always_openSession
  intro r s₁ w₁ ho
  cases r with
  | none => exact hno ho
  | some p =>
    obtain ⟨header, dir⟩ := p
    simp only [wp_bind]
    apply wp_mono (always_receiveRecords hstep (hopen ho))
    intro ok s₂ w₂ hr
    cases ok with
    | false => exact hfail hr
    | true =>
      simp only [Bool.not_true, Bool.false_eq_true, if_false, wp_bind]
      exact hdone hr

end Xfer.Transfer
