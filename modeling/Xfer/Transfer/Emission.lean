import Xfer.Transfer.Phases
import Xfer.Transfer.Manifest
import Xfer.Transfer.Records
import Xfer.Transfer.Sending

/-! # What the sender emits

The records of a successful session are those of the manifest, each with what
is read for its entry; and whatever goes wrong on the way is a fault, a missing
acknowledgement or an entry that cannot be sent.
-/

namespace Xfer.Transfer

open Net Common Posix Process Code FileSystem

variable {f : Faults} {G : Side → Call → Prop} {sock : Socket} {signals : ℕ} {s s' : Refs}
  {w w' : Side} {paths : List Bytes} {options : SenderOptions} {fs : FileSystem} {e : FileEntry}
  {es : List FileEntry} {r : Record} {rs : List Record}

/-- The record that is sent for an entry. -/
structure Sends (fs : FileSystem) (paths : List Bytes) (e : FileEntry) (r : Record) : Prop where
  entry : r.entry = e
  payload : readBack fs paths e = some r.payload

theorem Sends.encode (h : Sends fs paths e r) : r.encode = encodeFileHeader e ++ r.payload := by
  rw [Record.encode, h.entry]

theorem exists_sends {p : Bytes} (hp : readBack fs paths e = some p)
    (hl : p.length = e.size.toNat) (hfit : e.relPath.length ≤ 0xFFFF) :
    ∃ r, Sends fs paths e r ∧ r.payload = p := by
  refine ⟨⟨e.relPath, e.crc32, p, hfit, hl ▸ e.size.toNat_lt⟩, ⟨?_, hp⟩, rfl⟩
  rw [Record.entry]
  simp only [hl, UInt64.ofNat_toNat]

theorem Sends.length (h : Sends fs paths e r) : r.payload.length = e.size.toNat := by
  rw [← h.entry, r.toNat_size]

theorem Sends.fits (h : Sends fs paths e r) : e.relPath.length ≤ 0xFFFF := h.entry ▸ r.fits

/-- All that is ever sent for an entry: its header and what is read for it, if its path fits. -/
def offered (fs : FileSystem) (paths : List Bytes) (e : FileEntry) : Bytes :=
  if e.relPath.length ≤ 0xFFFF then encodeFileHeader e ++ (readBack fs paths e).getD [] else []

theorem Sends.offered (h : Sends fs paths e r) : offered fs paths e = r.encode := by
  rw [Transfer.offered, if_pos h.fits, h.payload, Option.getD_some, h.encode]

theorem always_sendRecord (hs : Addressable w.host.fs) :
    Always f (sendRecord sock signals paths options e) s w fun ok _ w' =>
      (ok = true ∧ ∃ r, Sends w.host.fs paths e r ∧ w' = w.sent r.encode) ∨
      (ok = false ∧ (∃ sent, sent <+: offered w.host.fs paths e ∧ w' = w.sent sent) ∧
        (Trouble f sock ∨ ∀ r, ¬ Sends w.host.fs paths e r)) := by
  unfold sendRecord offered
  rw [Always, wp_bind]
  by_cases hfit : e.relPath.length ≤ 0xFFFF
  · rw [if_pos hfit]
    apply wp_mono (always_writeFileHeader hfit)
    rintro _ t _ (_ | ⟨ec, sent, hs, hf, -⟩)
    · simp only [Bool.not_true, Bool.false_eq_true, if_false, wp_bind]
      apply wp_mono always_openEntry
      rintro _ u _ ⟨rfl, ⟨k, rfl, ho, rfl⟩ | ⟨rfl, -, hf⟩⟩
      · simp only [wp_bind]
        apply wp_mono (always_sendFileBytes (w := w.sent _) hs signals _)
        intro ok u w₁ hb
        apply wp_mono always_close
        rintro _ u w₂ ⟨rfl, rfl⟩
        have hread : readBack w.host.fs paths e = payload w.host.fs k e.size := by
          rw [readBack, show opened w.host.fs paths e = some k from ho, Option.bind_some]
        rcases hb with ⟨bs, p, hp, hl⟩ | ⟨ec, p, sent, hs, hf⟩
        · obtain ⟨r, hr, rfl⟩ := exists_sends (hread.trans hp) hl hfit
          exact Or.inl ⟨rfl, r, hr, by rw [World.sent_sent, hr.encode]⟩
        · refine Or.inr ⟨rfl, ⟨_, ?_, World.sent_sent ..⟩, hf.imp_right fun hno r hr => ?_⟩
          · rw [List.prefix_append_right_inj, hread]
            exact hs
          · exact hno _ (hread.symm.trans hr.payload) hr.length
      · refine Or.inr ⟨rfl, ⟨_, List.prefix_append _ _, rfl⟩, ?_⟩
        rcases hf with hf | hno
        · exact Or.inl (Or.inr (Or.inr (Or.inl hf)))
        · refine Or.inr fun r hr => ?_
          have hp := hr.payload
          rw [readBack, show opened w.host.fs paths e = none from hno] at hp
          cases hp
    · exact Or.inr ⟨rfl, ⟨_, hs.trans (List.prefix_append _ _), rfl⟩, Or.inl (hf.imp_right Or.inl)⟩
  · apply wp_mono (always_writeFileHeader_of_long (Nat.lt_of_not_le hfit))
    rintro _ t w ⟨rfl, rfl, rfl⟩
    refine Or.inr ⟨rfl, ⟨[], List.nil_prefix, (World.sent_nil w).symm⟩, Or.inr fun r hr => hfit hr.fits⟩

theorem always_sendRecords (hs : Addressable w.host.fs) (es : List FileEntry) :
    Always f (sendRecords sock signals paths options es) s w fun ok _ w' =>
      (ok = true ∧ ∃ rs, List.Forall₂ (Sends w.host.fs paths) es rs ∧
        w' = w.sent (rs.flatMap Record.encode)) ∨
      (ok = false ∧ (∃ sent, w' = w.sent sent) ∧
        (Trouble f sock ∨ ∃ e ∈ es, ∀ r, ¬ Sends w.host.fs paths e r)) := by
  induction es generalizing s w with
  | nil => exact Or.inl ⟨rfl, [], .nil, (World.sent_nil w).symm⟩
  | cons e es ih =>
    unfold sendRecords
    rw [Always, wp_bind]
    apply wp_mono (always_sendRecord hs)
    rintro _ t _ (⟨rfl, r, hr, rfl⟩ | ⟨rfl, ⟨sent, -, rfl⟩, hf⟩)
    · simp only [Bool.not_true, Bool.false_eq_true, if_false]
      apply wp_mono (ih (w := w.sent r.encode) hs)
      rintro _ t _ (⟨rfl, rs, hrs, rfl⟩ | ⟨rfl, ⟨sent, rfl⟩, hf⟩)
      · refine Or.inl ⟨rfl, r :: rs, .cons hr hrs, ?_⟩
        rw [World.sent_sent, List.flatMap_cons]
      · refine Or.inr ⟨rfl, ⟨_, World.sent_sent ..⟩, hf.imp_right ?_⟩
        rintro ⟨e', he', hno⟩
        exact ⟨e', List.mem_cons_of_mem _ he', hno⟩
    · exact Or.inr ⟨rfl, ⟨sent, rfl⟩, hf.imp_right fun hno => ⟨e, List.mem_cons_self, hno⟩⟩

/-- The peer sends an acknowledgement, and nothing before it. -/
def Acked (w : Side) : Prop :=
  ∃ buf rest v, buf.length = 8 ∧ w.incoming = buf ++ rest ∧ ackOf buf = some v

/-- The session proper succeeds, or fails for a reason. -/
inductive ManifestOutcome (f : Faults) (sock : Socket) (fs : FileSystem) (paths : List Bytes)
    (es : List FileEntry) (w : Side) : Bool → Side → Prop
  | sent (rs : List Record) (buf rest : Bytes) (v : UInt32) :
      List.Forall₂ (Sends fs paths) es rs → buf.length = 8 → w.incoming = buf ++ rest →
      ackOf buf = some v →
      ManifestOutcome f sock fs paths es w true ((w.reading rest).sent
        (encodeSessionHeader (sessionHeader es) ++ (rs.flatMap Record.encode ++ encodeDone)))
  | failed (w' : Side) : w'.host = w.host →
      Trouble f sock ∨ ¬ Acked w ∨ (∃ e ∈ es, ∀ r, ¬ Sends fs paths e r) →
      ManifestOutcome f sock fs paths es w false w'

theorem always_sendRest (hs : Addressable w.host.fs) :
    Always f (do
      startProgress
      if !(← sendRecords sock signals paths options es) then pure false else writeDone) s w
      fun ok _ w' => (ok = true ∧ ∃ rs, List.Forall₂ (Sends w.host.fs paths) es rs ∧
        w' = w.sent (rs.flatMap Record.encode ++ encodeDone)) ∨
      (ok = false ∧ w'.host = w.host ∧
        (Trouble f sock ∨ ∃ e ∈ es, ∀ r, ¬ Sends w.host.fs paths e r)) := by
  simp only [Always, startProgress, wp_bind, wp_modify]
  apply wp_mono (always_sendRecords hs es)
  rintro _ t _ (⟨rfl, rs, hrs, rfl⟩ | ⟨rfl, ⟨sent, rfl⟩, hf⟩)
  · apply wp_mono (wp_sendAll (by simp) fun _ _ _ _ => trivial)
    rintro _ t _ (_ | ⟨ec, sent, -, hf, -⟩)
    · exact Or.inl ⟨rfl, rs, hrs, World.sent_sent ..⟩
    · exact Or.inr ⟨rfl, rfl, Or.inl (hf.imp_right Or.inl)⟩
  · exact Or.inr ⟨rfl, rfl, hf⟩

theorem incoming_of_noRead {c : Call} {r : c.Result} (h : machine f w c r w') (hc : NoRead c) :
    w'.incoming = w.incoming := by
  obtain ⟨a, hk, ha⟩ := h
  cases a with
  | inp bs => exact absurd (reads_of_inp hk) hc
  | eof => exact ha.2.1.trans ha.1.symm
  | hangup => exact ha.elim
  | _ => exact ha.1

theorem wp_sendManifest (hs : Addressable w.host.fs)
    (hh : ∀ sent more, encodeSessionHeader (sessionHeader es) = sent ++ more → more ≠ [] →
      G (w.sent sent) (.send more))
    (ha : ∀ bs rest, w.incoming = bs ++ rest → bs.length < 8 →
      G ((w.sent (encodeSessionHeader (sessionHeader es))).reading rest) (.recv (8 - bs.length)))
    (hg : ∀ {buf rest w' c}, w.incoming = buf ++ rest → buf.length = 8 → w'.incoming = rest →
      NoRead c → G w' c) :
    wp (machine f) G (sendManifest sock signals paths options es) s w fun ok _ w' =>
      ManifestOutcome f sock w.host.fs paths es w ok w' := by
  unfold sendManifest
  rw [wp_bind]
  apply wp_mono (wp_sendAll (by simp) hh)
  rintro _ t _ (_ | ⟨ec, sent, -, hf, -⟩)
  · simp only [Bool.not_true, Bool.false_eq_true, if_false, wp_bind]
    apply wp_mono (wp_readAck ha)
    intro r t w₁ hr
    cases r with
    | none =>
      have hw₁ : w₁.host = w.host := by
        cases hr with
        | malformed => rfl
        | lost hl => cases hl <;> rfl
      refine .failed _ hw₁ ?_
      by_cases hf : f.net
      · exact Or.inl (Or.inl hf)
      · refine Or.inr (Or.inl ?_)
        rintro ⟨buf, rest, v, hl, hi, hv⟩
        have hi' : (w.sent (encodeSessionHeader (sessionHeader es))).incoming = buf ++ rest := hi
        cases (hr.of_encode hf hl hi' hv).1
    | some v =>
      cases hr with
      | read buf rest _ hl hi hv =>
        simp only
        have hi' : w.incoming = buf ++ rest := hi
        have honly := (oblivious_sendRest sock signals paths options es).only
        refine honly.guard (I := fun w => w.incoming = rest) ?_ rfl
          (fun hw hc hm => (incoming_of_noRead hm hc).trans hw) fun hw hc => hg hi' hl hw hc
        refine wp_mono (always_sendRest (w := (w.sent _).reading rest) hs) ?_
        rintro ok t w' (⟨rfl, rs, hrs, rfl⟩ | ⟨rfl, hw, hf⟩)
        · rw [World.reading_sent, World.sent_sent]
          exact .sent rs buf rest v hrs hl hi' hv
        · exact .failed _ hw (hf.imp_right Or.inr)
  · exact .failed _ rfl (Or.inl (hf.imp_right Or.inl))

/-- The record that a file of the manifest becomes. -/
structure Emits (fs : FileSystem) (paths : List Bytes) (c : Collected) (r : SentRecord) : Prop where
  path : r.path = c.entry.relPath
  payload : readBack fs paths c.entry = some r.payload
  length : r.payload.length = c.entry.size.toNat

theorem emits_of_sends {c : Collected} {e' : FileEntry} (hn : c.entry.relPath ≠ [])
    (h : summed fs paths c.entry e') (hr : Sends fs paths e' r) :
    ∃ r' : SentRecord, Emits fs paths c r' ∧ r'.toRecord = r := by
  obtain ⟨p, hp, rfl⟩ := h
  have hpay : readBack fs paths c.entry = some r.payload := hr.payload
  obtain rfl := Option.some.inj (hp.symm.trans hpay)
  have hent := hr.entry
  have hpath : r.path = c.entry.relPath := congrArg FileEntry.relPath hent
  exact ⟨⟨r, hpath ▸ hn, congrArg FileEntry.crc32 hent⟩, ⟨hpath, hpay, hr.length⟩, rfl⟩

theorem Emits.sends {c : Collected} {e' : FileEntry} {r : SentRecord} (h : Emits fs paths c r)
    (hs : summed fs paths c.entry e') : Sends fs paths e' r.toRecord := by
  obtain ⟨p, hp, rfl⟩ := hs
  obtain rfl := Option.some.inj (hp.symm.trans h.payload)
  refine ⟨?_, h.payload⟩
  rw [Record.entry, h.path, h.length, r.genuine, UInt64.ofNat_toNat]

/-- The bytes of a session with these records. -/
def sessionStream (rs : List SentRecord) : Bytes :=
  encodeSessionHeader (sessionHeader (rs.map (·.entry))) ++ (rs.flatMap (·.encode) ++ encodeDone)

theorem exists_emits {items : List Collected} (hn : ∀ c ∈ items, c.entry.relPath ≠ [])
    (hes : List.Forall₂ (summed fs paths) (items.map Collected.entry) es)
    (hrs : List.Forall₂ (Sends fs paths) es rs) :
    ∃ rs' : List SentRecord, List.Forall₂ (Emits fs paths) items rs' ∧
      rs'.map (·.toRecord) = rs ∧ rs'.map (·.entry) = es := by
  induction items generalizing es rs with
  | nil =>
    cases hes
    cases hrs
    exact ⟨[], .nil, rfl, rfl⟩
  | cons c items ih =>
    obtain ⟨hc, hn⟩ := List.forall_mem_cons.mp hn
    cases hes with
    | cons he hes =>
      cases hrs with
      | cons hr hrs =>
        obtain ⟨rs', hem, hrec, hent⟩ := ih hn hes hrs
        obtain ⟨r', hem', rfl⟩ := emits_of_sends hc he hr
        exact ⟨r' :: rs', .cons hem' hem, by rw [List.map_cons, hrec],
          by rw [List.map_cons, hent, hr.entry]⟩

/-- The sender has nothing to send, or sends a session, or fails for a reason. -/
inductive PathsOutcome (f : Faults) (std : StdSort) (sock : Socket) (options : SenderOptions)
    (paths : List Bytes) (w : Side) : Bool → Side → Prop
  | nothing : selected std w.host.fs options paths = none ∨
      selected std w.host.fs options paths = some [] → PathsOutcome f std sock options paths w true w
  | sent (items : List Collected) (rs : List SentRecord) (buf rest : Bytes) (v : UInt32) :
      selected std w.host.fs options paths = some items → items ≠ [] →
      List.Forall₂ (Emits w.host.fs paths) items rs → buf.length = 8 →
      w.incoming = buf ++ rest → ackOf buf = some v →
      PathsOutcome f std sock options paths w true ((w.reading rest).sent (sessionStream rs))
  | failed (items : List Collected) (w' : Side) :
      selected std w.host.fs options paths = some items → items ≠ [] → w'.host = w.host →
      Trouble f sock ∨ ¬ Acked w ∨ (∃ c ∈ items, ∀ r, ¬ Emits w.host.fs paths c r) →
      PathsOutcome f std sock options paths w false w'

theorem relPath_ne_nil {std : StdSort} {items : List Collected}
    (h : selected std fs options paths = some items) : ∀ c ∈ items, c.entry.relPath ≠ [] := by
  intro c hc
  obtain ⟨p, -, hb⟩ := because_of_mem_selected h hc
  obtain ⟨k, d, -, -, hne, hc⟩ := collectFile_eq_some.mp hb.2
  rw [hc]
  exact hne

theorem exists_of_mem_forall₂ {α β : Type} {R : α → β → Prop} {as : List α} {bs : List β} {b : β}
    (h : List.Forall₂ R as bs) (hb : b ∈ bs) : ∃ a ∈ as, R a b := by
  induction h with
  | nil => cases hb
  | cons hr _ ih =>
    rcases List.mem_cons.mp hb with rfl | hb
    · exact ⟨_, List.mem_cons_self, hr⟩
    · obtain ⟨a, ha, hab⟩ := ih hb
      exact ⟨a, List.mem_cons_of_mem _ ha, hab⟩

theorem mem_of_forall₂ {α β : Type} {R : α → β → Prop} {as : List α} {bs : List β} {a : α}
    (h : List.Forall₂ R as bs) (ha : a ∈ as) : ∃ b ∈ bs, R a b :=
  exists_of_mem_forall₂ h.flip ha

theorem exists_forall₂ {α β : Type} {R : α → β → Prop} {as : List α} (h : ∀ a ∈ as, ∃ b, R a b) :
    ∃ bs, List.Forall₂ R as bs := by
  induction as with
  | nil => exact ⟨[], .nil⟩
  | cons a as ih =>
    obtain ⟨⟨b, hb⟩, has⟩ := List.forall_mem_cons.mp h
    obtain ⟨bs, hbs⟩ := ih has
    exact ⟨b :: bs, .cons hb hbs⟩

/-- What becomes of the sender's entries becomes of the items that they come from. -/
theorem ManifestOutcome.toPaths {std : StdSort} {items : List Collected} {ok : Bool}
    (h : selected std w.host.fs options paths = some items) (hne : items ≠ [])
    (hes : List.Forall₂ (summed w.host.fs paths) (items.map Collected.entry) es)
    (ho : ManifestOutcome f sock w.host.fs paths es w ok w') :
    PathsOutcome f std sock options paths w ok w' := by
  cases ho with
  | sent rs buf rest v hrs hl hi hv =>
    obtain ⟨rs', hem, rfl, hent⟩ := exists_emits (relPath_ne_nil h) hes hrs
    have hbody : (rs'.map (·.toRecord)).flatMap Record.encode = rs'.flatMap (·.encode) :=
      List.flatMap_map ..
    have hout : PathsOutcome f std sock options paths w true _ :=
      .sent items rs' buf rest v h hne hem hl hi hv
    rw [sessionStream, hent, ← hbody] at hout
    exact hout
  | failed w' hw hf =>
    refine .failed items w' h hne hw (hf.imp_right (Or.imp_right ?_))
    rintro ⟨e', he', hno⟩
    obtain ⟨c, hc, hsum⟩ := exists_of_mem_forall₂ (List.forall₂_map_left_iff.mp hes) he'
    exact ⟨c, hc, fun r hr => hno _ (hr.sends hsum)⟩

theorem wp_local {α : Type} {x : Session α} {Q : α → Refs → Side → Prop} (hx : Only Local x)
    (hl : ∀ {w c}, Local c → G w c) (h : Always f x s w Q) : wp (machine f) G x s w Q :=
  hx.guard (I := fun _ => True) h trivial (fun _ _ _ => trivial) fun _ hc => hl hc

theorem not_emits_of_readBack {c : Collected} (h : readBack fs paths c.entry = none)
    (r : SentRecord) : ¬ Emits fs paths c r := fun hr => by
  have hp := hr.payload
  rw [h] at hp
  cases hp

/-- Where the guard allows what each phase does, the sender meets it, and the records it sends
are those of the manifest. -/
theorem wp_sendPaths {std : StdSort} (hf : ¬ f.scan) (hs : Addressable w.host.fs) (h0 : s.ec = none)
    (hl : ∀ {w c}, Local c → G w c)
    (hh : ∀ es sent more, encodeSessionHeader (sessionHeader es) = sent ++ more → more ≠ [] →
      G (w.sent sent) (.send more))
    (ha : ∀ es bs rest, w.incoming = bs ++ rest → bs.length < 8 →
      G ((w.sent (encodeSessionHeader (sessionHeader es))).reading rest) (.recv (8 - bs.length)))
    (hg : ∀ {buf rest w' c}, w.incoming = buf ++ rest → buf.length = 8 → w'.incoming = rest →
      NoRead c → G w' c) :
    wp (machine f) G (sendPaths std sock signals paths options) s w fun ok _ w' =>
      PathsOutcome f std sock options paths w ok w' := by
  unfold sendPaths
  rw [wp_bind]
  apply wp_mono (wp_local (local_of_looks (only_collectFiles std options paths)) hl
    (always_collectFiles hf))
  rintro es t w₁ ⟨rfl, rfl, hec⟩
  split
  · rename_i hnil
    exact .nothing (manifestOf_eq_nil.mp hnil)
  · rename_i hne
    obtain ⟨items, hsel⟩ : ∃ items, selected std w₁.host.fs options paths = some items := by
      rcases hsel : selected std w₁.host.fs options paths with _ | items
      · rw [hsel] at hne
        exact absurd rfl hne
      · exact ⟨items, rfl⟩
    have hman : manifestOf (selected std w₁.host.fs options paths) = items.map Collected.entry := by
      rw [hsel]
      rfl
    rw [hman] at hne ⊢
    obtain rfl := hec (by simp [hsel])
    have hitems : items ≠ [] := fun he => hne (he ▸ rfl)
    rw [wp_bind]
    apply wp_mono (wp_local (local_of_looks (only_computeCrcs paths _)) hl
      (always_computeCrcs hs h0 _))
    rintro r t w₂ ⟨rfl, ⟨es', rfl, hes, rfl⟩ | ⟨rfl, -, hf⟩⟩
    · refine wp_mono (wp_sendManifest hs (hh es') (ha es') hg) ?_
      exact fun ok _ w' ho => ho.toPaths hsel hitems hes
    · refine .failed items w₂ hsel hitems rfl (hf.imp (fun hr => Or.inr (Or.inr (Or.inl hr))) ?_)
      rintro ⟨e, he, hno⟩
      obtain ⟨c, hc, rfl⟩ := List.mem_map.mp he
      exact Or.inr ⟨c, hc, not_emits_of_readBack hno⟩

theorem always_sendPaths {std : StdSort} (hf : ¬ f.scan) (hs : Addressable w.host.fs)
    (h0 : s.ec = none) : Always f (sendPaths std sock signals paths options) s w fun ok _ w' =>
      PathsOutcome f std sock options paths w ok w' :=
  wp_sendPaths hf hs h0 (fun _ => trivial) (fun _ _ _ _ _ => trivial) (fun _ _ _ _ _ => trivial)
    fun _ _ _ _ => trivial

theorem always_sumEntry_of_ec (hs : Addressable w.host.fs) (h : s.ec ≠ none) :
    Always f (sumEntry paths e) s w fun r _ _ => r = none := by
  apply wp_mono (always_sumEntry_spec hs e)
  rintro r t w' ⟨-, ⟨_, -, -, -, h0⟩ | ⟨hr, -⟩⟩
  · exact absurd h0 h
  · exact hr

theorem always_computeCrcs_of_ec (hs : Addressable w.host.fs) (h : s.ec ≠ none) (hne : es ≠ []) :
    Always f (computeCrcs paths es) s w fun r _ _ => r = none := by
  obtain ⟨e, es, rfl⟩ := List.exists_cons_of_ne_nil hne
  rw [(pass_computeCrcs paths).cons, Always, wp_bind]
  apply wp_mono (always_sumEntry_of_ec hs h)
  rintro _ t w rfl
  exact rfl

theorem always_sendPaths_true {std : StdSort} (hf : ¬ f.scan) (hs : Addressable w.host.fs) :
    Always f (sendPaths std sock signals paths options) s w fun ok _ w' =>
      ok = true → PathsOutcome f std sock options paths w true w' := by
  by_cases h0 : s.ec = none
  · refine wp_mono (always_sendPaths hf hs h0) ?_
    rintro ok _ w' ho rfl
    exact ho
  · unfold sendPaths
    rw [Always, wp_bind]
    apply wp_mono (always_collectFiles hf)
    rintro es t w ⟨rfl, rfl, hec⟩
    split
    · rename_i hnil
      exact fun _ => .nothing (manifestOf_eq_nil.mp hnil)
    · rename_i hne
      obtain rfl := hec fun hsel => hne (manifestOf_eq_nil.mpr (Or.inl hsel))
      rw [wp_bind]
      apply wp_mono (always_computeCrcs_of_ec hs h0 hne)
      rintro _ t w rfl
      exact fun h => by cases h

end Xfer.Transfer
