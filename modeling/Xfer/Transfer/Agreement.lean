import Xfer.Net.Watching
import Xfer.Transfer.Completeness
import Xfer.Transfer.Shortfall
import Xfer.Transfer.Standstill
import Xfer.Transfer.Storing

/-! # Agreement

No acknowledgement follows the records, so each party judges the session on its
own. Without faults they come to the same verdict if the receiver has something
to read and either can store all of it or is not sent all of it.
-/

namespace Xfer.Transfer

open Net Common Posix Process Code Program FileSystem Relation

variable {fs g F : FileSystem} {std : StdSort} {sock : Socket} {signals : ℕ} {s t : Refs}
  {paths : List Bytes} {options : SenderOptions} {receiving : ReceiverOptions}
  {items : List Collected} {k o : Key} {e : FileEntry} {q : Bytes} {cap : ℕ}

/-- No file of the selection has a path that the receiver refuses or that leads to the output
directory itself, and none a path that runs through that of another one. -/
structure Compatible (fs : FileSystem) (options : SenderOptions) (paths : List Bytes) : Prop where
  acceptable : ∀ {k e}, Entered fs options paths k e → Acceptable e.relPath ∧ e.relPath ≠ dot
  apart : Apart fun rel => ∃ k e, Entered fs options paths k e ∧ e.relPath = rel

/-- The output directory, once it has been created where that is asked for, is empty. -/
structure Vacant (receiving : ReceiverOptions) (g : FileSystem) (o : Key) : Prop where
  leads : (prepareOutput receiving g).locate (outputDir receiving g) = some o
  directory : (prepareOutput receiving g).lookup o = some .dir
  empty : ∀ ns, ns ≠ [] → (prepareOutput receiving g).lookup (o ++ ns) = none
  zero_notMem : 0 ∉ outputDir receiving g

theorem Vacant.isDirectory (h : Vacant receiving g o) :
    (prepareOutput receiving g).isDirectory (outputDir receiving g) :=
  isDirectory_iff.mpr ⟨o, h.leads, h.directory⟩

theorem Vacant.noLinks (h : Vacant receiving g o) : (prepareOutput receiving g).NoLinks o := by
  intro ns tgt hk
  by_cases hns : ns = []
  · rw [hns, List.append_nil, h.directory] at hk
    cases hk
  · rw [h.empty ns hns] at hk
    cases hk

theorem Vacant.room (h : Vacant receiving g o) {ns : List Bytes} (hne : ns ≠ []) :
    (prepareOutput receiving g).Room o ns := by
  refine ⟨fun ms _ => ?_, ?_⟩
  · by_cases hms : ms = []
    · exact Or.inr (by rw [hms, List.append_nil, h.directory])
    · exact Or.inl (h.empty ms hms)
  · rw [h.empty ns hne]
    exact nofun

section Records

theorem proper_of_names {ns : List Bytes} (hv : ∀ n ∈ ns, ValidName n) (hne : ns ≠ [])
    (ha : Acceptable (joinAll ns)) : Proper (joinAll ns) := by
  have hnames := names_joinAll fun n hn => (hv n hn).plain
  exact ⟨ha, by rw [hnames], by rwa [hnames], by rwa [hnames]⟩

theorem relName_proper {b base : Bytes} (h0 : 0 ∉ q) (hq : fs.locate q = some k)
    (hk : fs.lookup k = some (.file b)) (ha : Acceptable (relName fs base q k))
    (hdot : relName fs base q k ≠ dot) : Proper (relName fs base q k) := by
  unfold relName at ha hdot ⊢
  cases hb : fs.find base with
  | none =>
    have hf := validName_filename h0 hq hk
    have hj : joinAll [filename q] = filename q := by simp [joinAll]
    rw [hb] at ha
    simp only at ha ⊢
    rw [← hj] at ha ⊢
    exact proper_of_names (by simpa using hf) (by simp) ha
  | some b =>
    have hv := validName_of_lookup_ne_none (by simp [hk] : fs.lookup k ≠ none)
    rw [hb] at ha hdot
    simp only at ha hdot ⊢
    have hparts := (acceptable_joinAll fun n hn => (plain_of_mem_route hv n hn).1).mp ha
    have hroute : route b k ≠ [dot] := fun he => hdot (by rw [he]; rfl)
    obtain ⟨ns, hne, rfl, -⟩ := (route_iff hv).mp ⟨hparts.1, hparts.2, hroute⟩
    rw [route_below b hne] at ha ⊢
    exact proper_of_names (fun n hn => hv n (List.mem_append_right _ hn)) hne ha

theorem Entered.proper (hz : ∀ p ∈ paths, 0 ∉ p) (h : Entered fs options paths k e)
    (ha : Acceptable e.relPath) (hdot : e.relPath ≠ dot) : Proper e.relPath := by
  obtain ⟨p, hp, c, hb, -, rfl⟩ := h
  obtain ⟨k, b, hl, hk, he⟩ := hb.spec
  rw [he] at ha hdot ⊢
  exact relName_proper (hb.1.zero_notMem (hz p hp)) hl hk ha hdot

theorem Emits.eq {c : Collected} {r r' : SentRecord} (h : Emits fs paths c r)
    (h' : Emits fs paths c r') : r = r' := by
  have hpath : r.path = r'.path := h.path.trans h'.path.symm
  have hpay : r.payload = r'.payload := Option.some.inj (h.payload.symm.trans h'.payload)
  have hcrc : r.crc = r'.crc := by rw [r.genuine, r'.genuine, hpay]
  obtain ⟨⟨path, crc, payload, _, _⟩, _, _⟩ := r
  obtain ⟨⟨path', crc', payload', _, _⟩, _, _⟩ := r'
  obtain rfl : path = path' := hpath
  obtain rfl : crc = crc' := hcrc
  obtain rfl : payload = payload' := hpay
  rfl

end Records

section Judgement

variable {rs : List SentRecord} (hsel : selected std fs options paths = some items)
  (hem : List.Forall₂ (Emits fs paths) items rs)
include hsel hem

theorem entered_of_mem_records {r : SentRecord} (hr : r ∈ rs) :
    ∃ k e, Entered fs options paths k e ∧ e.relPath = r.path := by
  obtain ⟨c, hc, hcr⟩ := exists_of_mem_forall₂ hem hr
  obtain ⟨k, he⟩ := entered_of_mem hsel hc
  exact ⟨k, _, he, hcr.path.symm⟩

theorem Entered.exists_record (h : Entered fs options paths k e) : ∃ r ∈ rs, r.path = e.relPath := by
  obtain ⟨c, hc, hce⟩ := h.exists_item hsel
  obtain ⟨r, hr, hcr⟩ := mem_of_forall₂ hem hc
  exact ⟨r, hr, hcr.path.trans hce⟩

theorem Compatible.proper (h : Compatible fs options paths) (hz : ∀ p ∈ paths, 0 ∉ p)
    {r : SentRecord} (hr : r ∈ rs) : Proper r.path := by
  obtain ⟨k, e, he, hpath⟩ := entered_of_mem_records hsel hem hr
  obtain ⟨ha, hdot⟩ := h.acceptable he
  exact hpath ▸ he.proper hz ha hdot

/-- An empty output directory takes the records exactly if the selection is compatible. -/
theorem accepted_iff (hv : Vacant receiving g o) (hz : ∀ p ∈ paths, 0 ∉ p) :
    (∃ F, Accepted receiving (outputDir receiving g) (prepareOutput receiving g)
      (rs.map (·.toRecord)) F) ↔ Compatible fs options paths := by
  have hl := hv.noLinks
  constructor
  · rintro ⟨F, hF⟩
    have hmem : ∀ {k e}, Entered fs options paths k e →
        ∃ r ∈ rs.map (·.toRecord), r.path = e.relPath := fun he => by
      obtain ⟨r, hr, hpath⟩ := he.exists_record hsel hem
      exact ⟨r.toRecord, List.mem_map.mpr ⟨r, hr, rfl⟩, hpath⟩
    have hacc : ∀ {k e}, Entered fs options paths k e → Acceptable e.relPath ∧ e.relPath ≠ dot :=
      fun he => by
        obtain ⟨r, hr, hpath⟩ := hmem he
        rw [← hpath]
        exact ⟨hF.acceptable r hr, hF.ne_dot hv.leads hv.directory hv.zero_notMem hr⟩
    refine ⟨hacc, ?_⟩
    rintro _ _ ⟨k, e, he, rfl⟩ ⟨k', e', he', rfl⟩ hpre
    refine hF.apart hv.leads hv.directory hv.zero_notMem hl (fun r hr => ?_) _ _ (hmem he) (hmem he') hpre
    obtain ⟨r', hr', rfl⟩ := List.mem_map.mp hr
    obtain ⟨k, e, he, hpath⟩ := entered_of_mem_records hsel hem hr'
    exact hpath ▸ he.proper hz (hacc he).1 (hacc he).2
  · intro h
    refine exists_accepted hv.leads hv.directory hv.zero_notMem hl ?_ ?_
    · intro r hr
      obtain ⟨r', hr', rfl⟩ := List.mem_map.mp hr
      have hp := h.proper hsel hem hz hr'
      exact ⟨hp, hv.room hp.nonempty, fun _ _ => r'.genuine⟩
    · rintro _ _ ⟨r, hr, rfl⟩ ⟨r', hr', rfl⟩ hpre
      obtain ⟨u, hu, rfl⟩ := List.mem_map.mp hr
      obtain ⟨u', hu', rfl⟩ := List.mem_map.mp hr'
      exact h.apart _ _ (entered_of_mem_records hsel hem hu) (entered_of_mem_records hsel hem hu') hpre

theorem deliver_eq_true (hv : Vacant receiving g o) (hz : ∀ p ∈ paths, 0 ∉ p) :
    (deliver receiving g (rs.map (·.toRecord))).2 = true ↔ Compatible fs options paths := by
  rw [← accepted_iff hsel hem hv hz, deliver, if_pos hv.isDirectory]
  simp only [← storeAll_eq_true, Prod.ext_iff, exists_eq_left']

end Judgement

/-- Both parties have returned, with these verdicts. -/
def Verdicts (v v' : Bool) (n : Net Call.Result Host UInt8 (Bool × Refs) (Bool × Refs)) : Prop :=
  ∃ s t, n.left = ret (v, s) ∧ n.right = ret (v', t)

/-- Both parties have returned, with one verdict. -/
def Agreed (n : Net Call.Result Host UInt8 (Bool × Refs) (Bool × Refs)) : Prop :=
  ∃ ok, Verdicts ok ok n

theorem not_inevitably_agreed {n n' : Net Call.Result Host UInt8 (Bool × Refs) (Bool × Refs)}
    (hr : ReflTransGen (Net.Step (kernel .none) cap) n n') (hv : Verdicts true false n') :
    ¬ Inevitably (Net.Step (kernel .none) cap) Agreed n := by
  intro h
  obtain ⟨s, t, ha, hb⟩ := hv
  obtain ⟨ok, s', t', ha', hb'⟩ :=
    h.of_final (fun ⟨_, _, _, ha, hb⟩ => Net.final ha hb) hr (Net.final ha hb)
  obtain ⟨rfl, -⟩ := Prod.mk.inj (ret.inj (ha'.symm.trans ha))
  exact Bool.false_ne_true (Prod.mk.inj (ret.inj (hb.symm.trans hb'))).1

/-- The two parties at the start, on their hosts. -/
def connected (fs g : FileSystem) (std : StdSort) (sock : Socket) (signals : ℕ) (paths : List Bytes)
    (options : SenderOptions) (receiving : ReceiverOptions) (s t : Refs) :
    Net Call.Result Host UInt8 (Bool × Refs) (Bool × Refs) :=
  ⟨(sendPaths std sock signals paths options).run s, ⟨fs, none⟩, (receiveStream receiving).run t,
    ⟨g, none⟩, [], []⟩

section Parties

theorem heeds_sendPaths : Heeds (kernel .none) SenderTurn
    ((sendPaths std sock signals paths options).run s) ⟨⟨fs, none⟩, [], []⟩ :=
  minds_sendPaths (observed_kernel .none) std options rfl rfl

theorem heeds_receiveStream : Heeds (kernel .none) ReceiverTurn ((receiveStream receiving).run t)
    ⟨⟨g, none⟩, [], []⟩ :=
  minds_receiveStream (observed_kernel .none) receiving rfl rfl

theorem interrupted_nil : Interrupted [] := by
  refine ⟨sessionHeader [], [], rfl, by simp, encodeSessionHeader (sessionHeader []), ?_, ?_⟩
  · exact fun h => absurd (congrArg List.length h) (by rw [length_encodeSessionHeader]; decide)
  · rw [List.nil_append, List.flatMap_nil, List.append_nil]

/-- A sender that sends less than a session comes to its verdict, and the receiver refuses. -/
theorem verdicts_of_interrupted (v : Bool) (hcap : 0 < cap)
    (h : ∀ is, Always ⟨True, False, False, False, False⟩ (sendPaths std sock signals paths options) s
      ⟨⟨fs, none⟩, is, []⟩ fun ok _ w' => ok = v ∧ Interrupted w'.outgoing) :
    Inevitably (Net.Step (kernel .none) cap) (Verdicts v false)
      (connected fs g std sock signals paths options receiving s t) := by
  refine Net.inevitably_of_final (kernel_live .none) turns_neverBothWait hcap heeds_sendPaths
    heeds_receiveStream fun n hr hl hr' => ?_
  obtain ⟨a, ha⟩ := hl
  obtain ⟨b, hb⟩ := hr'
  obtain ⟨ux, uy, hp, hq⟩ := Net.apart (kernel_tolerates .none) hr ha hb
  obtain ⟨rfl, hsent⟩ := (h uy).of_exec (hp [])
  have hrefused : Always ⟨True, False, False, False, False⟩ (receiveStream receiving) t
      ⟨⟨g, none⟩, ux, []⟩ fun ok s' _ => ok = false ∧ s'.ec ≠ none :=
    always_receiveStream_interrupted hsent
  have hfalse := (hrefused.of_exec (hq [])).1
  exact ⟨a.2, b.2, ha, hb.trans (by rw [← hfalse])⟩

theorem verdicts_of_not_emits (hs : Addressable fs) (h0 : s.ec = none) (hcap : 0 < cap)
    (hsel : selected std fs options paths = some items) (hl : items.length < 2 ^ 64)
    (hno : ∃ c ∈ items, ∀ r, ¬ Emits fs paths c r) :
    Inevitably (Net.Step (kernel .none) cap) (Verdicts false false)
      (connected fs g std sock signals paths options receiving s t) := by
  refine verdicts_of_interrupted false hcap fun is =>
    wp_mono (always_sendPaths_falters id hs h0 hsel hl hno) ?_
  rintro ok _ w' ⟨hok, sent, hsent, hout⟩
  exact ⟨hok, hout ▸ hsent⟩

theorem verdicts_of_nothing (hs : Addressable fs) (h0 : s.ec = none) (hcap : 0 < cap)
    (hsel : selected std fs options paths = some []) :
    Inevitably (Net.Step (kernel .none) cap) (Verdicts true false)
      (connected fs g std sock signals paths options receiving s t) := by
  refine verdicts_of_interrupted true hcap fun is => wp_mono (always_sendPaths id hs h0) ?_
  rintro ok _ w' (_ | ⟨items, rs, buf, rest, v, hitems, hne⟩ | ⟨items, w', hitems, hne⟩)
  · exact ⟨rfl, interrupted_nil⟩
  · exact absurd (Option.some.inj (hitems.symm.trans hsel)) hne
  · exact absurd (Option.some.inj (hitems.symm.trans hsel)) hne

/-- What the receiver has made of a session of records, of which it has read all if it accepts them,
and more than the header if not. -/
structure Received (receiving : ReceiverOptions) (g : FileSystem) (m : ReceiverSummary)
    (rs : List SentRecord) (b : Bool × Refs) (w : Side) : Prop where
  delivered : deliver receiving g (rs.map (·.toRecord)) = (w.host.fs, b.1)
  gained : b.1 = true → Gained (outputDir receiving g) (rs.map (·.toRecord)) m b.2.summary
  read : if b.1 then w.incoming = [] else w.incoming.length + 32 < (sessionStream rs).length

theorem receiveStream_plays {rs : List SentRecord} (hl : rs.length < 2 ^ 64)
    (hdir : (prepareOutput receiving g).isDirectory (outputDir receiving g))
    {P : Bool × Refs → Side → Prop}
    (hP : ∀ b w, Received receiving g t.summary rs b w → P b w) :
    Plays (kernel .none) ReceiverTurn P (encodeAck 0) ((receiveStream receiving).run t) ⟨g, none⟩ []
      (sessionStream rs) [] := by
  let w : Side := ⟨⟨g, none⟩, sessionStream rs, []⟩
  have hi : w.incoming = encodeSessionHeader (sessionHeader (rs.map (·.entry))) ++
      ((rs.map (·.toRecord)).flatMap Record.encode ++ encodeDone) := by
    rw [List.flatMap_map]
    rfl
  have hlen : (rs.map (·.toRecord)).length =
      (sessionHeader (rs.map (·.entry))).totalFiles.toNat := by
    rw [sessionHeader, List.length_map, List.length_map]
    exact (UInt64.toNat_ofNat_of_lt' hl).symm
  have hnamed : ∀ r ∈ rs.map (·.toRecord), r.path ≠ [] := List.forall_mem_map.mpr fun r _ => r.named
  have hends : Always .none (receiveStream receiving) t w fun ok t' w' =>
      P (ok, t') w' ∧ w'.outgoing = encodeAck 0 := by
    refine wp_mono ((always_receiveStream_deliver id id id hi hlen hnamed).and
      (always_receiveStream_started id id id hi hlen hnamed hdir)) ?_
    rintro ok t' w' ⟨⟨hdel, hout, htrue⟩, hfalse⟩
    refine ⟨hP _ _ ⟨hdel, fun hok => ?_, ?_⟩, hout⟩
    · obtain ⟨⟨elapsed, hs⟩, -⟩ := htrue hok
      rw [hs, summarize_eq]
      exact ⟨rfl, rfl, rfl⟩
    · cases ok with
      | false => exact hfalse rfl
      | true => exact (htrue rfl).2 rfl
  exact ⟨heeds_receiveStream, hends⟩

theorem Received.ok_eq {rs : List SentRecord} {m : ReceiverSummary} {b : Bool × Refs} {w : Side}
    (h : Received receiving g m rs b w) : b.1 = (deliver receiving g (rs.map (·.toRecord))).2 :=
  (congrArg Prod.snd h.delivered).symm

theorem verdicts_of_finished {v v' : Bool}
    {n : Net Call.Result Host UInt8 (Bool × Refs) (Bool × Refs)}
    (h : n.Finished (fun a _ => a.1 = v) fun b _ => b.1 = v') : Verdicts v v' n := by
  obtain ⟨a, b, ha, hb, rfl, rfl⟩ := h
  exact ⟨a.2, b.2, ha, hb⟩

section Whole

variable {rs : List SentRecord} (hsel : selected std fs options paths = some items)
  (hem : List.Forall₂ (Emits fs paths) items rs) (hne : items ≠ [])
include hsel hem hne

theorem sendPaths_plays (signals : ℕ) (hs : Addressable fs) (h0 : s.ec = none) (hsock : sock.valid = true) :
    Plays (kernel .none) SenderTurn (fun a w => a.1 = true ∧ w.incoming = []) (sessionStream rs)
      ((sendPaths std sock signals paths options).run s) ⟨fs, none⟩ [] (encodeAck 0) [] := by
  have hends : Always .none (sendPaths std sock signals paths options) s
      ⟨⟨fs, none⟩, encodeAck 0, []⟩ fun ok _ w' =>
        (ok = true ∧ w'.incoming = []) ∧ w'.outgoing = sessionStream rs := by
    refine wp_mono (always_sendPaths id hs h0) ?_
    rintro ok _ w' (hnone | ⟨items', rs', buf, rest, v, hitems, -, hem', hbuf, hi, -⟩ |
      ⟨items', w', hitems, -, -, hf⟩)
    · rw [hsel] at hnone
      rcases hnone with hnone | hnone
      · cases hnone
      · exact absurd (Option.some.inj hnone) hne
    · obtain rfl := Option.some.inj (hsel.symm.trans hitems)
      obtain rfl : rs = rs' := List.right_unique_forall₂' (fun _ _ _ h h' => h.eq h') hem hem'
      have hrest : rest = [] := by
        have hlen := congrArg List.length hi
        rw [length_encodeAck, List.length_append, hbuf] at hlen
        exact List.length_eq_zero_iff.mp (by omega)
      exact ⟨⟨rfl, hrest⟩, List.nil_append _⟩
    · obtain rfl := Option.some.inj (hsel.symm.trans hitems)
      exfalso
      rcases hf with (h | h | h | h) | ha | ⟨c, hc, hno⟩
      · exact h
      · exact h
      · exact h
      · rw [hsock] at h
        cases h
      · exact ha ⟨encodeAck 0, [], 0, length_encodeAck 0, (List.append_nil _).symm, ackOf_encode 0⟩
      · obtain ⟨r, -, hr⟩ := mem_of_forall₂ hem hc
        exact hno r hr
  exact ⟨heeds_sendPaths, hends⟩

theorem verdicts_of_compatible (hs : Addressable fs) (h0 : s.ec = none) (hsock : sock.valid = true)
    (hcap : 0 < cap) (hv : Vacant receiving g o) (hz : ∀ p ∈ paths, 0 ∉ p) (hl : rs.length < 2 ^ 64)
    (hc : Compatible fs options paths) :
    Inevitably (Net.Step (kernel .none) cap) (Verdicts true true)
      (connected fs g std sock signals paths options receiving s t) := by
  have hok := (deliver_eq_true hsel hem hv hz).mpr hc
  have hend := Net.inevitably (A := fun (a : Bool × Refs) _ => a.1 = true)
    (B := fun (b : Bool × Refs) _ => b.1 = true) (kernel_live .none).responsive turns_neverBothWait hcap
    (sendPaths_plays hsel hem hne signals hs h0 hsock)
    (receiveStream_plays (t := t) hl hv.isDirectory fun b _ h => ⟨h.ok_eq.trans hok, by
      have hread := h.read
      rwa [h.ok_eq.trans hok] at hread⟩)
  exact hend.mono fun _ => verdicts_of_finished

/-- Where what is sent cannot be stored, the sender may have sent all of it before it finds out. -/
theorem exists_verdicts_of_not_compatible (hs : Addressable fs) (h0 : s.ec = none)
    (hsock : sock.valid = true) (hv : Vacant receiving g o) (hz : ∀ p ∈ paths, 0 ∉ p)
    (hl : rs.length < 2 ^ 64) (hc : ¬ Compatible fs options paths) :
    ∃ n, ReflTransGen (Net.Step (kernel .none) ((sessionStream rs).length + 9))
      (connected fs g std sock signals paths options receiving s t) n ∧ Verdicts true false n := by
  have hok : (deliver receiving g (rs.map (·.toRecord))).2 = false :=
    Bool.eq_false_iff.mpr fun htrue => hc ((deliver_eq_true hsel hem hv hz).mp htrue)
  have hack := length_encodeAck 0
  have hX : (sessionStream rs).length < (sessionStream rs).length + 9 := by omega
  have hY : (encodeAck 0).length < (sessionStream rs).length + 9 := by omega
  have hplays : Plays (kernel .none) ReceiverTurn
      (fun b w => b.1 = false ∧ w.incoming.length + 32 < (sessionStream rs).length) (encodeAck 0)
      ((receiveStream receiving).run t) ⟨g, none⟩ [] (sessionStream rs) [] :=
    receiveStream_plays hl hv.isDirectory fun b w h => by
      have hread := h.read
      rw [h.ok_eq.trans hok] at hread
      exact ⟨h.ok_eq.trans hok, hread⟩
  have hopen : ¬ Closed ((receiveStream receiving).run t) := by
    rintro ⟨b, hb⟩
    have hout := congrArg List.length (hb ▸ hplays).ret.2
    rw [hack] at hout
    cases hout
  obtain ⟨n, hr, hfin⟩ := Net.exists_finished (m := 32)
    (A := fun (a : Bool × Refs) _ => a.1 = true) (B := fun (b : Bool × Refs) _ => b.1 = false)
    (kernel_live .none) turns_neverBothWait hX hY (fun hc hturn => (hturn.reading hc).1.le)
    (sendPaths_plays hsel hem hne signals hs h0 hsock) hplays hopen
  exact ⟨n, hr, verdicts_of_finished hfin⟩

end Whole

end Parties

theorem length_selected_le {out : List Collected} (ho : collectPaths fs options paths = some out)
    (hsel : selected std fs options paths = some items) : items.length ≤ out.length := by
  rw [selected, ho] at hsel
  obtain rfl := Option.some.inj hsel
  exact (unique_sublist _).length_le.trans (std.perm out).length_eq.le

/-- Without faults, from any source files to an empty output directory, the two parties always come
to one verdict exactly if some file is selected and the receiver either can store all that is sent
or, whatever the sender chooses among files of one path, is not sent all of it. -/
theorem agreed_iff (hs : Addressable fs) (hz : ∀ p ∈ paths, 0 ∉ p)
    (hex : ∀ p ∈ paths, fs.pathExists p)
    (hl : ∀ out, collectPaths fs options paths = some out → out.length < 2 ^ 64)
    (hv : Vacant receiving g o) :
    (∀ std sock signals cap s t, sock.valid = true → s.ec = none → 0 < cap →
      Inevitably (Net.Step (kernel .none) cap) Agreed
        (connected fs g std sock signals paths options receiving s t)) ↔
    (∃ k e, Entered fs options paths k e) ∧
      (Hopeless fs options paths ∨ Compatible fs options paths) := by
  have hshort : ∀ {std items}, selected std fs options paths = some items →
      items.length < 2 ^ 64 := fun {std items} hsel => by
    obtain ⟨out, ho, -⟩ := Option.map_eq_some_iff.mp hsel
    exact (length_selected_le ho hsel).trans_lt (hl out ho)
  have hpieces : ∀ {std items}, selected std fs options paths = some items →
      (∀ c ∈ items, Deliverable fs paths c.entry) →
      ∃ rs, List.Forall₂ (Emits fs paths) items rs ∧ rs.length < 2 ^ 64 := fun hsel hdel => by
    obtain ⟨rs, hem⟩ := exists_forall₂ fun c hc => (hdel c hc).exists_emits (relPath_ne_nil hsel c hc)
    exact ⟨rs, hem, hem.length_eq ▸ hshort hsel⟩
  constructor
  · intro h
    have hsome : ∃ k e, Entered fs options paths k e := by
      obtain ⟨items, hsel⟩ := Option.ne_none_iff_exists'.mp
        (selected_ne_none hex : selected insertionSort fs options paths ≠ none)
      rcases items with _ | ⟨c, items⟩
      · have hparted : Inevitably (Net.Step (kernel .none) 1) (Verdicts true false)
            (connected fs g insertionSort ⟨0⟩ 0 paths options receiving {} {}) :=
          verdicts_of_nothing hs rfl Nat.one_pos hsel
        obtain ⟨n, hr, hp⟩ := hparted.exists
        have hagree := h insertionSort ⟨0⟩ 0 1 {} {} rfl rfl Nat.one_pos
        exact absurd hagree (not_inevitably_agreed hr hp)
      · obtain ⟨k, he⟩ := entered_of_mem hsel List.mem_cons_self
        exact ⟨k, _, he⟩
    refine ⟨hsome, or_iff_not_imp_left.mpr fun hhope => ?_⟩
    -- an order that puts what can be delivered first
    let std := preferring fun c => Deliverable fs paths c.entry
    obtain ⟨items, hsel⟩ := Option.ne_none_iff_exists'.mp
      (selected_ne_none hex : selected std fs options paths ≠ none)
    obtain ⟨rs, hem, hlen⟩ := hpieces hsel (deliverable_of_not_hopeless hhope hsel)
    have hne : items ≠ [] := by
      rintro rfl
      obtain ⟨k, e, he⟩ := hsome
      obtain ⟨c, hc, -⟩ := he.exists_item hsel
      cases hc
    by_contra hc
    have hagree := h std ⟨0⟩ 0 ((sessionStream rs).length + 9) {} {} rfl rfl (Nat.succ_pos _)
    have hparted : ∃ n, ReflTransGen _ (connected fs g std ⟨0⟩ 0 paths options receiving {} {}) n ∧
        Verdicts true false n :=
      exists_verdicts_of_not_compatible hsel hem hne hs rfl rfl hv hz hlen hc
    obtain ⟨n, hr, hp⟩ := hparted
    exact not_inevitably_agreed hr hp hagree
  · rintro ⟨⟨k, e, he⟩, hcond⟩ std sock signals cap s t hsock h0 hcap
    obtain ⟨items, hsel⟩ := Option.ne_none_iff_exists'.mp
      (selected_ne_none hex : selected std fs options paths ≠ none)
    by_cases hdel : ∀ c ∈ items, Deliverable fs paths c.entry
    · obtain ⟨rs, hem, hlen⟩ := hpieces hsel hdel
      have hne : items ≠ [] := by
        rintro rfl
        obtain ⟨c, hc, -⟩ := he.exists_item hsel
        cases hc
      rcases hcond with ⟨k, e, he, hno⟩ | hc
      · obtain ⟨c, hc, hce⟩ := he.exists_item hsel
        obtain ⟨k', he'⟩ := entered_of_mem hsel hc
        exact absurd (hdel c hc) (hno k' _ he' hce)
      · exact (verdicts_of_compatible hsel hem hne hs h0 hsock hcap hv hz hlen hc).mono
          fun _ h => ⟨true, h⟩
    · have hno : ∃ c ∈ items, ∀ r, ¬ Emits fs paths c r := by
        simp only [not_forall] at hdel
        obtain ⟨c, hc, hno⟩ := hdel
        exact ⟨c, hc, fun r hr => hno hr.deliverable⟩
      exact (verdicts_of_not_emits hs h0 hcap hsel (hshort hsel) hno).mono fun _ h => ⟨false, h⟩

theorem vacant_empty : Vacant { outputDir := rootName } .empty [] := by
  have hsame : prepareOutput { outputDir := rootName } .empty = .empty :=
    prepareOutput_of_isDirectory (by decide)
  refine ⟨by decide, by rw [hsame]; rfl, fun ns hns => ?_, by decide⟩
  obtain ⟨n, ns, rfl⟩ := List.exists_cons_of_ne_nil hns
  rw [hsame]
  rfl

/-- Of an empty directory there is nothing to send, which the sender takes for a success and the
receiver for a connection that breaks off. -/
theorem empty_directory_disagrees : (∀ p ∈ [rootName], FileSystem.empty.pathExists p) ∧
    Vacant { outputDir := rootName } .empty [] ∧
    ∃ n, ReflTransGen (Net.Step (kernel .none) 1) (connected .empty .empty insertionSort ⟨0⟩ 0
      [rootName] { recursive := true } { outputDir := rootName } {} {}) n ∧
      Verdicts true false n := by
  refine ⟨by decide, vacant_empty, ?_⟩
  have hsel : selected insertionSort .empty { recursive := true } [rootName] = some [] := by
    decide
  exact (verdicts_of_nothing addressable_empty rfl Nat.one_pos hsel).exists

theorem nested_agreed_iff : (∀ p ∈ [rootName], nested.pathExists p) ∧
    Vacant { outputDir := rootName } .empty [] ∧
    ((∀ std sock signals cap s t, sock.valid = true → s.ec = none → 0 < cap →
      Inevitably (Net.Step (kernel .none) cap) Agreed
        (connected nested .empty std sock signals [rootName] { recursive := true }
          { outputDir := rootName } s t)) ↔
    (∃ k e, Entered nested { recursive := true } [rootName] k e) ∧
      (Hopeless nested { recursive := true } [rootName] ∨
        Compatible nested { recursive := true } [rootName])) := by
  have hex : ∀ p ∈ [rootName], nested.pathExists p := by decide
  refine ⟨hex, vacant_empty, agreed_iff addressable_nested (by decide) hex (fun out ho => ?_) vacant_empty⟩
  obtain rfl := Option.some.inj (collectPaths_nested.symm.trans ho)
  decide

end Xfer.Transfer
