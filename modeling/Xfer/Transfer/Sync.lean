import Xfer.Net.Liveness
import Xfer.Transfer.Delivery
import Xfer.Transfer.Files

/-! # Record boundaries

As long as every record has a name or no payload, the receiver stands at the
first byte of a record whenever it starts to read one, and writes no file that
no record names. The payload of a record without a name is not skipped, so the
receiver takes it for what comes next.
-/

namespace Xfer.Transfer

open Net Posix Process Code

variable {f : Faults} {s s' : Refs} {w w' : Side} {options : ReceiverOptions}
  {dir rest : Bytes} {fs₀ : FileSystem} {r : Record}

/-- A session with as many records as its header announces, of any path and payload. -/
structure DocumentedSession where
  header : SessionHeader
  records : List Record
  count : header.totalFiles.toNat = records.length

/-- The stream from the record at `i` on. -/
def DocumentedSession.streamFrom (d : DocumentedSession) (i : ℕ) : Bytes :=
  (d.records.drop i).flatMap Record.encode ++ encodeDone

def DocumentedSession.stream (d : DocumentedSession) : Bytes :=
  encodeSessionHeader d.header ++ d.streamFrom 0

/-- The receiver up to where it starts to read the record at `i`, or the trailer if there are no
more records; `false` if it does not get there. -/
def reach (options : ReceiverOptions) (i : ℕ) : Session Bool := do
  let some (header, dir) ← openSession options | pure false
  receiveRecords options dir (min i header.totalFiles.toNat)

theorem receiveRecords_add (options : ReceiverOptions) (dir : Bytes) (i n : ℕ) :
    receiveRecords options dir (i + n) = (do
      if !(← receiveRecords options dir i) then pure false
      else receiveRecords options dir n) := by
  induction i with
  | zero =>
    rw [Nat.zero_add]
    exact (pure_bind _ _).symm
  | succ i ih =>
    rw [Nat.succ_add, receiveRecords, receiveRecords, ih, bind_assoc]
    congr 1
    funext ok
    cases ok with
    | false => exact (pure_bind _ _).symm
    | true => rfl

/-- The receiver is `reach`, followed by the records that are left and the trailer. -/
theorem receiveStream_eq (options : ReceiverOptions) (i : ℕ) :
    receiveStream options = (do
      let some (header, dir) ← openSession options | pure false
      if !(← receiveRecords options dir (min i header.totalFiles.toNat)) then pure false
      else if !(← receiveRecords options dir (header.totalFiles.toNat - i)) then pure false
      else
        finishSession
        pure true) := by
  unfold receiveStream
  congr 1
  funext r
  cases r with
  | none => rfl
  | some p =>
    obtain ⟨header, dir⟩ := p
    have hn : header.totalFiles.toNat =
        min i header.totalFiles.toNat + (header.totalFiles.toNat - i) := by omega
    simp only
    conv_lhs => rw [hn, receiveRecords_add, bind_assoc]
    congr 1
    funext ok
    cases ok with
    | false => exact pure_bind _ _
    | true => rfl

/-- A record after which the receiver goes on with the next one. -/
def Consumable (r : Record) : Prop := r.path ≠ [] ∨ r.payload = []

/-- The paths that some of the records name. -/
def Named (rs : List Record) (path _content : Bytes) : Prop := ∃ r ∈ rs, r.path = path

theorem Taken.incoming (hi : w.incoming = r.encode ++ rest) (h : Taken f options dir s w s' w') :
    w'.incoming = if r.path = [] then r.payload ++ rest else rest := by
  cases h with
  | bare e rest' he hi' =>
    rw [hi', Record.encode, List.append_assoc] at hi
    obtain ⟨rfl, hr⟩ := encodeFileHeader_inj (by simp [he]) r.fits hi
    rw [if_pos (show r.path = [] from he)]
    exact hr
  | record r' rest' safe fs₁ k stored p hne hi' =>
    obtain ⟨rfl, hr⟩ := Record.encode_inj (hi'.symm.trans hi)
    rw [if_neg hne]
    exact hr

theorem Taken.in_sync_iff (hi : w.incoming = r.encode ++ rest)
    (h : Taken f options dir s w s' w') : w'.incoming = rest ↔ Consumable r := by
  rw [h.incoming hi, Consumable]
  split
  · rename_i hp
    rw [List.append_left_eq_self]
    simp [hp]
  · rename_i hp
    simp [hp]

/-- The receiver stands where the record at `i` begins, and has written files that earlier ones
name. -/
structure InSync (d : DocumentedSession) (rest dir : Bytes) (fs₀ : FileSystem) (i : ℕ)
    (w : Side) : Prop where
  incoming : w.incoming = d.streamFrom i ++ rest
  files : ∀ k, Accounted dir (Named (d.records.take i)) fs₀ w.host.fs k

variable {d : DocumentedSession} {i : ℕ}

theorem DocumentedSession.streamFrom_of_lt (d : DocumentedSession) (hi : i < d.records.length) :
    d.streamFrom i = d.records[i].encode ++ d.streamFrom (i + 1) := by
  unfold streamFrom
  rw [List.drop_eq_getElem_cons hi, List.flatMap_cons, List.append_assoc]

/-- One iteration keeps the receiver in sync, if the record allows it, and in any case writes only
the file that the record names. -/
theorem InSync.step {ok : Bool} (hi : i < d.records.length) (hc : Consumable d.records[i])
    (h : InSync d rest dir fs₀ i w) (ho : RecordOutcome f options dir s w ok s' w') :
    if ok then InSync d rest dir fs₀ (i + 1) w'
    else ∀ k, Accounted dir (Named (d.records.take (i + 1))) fs₀ w'.host.fs k := by
  have hin := h.incoming
  rw [d.streamFrom_of_lt hi, List.append_assoc] at hin
  have hsub : ∀ p c, Named (d.records.take i) p c → Named (d.records.take (i + 1)) p c := by
    rintro p c ⟨r, hr, rfl⟩
    exact ⟨r, (List.take_prefix_take_left (Nat.le_succ i)).subset hr, rfl⟩
  have hfiles : ∀ k, Accounted dir (Named (d.records.take (i + 1))) fs₀ w'.host.fs k := by
    intro k
    have hk := (h.files k).mono hsub
    rcases ho.effect with he | ⟨e, rest', -, hl, hi', he⟩
    · rwa [he]
    · rw [hi', Record.encode, List.append_assoc] at hin
      obtain ⟨rfl, -⟩ := encodeFileHeader_inj hl d.records[i].fits hin
      refine he.accounted hk fun c _ => ⟨d.records[i], ?_, rfl⟩
      rw [List.take_succ_eq_append_getElem hi]
      exact List.mem_append_right _ List.mem_cons_self
  cases ok with
  | false => exact hfiles
  | true => exact ⟨(ho.taken.in_sync_iff hin).mpr hc, hfiles⟩

theorem InSync.receiveRecords (hi : i ≤ d.records.length)
    (hc : ∀ r ∈ d.records.take i, Consumable r) (h : InSync d rest dir fs₀ 0 w) :
    Always f (receiveRecords options dir i) s w fun ok _ w' =>
      (ok = true → InSync d rest dir fs₀ i w') ∧
        ∀ k, Accounted dir (Named (d.records.take i)) fs₀ w'.host.fs k := by
  have hstart : i ≤ i ∧ InSync d rest dir fs₀ (i - i) w := ⟨le_rfl, by rwa [Nat.sub_self]⟩
  refine wp_mono (always_receiveRecords
    (I := fun n _ w => n ≤ i ∧ InSync d rest dir fs₀ (i - n) w)
    (J := fun _ w => ∀ k, Accounted dir (Named (d.records.take i)) fs₀ w.host.fs k) ?_ hstart) ?_
  · rintro n s w ok s' w' ⟨hn, h⟩ ho
    have hlt : i - (n + 1) < d.records.length := by omega
    have hle : i - (n + 1) + 1 ≤ i := by omega
    have hmem : d.records[i - (n + 1)] ∈ d.records.take i :=
      List.mem_take_iff_getElem.mpr ⟨i - (n + 1), by omega, rfl⟩
    have hstep := h.step hlt (hc _ hmem) ho
    cases ok with
    | false =>
      refine fun k => (hstep k).mono ?_
      rintro p c ⟨r, hr, rfl⟩
      exact ⟨r, (List.take_prefix_take_left hle).subset hr, rfl⟩
    | true =>
      rw [show i - (n + 1) + 1 = i - n by omega] at hstep
      exact ⟨by omega, hstep⟩
  · intro ok _ w' hr
    cases ok with
    | false => exact ⟨by simp, hr⟩
    | true => exact ⟨fun _ => hr.2, hr.2.files⟩

variable {host : Host} {out : Bytes}

theorem OpenOutcome.inSync {header : SessionHeader}
    (h : OpenOutcome f options s ⟨host, d.stream ++ rest, out⟩ (some (header, dir)) s' w') :
    header.totalFiles.toNat = d.records.length ∧ dir = outputDir options host.fs ∧
      InSync d rest dir host.fs 0 w' := by
  have hi : d.stream ++ rest ++ [] = encodeSessionHeader d.header ++ (d.streamFrom 0 ++ rest) := by
    rw [DocumentedSession.stream, List.append_nil, List.append_assoc]
  obtain ⟨rfl, hi'⟩ := h.header hi
  rw [List.append_nil] at hi'
  exact ⟨d.count, h.isDirectory.1, hi', fun k => h.accounted _ _ k⟩

/-- As long as the records before it have a name or no payload, the receiver stands at the first
byte of the record at `i` when it starts to read it, and of the trailer in the end, whatever its
faults; and the files that it writes are those that records name. -/
theorem receive_in_sync (f : Faults) (options : ReceiverOptions) (s : Refs) (host : Host)
    (out rest : Bytes) (d : DocumentedSession) (m : ℕ)
    (hc : ∀ r ∈ d.records.take m, Consumable r) :
    (∀ i ≤ m, i ≤ d.records.length →
      Always f (reach options i) s ⟨host, d.stream ++ rest, out⟩ fun ok _ w' =>
        (ok = true → w'.incoming = d.streamFrom i ++ rest) ∧
        ∀ k, Accounted (outputDir options host.fs) (Named (d.records.take i)) host.fs
          w'.host.fs k) ∧
    (d.records.length ≤ m →
      Always f (receiveStream options) s ⟨host, d.stream ++ rest, out⟩ fun _ _ w' =>
        ∀ k, Accounted (outputDir options host.fs) (Named d.records) host.fs w'.host.fs k) := by
  constructor
  · intro i him hi
    have hc' : ∀ r ∈ d.records.take i, Consumable r := fun r hr =>
      hc r ((List.take_prefix_take_left him).subset hr)
    unfold reach
    rw [Always, wp_bind]
    apply wp_mono always_openSession
    intro r s₁ w₁ ho
    cases r with
    | none => exact ⟨by simp, fun k => ho.accounted _ _ k⟩
    | some p =>
      obtain ⟨header, dir⟩ := p
      obtain ⟨hn, rfl, hs⟩ := ho.inSync
      simp only [hn, Nat.min_eq_left hi]
      exact wp_mono (hs.receiveRecords hi hc') fun _ _ _ h => ⟨fun hok => (h.1 hok).incoming, h.2⟩
  · intro hm
    rw [List.take_of_length_le hm] at hc
    unfold receiveStream
    rw [Always, wp_bind]
    apply wp_mono always_openSession
    intro r s₁ w₁ ho
    cases r with
    | none => exact fun k => ho.accounted _ _ k
    | some p =>
      obtain ⟨header, dir⟩ := p
      obtain ⟨hn, rfl, hs⟩ := ho.inSync
      simp only [hn, wp_bind]
      apply wp_mono (hs.receiveRecords le_rfl (by rwa [List.take_length]))
      rintro ok s₂ w₂ ⟨-, hk⟩
      rw [List.take_length] at hk
      cases ok with
      | false => exact hk
      | true =>
        simp only [Bool.not_true, Bool.false_eq_true, if_false, wp_bind]
        apply wp_mono always_finishSession
        rintro _ _ _ ⟨_, _, _, _, _, rfl, _⟩
        exact hk

/-- Without faults, the header of a record without a name is skipped, and nothing else. -/
theorem RecordOutcome.skip {ok : Bool} (hn : ¬ f.net) (hr : r.path = [])
    (hi : w.incoming = r.encode ++ rest) (h : RecordOutcome f options dir s w ok s' w') :
    ok = true ∧ w'.incoming = r.payload ++ rest ∧ w'.host = w.host := by
  have hi₁ := hi
  rw [Record.encode, List.append_assoc] at hi₁
  have heq : ∀ {e : FileEntry} {rest' : Bytes}, e.relPath.length ≤ 0xFFFF →
      w.incoming = encodeFileHeader e ++ rest' → e.relPath = [] := by
    intro e rest' hl he
    obtain ⟨rfl, -⟩ := encodeFileHeader_inj hl r.fits (he.symm.trans hi₁)
    exact hr
  cases h with
  | noHeader hh => cases (hh.of_encode hn r.fits hi₁).1
  | skipped e rest' he hi' =>
    have ht : Taken f options dir s w s (w.reading rest') := .bare e rest' he hi'
    have hin := ht.incoming hi
    rw [if_pos hr] at hin
    exact ⟨rfl, hin, rfl⟩
  | rejected e rest' _ hne hl hi' => exact absurd (heq hl hi') hne
  | refused e rest' _ hne hl hi' => exact absurd (heq hl hi') hne
  | stored e rest' _ hne hl hi' => exact absurd (heq hl hi') hne

def sampleSession : DocumentedSession where
  header := { totalFiles := 2 }
  records := [.small 0x61 0 0x62, .small 0x63 0 0x64]
  count := rfl

theorem sample_in_sync : Always .none (reach { outputDir := rootName } 2) {}
    ⟨⟨.empty, none⟩, sampleSession.stream ++ [], []⟩ fun ok _ w' =>
      (ok = true → w'.incoming = sampleSession.streamFrom 2 ++ []) ∧
      ∀ k, Accounted rootName (Named (sampleSession.records.take 2)) .empty w'.host.fs k :=
  (receive_in_sync .none { outputDir := rootName } {} ⟨.empty, none⟩ [] [] sampleSession 2
    (by simp [sampleSession, Consumable, Record.small])).1 2 le_rfl le_rfl

/-- A record that is itself the payload of another one. -/
def smuggled : Record := .small 0x78 0 0x79

/-- A record without a name but with a payload, and one with a name. -/
def smuggling : DocumentedSession where
  header := { totalFiles := 2 }
  records := [⟨[], 0, smuggled.encode, by decide, by decide⟩, .small 0x62 0 0x63]
  count := rfl

def bareOptions : ReceiverOptions := { outputDir := rootName, createDir := false }

theorem smuggling_stream : smuggling.stream = encodeSessionHeader smuggling.header ++
    (smuggling.records[0].encode ++ smuggling.streamFrom 1) := by
  rw [DocumentedSession.stream, smuggling.streamFrom_of_lt (by decide)]

theorem always_receive_smuggling : Always .none (receiveStream bareOptions) {}
    ⟨⟨.empty, none⟩, smuggling.stream, []⟩ fun ok _ w' =>
      ok = true ∧ store bareOptions rootName .empty smuggled = (w'.host.fs, true) := by
  refine always_receiveStream
    (I := fun dir n _ w => dir = rootName ∧
      (n = 2 ∧ w.incoming = smuggling.records[0].encode ++ smuggling.streamFrom 1 ∧
          w.host.fs = .empty ∨
        n = 1 ∧ w.incoming = smuggled.encode ++ smuggling.streamFrom 1 ∧ w.host.fs = .empty ∨
        n = 0 ∧ store bareOptions rootName .empty smuggled = (w.host.fs, true)))
    (J := fun _ _ => False) ?_ ?_ ?_ (fun h => h.elim) ?_
  · intro s' w' ho
    obtain ⟨-, -, hr⟩ := ho.exact id id id smuggling_stream
    cases hr
  · intro header dir s' w' ho
    obtain ⟨-, rfl, hr⟩ := ho.exact id id id smuggling_stream
    obtain ⟨rfl, rfl⟩ := Prod.mk.inj (Option.some.inj hr)
    exact ⟨rfl, Or.inl ⟨rfl, rfl, rfl⟩⟩
  · rintro dir n s w ok s' w' ⟨rfl, ⟨hn, hi, hfs⟩ | ⟨hn, hi, hfs⟩ | ⟨hn, -⟩⟩ ho
    · obtain ⟨rfl, hi', hh⟩ := ho.skip id rfl hi
      exact ⟨rfl, Or.inr (Or.inl ⟨Nat.succ.inj hn, hi', by rw [hh, hfs]⟩)⟩
    · have hstore := (ho.exact id id (by decide) hi).1
      rw [hfs] at hstore
      have hok : (store bareOptions rootName .empty smuggled).2 = true := by decide
      rw [hstore] at hok
      obtain rfl : ok = true := hok
      exact ⟨rfl, Or.inr (Or.inr ⟨Nat.succ.inj hn, hstore⟩)⟩
    · cases hn
  · rintro dir s' w' ⟨rfl, ⟨hn, -⟩ | ⟨hn, -⟩ | ⟨-, hs⟩⟩
    · cases hn
    · cases hn
    · apply wp_mono always_finishSession
      rintro _ _ _ ⟨_, _, _, _, _, rfl, _⟩
      exact ⟨rfl, hs⟩

/-- After a record without a name, its payload is read as a record, and a file is written that no
record of the session names. -/
theorem nameless_payload_received :
    ¬ Always .none (receiveStream bareOptions) {} ⟨⟨.empty, none⟩, smuggling.stream, []⟩
      fun _ _ w' => ∀ k, Accounted rootName (Named smuggling.records) .empty w'.host.fs k := by
  intro h
  obtain ⟨ok, s', w', ⟨-, hs⟩, hk⟩ := (always_receive_smuggling.and h).exists
  have hfs : w'.host.fs = (store bareOptions rootName .empty smuggled).1 := by rw [hs]
  rw [hfs] at hk
  rcases hk [[0x78]] with hk | ⟨-, hk⟩ | ⟨p, c, ⟨r, hr, rfl⟩, hl, -⟩
  · exact absurd hk (by decide)
  · exact absurd hk (by decide)
  · have hall : ∀ r ∈ smuggling.records,
        (store bareOptions rootName .empty smuggled).1.locate (join rootName r.path) ≠
          some [[0x78]] := by decide
    exact hall r hr hl

end Xfer.Transfer
