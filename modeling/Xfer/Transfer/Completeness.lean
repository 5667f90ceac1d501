import Xfer.Net.Liveness
import Xfer.Transfer.Emission

/-! # Completeness of a send

If the sender reports success, everything that its sources stand for should
have gone out. A source that does not exist empties the manifest, and files of
one relative path share an entry, so this depends on the sources.
-/

namespace Xfer.Transfer

open Net Common Posix Process Code FileSystem

variable {f : Faults} {sock : Socket} {signals : ℕ} {s : Refs} {w w' : Side} {paths : List Bytes}
  {options : SenderOptions} {fs : FileSystem} {std : StdSort} {items : List Collected}
  {c c' : Collected} {e : FileEntry} {k k' : Key} {b p rel : Bytes} {rs rs' : List SentRecord}

section Wire

theorem eq_of_toRecord {r r' : SentRecord} (h : r.toRecord = r'.toRecord) : r = r' := by
  obtain ⟨r, hn, hg⟩ := r
  obtain ⟨r', hn', hg'⟩ := r'
  obtain rfl : r = r' := h
  rfl

theorem body_inj (h : rs.flatMap (·.encode) ++ encodeDone = rs'.flatMap (·.encode) ++ encodeDone) :
    rs = rs' := by
  have hshort : ∀ {r : SentRecord} {rs : List SentRecord},
      encodeDone ≠ (r :: rs).flatMap (·.encode) ++ encodeDone := by
    intro r rs he
    have hl := congrArg List.length he
    simp only [List.flatMap_cons, List.length_append, Record.length_encode, length_encodeDone] at hl
    omega
  induction rs generalizing rs' with
  | nil =>
    cases rs' with
    | nil => rfl
    | cons r' rs' => exact absurd h hshort
  | cons r rs ih =>
    cases rs' with
    | nil => exact absurd h.symm hshort
    | cons r' rs' =>
      simp only [List.flatMap_cons, List.append_assoc] at h
      obtain ⟨hr, h⟩ := Record.encode_inj h
      rw [eq_of_toRecord hr, ih h]

/-- The bytes of a session tell which records it has. -/
theorem sessionStream_inj (h : sessionStream rs = sessionStream rs') : rs = rs' := by
  unfold sessionStream at h
  exact body_inj (List.append_inj h (by rw [length_encodeSessionHeader, length_encodeSessionHeader])).2

/-- What is on the wire: a session, or nothing where there is nothing to send. -/
def wire (rs : List SentRecord) : Bytes := if rs = [] then [] else sessionStream rs

theorem sessionStream_ne_nil (rs : List SentRecord) : sessionStream rs ≠ [] := by
  intro h
  have hl := congrArg List.length h
  rw [sessionStream, List.length_append, length_encodeSessionHeader, List.length_nil] at hl
  omega

theorem wire_inj (h : wire rs = wire rs') : rs = rs' := by
  unfold wire at h
  split_ifs at h with h₁ h₂ h₂
  · rw [h₁, h₂]
  · exact absurd h.symm (sessionStream_ne_nil rs')
  · exact absurd h (sessionStream_ne_nil rs)
  · exact sessionStream_inj h

end Wire

section Preference

/-- Sort by relative path, and put items with the property before others of the same path. -/
def Before (D : Collected → Prop) (a b : Collected) : Prop :=
  a.entry.relPath < b.entry.relPath ∨ a.entry.relPath = b.entry.relPath ∧ (D b → D a)

variable {D : Collected → Prop}

theorem Before.relPath_le {a b : Collected} (h : Before D a b) :
    a.entry.relPath ≤ b.entry.relPath :=
  h.elim List.le_of_lt fun he => he.1 ▸ List.le_refl _

instance : Std.Total (Before D) := by
  refine ⟨fun a b => ?_⟩
  rcases List.le_total a.entry.relPath b.entry.relPath with h | h
  · rcases List.le_iff_lt_or_eq.mp h with h | h
    · exact Or.inl (Or.inl h)
    · by_cases ha : D a
      · exact Or.inl (Or.inr ⟨h, fun _ => ha⟩)
      · exact Or.inr (Or.inr ⟨h.symm, fun hd => absurd hd ha⟩)
  · rcases List.le_iff_lt_or_eq.mp h with h | h
    · exact Or.inr (Or.inl h)
    · by_cases ha : D a
      · exact Or.inl (Or.inr ⟨h.symm, fun _ => ha⟩)
      · exact Or.inr (Or.inr ⟨h, fun hd => absurd hd ha⟩)

instance : IsTrans Collected (Before D) := by
  refine ⟨fun a b c hab hbc => ?_⟩
  rcases hab with hab | ⟨hab, hd⟩
  · rcases List.le_iff_lt_or_eq.mp hbc.relPath_le with hbc | hbc
    · exact Or.inl (List.lt_trans hab hbc)
    · exact Or.inl (hbc ▸ hab)
  · rcases hbc with hbc | ⟨hbc, hd'⟩
    · exact Or.inl (hab ▸ hbc)
    · exact Or.inr ⟨hab.trans hbc, hd ∘ hd'⟩

open Classical in
/-- One of the functions that sort; of several items with one path it puts one with the property
first. -/
noncomputable def preferring (D : Collected → Prop) : StdSort where
  sort := List.insertionSort (Before D)
  perm := List.perm_insertionSort _
  sorted l := (List.pairwise_insertionSort _ l).imp fun h => List.not_lt.mpr h.relPath_le

theorem pairwise_preferring (D : Collected → Prop) (l : List Collected) :
    ((preferring D).sort l).Pairwise (Before D) := by
  classical exact List.pairwise_insertionSort _ l

/-- Of equal neighbours, `std::unique` leaves the first. -/
theorem before_of_mem_unique {l : List Collected} (hl : l.Pairwise (Before D)) (hc : c ∈ unique l)
    (hc' : c' ∈ l) (he : c'.entry.relPath = c.entry.relPath) : Before D c c' := by
  have hrefl : ∀ {a : Collected}, Before D a a := Or.inr ⟨rfl, id⟩
  cases l with
  | nil => cases hc
  | cons a l =>
    unfold unique at hc
    rw [List.destutter_cons'] at hc
    induction l generalizing a c c' with
    | nil =>
      rw [List.mem_singleton.mp hc, List.mem_singleton.mp hc']
      exact hrefl
    | cons b l ih =>
      obtain ⟨ha, hl'⟩ := List.pairwise_cons.mp hl
      rw [List.destutter'_cons] at hc
      split at hc
      · rename_i hab
        rcases List.mem_cons.mp hc with rfl | hcu
        · rcases List.mem_cons.mp hc' with rfl | hc'
          · exact hrefl
          · exact ha c' hc'
        · rcases List.mem_cons.mp hc' with rfl | hc'
          · -- an item after a different neighbour cannot have the same path
            have hm := (List.destutter'_sublist l _ b).subset hcu
            have hcb := (ha b List.mem_cons_self).relPath_le
            have hbc : b.entry.relPath ≤ c.entry.relPath := by
              rcases List.mem_cons.mp hm with rfl | hm
              · exact List.le_refl _
              · exact ((List.pairwise_cons.mp hl').1 c hm).relPath_le
            exact absurd (List.le_antisymm hcb (he ▸ hbc)) hab
          · exact ih he b hl' hcu hc'
      · rename_i hab
        rw [ne_eq, not_not] at hab
        have hal : (a :: l).Pairwise (Before D) := hl.sublist ((List.sublist_cons_self b l).cons_cons a)
        rcases List.mem_cons.mp hc' with rfl | hc'
        · exact ih he _ hal hc List.mem_cons_self
        · rcases List.mem_cons.mp hc' with rfl | hc'
          · have hca := ih (hab.trans he) a hal hc List.mem_cons_self
            exact trans_of (Before D) hca (ha _ List.mem_cons_self)
          · exact ih he a hal hc (List.mem_cons_of_mem _ hc')

theorem selected_preferring (h : selected (preferring D) fs options paths = some items)
    (hD : ∀ p ∈ paths, ∀ c, Because fs options p c → ∃ p' ∈ paths, ∃ c', Because fs options p' c' ∧
      c'.entry.relPath = c.entry.relPath ∧ D c') : ∀ c ∈ items, D c := by
  intro c hc
  obtain ⟨p, hp, hb⟩ := because_of_mem_selected h hc
  obtain ⟨p', hp', c', hb', he, hd⟩ := hD p hp c hb
  obtain ⟨out, ho, rfl⟩ := Option.map_eq_some_iff.mp h
  have hm : c' ∈ (preferring D).sort out :=
    ((preferring D).perm out).symm.subset ((mem_collectPaths ho).mpr ⟨p', hp', hb'⟩)
  rcases before_of_mem_unique (pairwise_preferring D out) hc hm he with hlt | ⟨-, himp⟩
  · exact absurd (he ▸ hlt) (List.lt_irrefl _)
  · exact himp hd

end Preference

/-- The file at `k`, which holds `b`, is named by a source or lies below one. -/
def Selects (fs : FileSystem) (paths : List Bytes) (k : Key) (b : Bytes) : Prop :=
  fs.lookup k = some (.file b) ∧ ∃ p ∈ paths, ∃ o, fs.locate p = some o ∧ o <+: k

/-- The file at `k` is entered because of one of the sources. -/
def Entered (fs : FileSystem) (options : SenderOptions) (paths : List Bytes) (k : Key)
    (e : FileEntry) : Prop :=
  ∃ p ∈ paths, ∃ c, Because fs options p c ∧ fs.locate c.onDisk = some k ∧ c.entry = e

/-- The entry fits into a header, and as much as it announces is read for it. -/
def Deliverable (fs : FileSystem) (paths : List Bytes) (e : FileEntry) : Prop :=
  e.relPath.length ≤ 0xFFFF ∧ ∃ b, readBack fs paths e = some b ∧ b.length = e.size.toNat

/-- Everything that the sources stand for is among the records, each file in a record of its own. -/
structure Exhaustive (fs : FileSystem) (options : SenderOptions) (paths : List Bytes)
    (rs : List SentRecord) : Prop where
  exist : ∀ p ∈ paths, fs.pathExists p
  sent : ∀ {k b}, Selects fs paths k b → ∃ r ∈ rs, r.payload = b
  apart : ∀ {r k k' e e'}, r ∈ rs → Entered fs options paths k e → Entered fs options paths k' e' →
    e.relPath = r.path → e'.relPath = r.path → k = k'

/-- Under some relative path, no file that is entered can be delivered. -/
def Hopeless (fs : FileSystem) (options : SenderOptions) (paths : List Bytes) : Prop :=
  ∃ k e, Entered fs options paths k e ∧ ∀ k' e', Entered fs options paths k' e' →
    e'.relPath = e.relPath → ¬ Deliverable fs paths e'

/-- No two files are entered under one relative path. -/
def Separate (fs : FileSystem) (options : SenderOptions) (paths : List Bytes) : Prop :=
  ∀ k e k' e', Entered fs options paths k e → Entered fs options paths k' e' →
    e.relPath = e'.relPath → k = k'

/-- What each file holds is read back for some entry. -/
def Retrievable (fs : FileSystem) (options : SenderOptions) (paths : List Bytes) : Prop :=
  ∀ k b, Selects fs paths k b →
    ∃ k' e, Entered fs options paths k' e ∧ readBack fs paths e = some b

section Entries

variable {e' : FileEntry} {r : SentRecord}

theorem Entered.eq (h : Entered fs options paths k e) (h' : Entered fs options paths k e')
    (he : e.relPath = e'.relPath) : e = e' := by
  obtain ⟨p, -, c, hc, hl, rfl⟩ := h
  obtain ⟨p', -, c', hc', hl', rfl⟩ := h'
  obtain ⟨k₁, b, hl₁, hk, hce⟩ := hc.spec
  obtain ⟨k₂, b', hl₂, hk', hce'⟩ := hc'.spec
  obtain ⟨⟩ := hl.symm.trans hl₁
  obtain ⟨⟩ := hl'.symm.trans hl₂
  obtain ⟨⟩ := hk.symm.trans hk'
  rw [hce, hce'] at he ⊢
  exact congrArg (fun rel => ({ relPath := rel, size := UInt64.ofNat b.length } : FileEntry)) he

theorem entered_of_mem (h : selected std fs options paths = some items) (hc : c ∈ items) :
    ∃ k, Entered fs options paths k c.entry := by
  obtain ⟨p, hp, hb⟩ := because_of_mem_selected h hc
  obtain ⟨k, -, hl, -⟩ := hb.spec
  exact ⟨k, p, hp, c, hb, hl, rfl⟩

theorem Entered.exists_item (h : selected std fs options paths = some items)
    (he : Entered fs options paths k e) : ∃ c ∈ items, c.entry.relPath = e.relPath := by
  obtain ⟨p, hp, c, hb, -, rfl⟩ := he
  exact exists_mem_selected h hp hb

theorem Selects.entered (hl : fs.NoLinks []) (hz : ∀ p ∈ paths, 0 ∉ p) (hr : options.recursive)
    (h : Selects fs paths k b) : ∃ e, Entered fs options paths k e := by
  obtain ⟨hk, p, hp, o, ho, ns, rfl⟩ := h
  have hlo : fs.NoLinks o := hl.append o
  have hk' : fs.lookup (o ++ ns) ≠ none := by simp [hk]
  obtain ⟨q, hq, hlq, h0⟩ : ∃ q, Yields fs options p q ∧ fs.locate q = some (o ++ ns) ∧ 0 ∉ q := by
    by_cases hns : ns = []
    · subst hns
      rw [List.append_nil] at hk ⊢
      exact ⟨p, .self (isRegularFile_iff.mpr ⟨o, b, ho, hk⟩), ho, hz p hp⟩
    · have hdir : fs.isDirectory p := isDirectory_iff.mpr ⟨o, ho, lookup_dir_of_append hk' hns⟩
      have hloc := locate_foldl_join ho (hz p hp) hlo hk'
      refine ⟨ns.foldl join p, .below _ hdir hr (isRegularFile_iff.mpr ⟨_, b, hloc, hk⟩) ?_, hloc, ?_⟩
      · exact (mem_recursiveDirectory ho (hz p hp) hlo).mpr ⟨ns, hns, hk', rfl⟩
      · have hv := validName_of_mem hk'
        exact zero_notMem_foldl_join (fun n hn => ⟨(hv n hn).plain, (hv n hn).2.2.2.2⟩) (hz p hp)
  have hne : relName fs (base fs options p) q (o ++ ns) ≠ [] := relName_ne_nil h0 hlq hk
  have hc := collectFile_eq_some.mpr ⟨_, b, hlq, hk, hne, rfl⟩
  exact ⟨_, p, hp, ⟨q, _⟩, ⟨hq, hc⟩, hlq, rfl⟩

theorem Yields.selects (hl : fs.NoLinks []) (hz : ∀ p ∈ paths, 0 ∉ p) (hp : p ∈ paths) {q : Bytes}
    (h : Yields fs options p q) : ∃ k b, Selects fs paths k b := by
  cases h with
  | self hreg =>
    obtain ⟨k, b, hk, hb⟩ := isRegularFile_iff.mp hreg
    exact ⟨k, b, hb, p, hp, k, hk, List.prefix_rfl⟩
  | below q hdir _ hreg hq =>
    obtain ⟨o, ho, -⟩ := isDirectory_iff.mp hdir
    have hlo : fs.NoLinks o := hl.append o
    obtain ⟨ns, -, hn, rfl⟩ := (mem_recursiveDirectory ho (hz p hp) hlo).mp hq
    obtain ⟨k, b, hk, hb⟩ := isRegularFile_iff.mp hreg
    obtain ⟨⟩ := (locate_foldl_join ho (hz p hp) hlo hn).symm.trans hk
    exact ⟨_, b, hb, p, hp, o, ho, List.prefix_append _ _⟩

theorem deliverable_of_not_hopeless (hno : ¬ Hopeless fs options paths)
    (h : selected (preferring fun c => Deliverable fs paths c.entry) fs options paths = some items) :
    ∀ c ∈ items, Deliverable fs paths c.entry := by
  refine selected_preferring h fun p hp c hb => ?_
  obtain ⟨k, -, hk, -⟩ := hb.spec
  by_contra hnone
  refine hno ⟨k, c.entry, ⟨p, hp, c, hb, hk, rfl⟩, ?_⟩
  rintro k' _ ⟨p', hp', c', hb', -, rfl⟩ he hdel
  exact hnone ⟨p', hp', c', hb', he, hdel⟩

theorem Emits.deliverable (h : Emits fs paths c r) : Deliverable fs paths c.entry :=
  ⟨h.path ▸ r.fits, r.payload, h.payload, h.length⟩

theorem Deliverable.exists_emits (h : Deliverable fs paths c.entry) (hn : c.entry.relPath ≠ []) :
    ∃ r, Emits fs paths c r := by
  obtain ⟨hfit, b, hb, hlen⟩ := h
  have hlt : b.length < 2 ^ 64 := hlen ▸ c.entry.size.toNat_lt
  exact ⟨⟨⟨c.entry.relPath, Crc32.compute b, b, hfit, hlt⟩, hn, rfl⟩, ⟨rfl, hb, hlen⟩⟩

end Entries

section Runs

/-- Where the sources allow it, a session that succeeds is complete. -/
theorem PathsOutcome.exhaustive (hl : fs.NoLinks []) (hz : ∀ p ∈ paths, 0 ∉ p)
    (hr : options.recursive) (hex : ∀ p ∈ paths, fs.pathExists p)
    (hcond : Hopeless fs options paths ∨
      Separate fs options paths ∧ Retrievable fs options paths)
    (hw : w.host.fs = fs) (h : PathsOutcome f std sock options paths w true w') :
    ∃ rs, w'.outgoing = w.outgoing ++ wire rs ∧ Exhaustive fs options paths rs := by
  subst hw
  cases h with
  | nothing hsel =>
    have hsel := hsel.resolve_left (selected_ne_none hex)
    have hno : ∀ {k e}, ¬ Entered w.host.fs options paths k e := fun he => by
      obtain ⟨c, hc, -⟩ := he.exists_item hsel
      cases hc
    refine ⟨[], by simp [wire], hex, fun hs => ?_, fun hr => nomatch hr⟩
    obtain ⟨e, he⟩ := hs.entered hl hz hr
    exact absurd he hno
  | sent items rs buf rest v hsel hne hem hbuf hi hv =>
    have hrs : rs ≠ [] := by
      rintro rfl
      exact hne (List.forall₂_nil_right_iff.mp hem)
    refine ⟨rs, by rw [wire, if_neg hrs]; rfl, ?_⟩
    rcases hcond with ⟨k, e, he, hno⟩ | ⟨hsep, hret⟩
    · obtain ⟨c, hc, hce⟩ := he.exists_item hsel
      obtain ⟨k', he'⟩ := entered_of_mem hsel hc
      obtain ⟨r, -, hcr⟩ := mem_of_forall₂ hem hc
      exact absurd hcr.deliverable (hno k' _ he' hce)
    · refine ⟨hex, fun hs => ?_, fun _ he he' hpath hpath' => ?_⟩
      · obtain ⟨k, e, he, hb⟩ := hret _ _ hs
        obtain ⟨c, hc, hce⟩ := he.exists_item hsel
        obtain ⟨k', he'⟩ := entered_of_mem hsel hc
        obtain rfl := hsep _ _ _ _ he he' hce.symm
        obtain ⟨r, hr, hcr⟩ := mem_of_forall₂ hem hc
        rw [he.eq he' hce.symm, hcr.payload] at hb
        exact ⟨r, hr, Option.some.inj hb⟩
      · exact hsep _ _ _ _ he he' (hpath.trans hpath'.symm)

/-- A sender on a host with this file system, whose peer acknowledges. -/
def acknowledged (fs : FileSystem) : Side := ⟨⟨fs, none⟩, encodeAck 0, []⟩

theorem exists_success (hs : Addressable fs) (hd : ∀ items, selected std fs options paths =
    some items → ∀ c ∈ items, Deliverable fs paths c.entry)
    {Q : Side → Prop} (hQ : Always .none (sendPaths std ⟨0⟩ 0 paths options) {} (acknowledged fs)
      fun ok _ w' => ok = true → Q w') :
    ∃ w', Q w' ∧ PathsOutcome .none std ⟨0⟩ options paths (acknowledged fs) true w' := by
  obtain ⟨ok, s', w', hq, ho⟩ :=
    (hQ.and (always_sendPaths (w := acknowledged fs) id hs rfl)).exists
  cases ho with
  | nothing hsel => exact ⟨_, hq rfl, .nothing hsel⟩
  | sent items rs buf rest v h₁ h₂ h₃ h₄ h₅ h₆ =>
    exact ⟨_, hq rfl, .sent items rs buf rest v h₁ h₂ h₃ h₄ h₅ h₆⟩
  | failed items w' hsel _ _ hf =>
    rcases hf with ht | ha | ⟨c, hc, hno⟩
    · rcases ht with h | h | h | h
      · exact h.elim
      · exact h.elim
      · exact h.elim
      · cases h
    · exact absurd ⟨encodeAck 0, [], 0, length_encodeAck 0, (List.append_nil _).symm,
        ackOf_encode 0⟩ ha
    · obtain ⟨r, hr⟩ := (hd items hsel c hc).exists_emits (relPath_ne_nil hsel c hc)
      exact absurd hr (hno r)

end Runs

/-- A scan that fails at its first question leaves nothing to send, and that is a success. -/
theorem wire_of_scan_fails {Q : Side → Prop} (hscan : f.scan) (hne : paths ≠ [])
    (h : Always f (sendPaths std sock signals paths options) s w fun ok _ w' => ok = true → Q w') :
    Q w := by
  obtain ⟨p, paths, rfl⟩ := List.exists_cons_of_ne_nil hne
  unfold sendPaths collectFiles scanPaths scanPath at h
  rw [Always, wp_bind, wp_bind, wp_bind, wp_bind] at h
  exact always_perform.mp h false w ⟨.silent, ⟨rfl, rfl, Or.inr ⟨hscan, rfl⟩⟩, rfl, rfl⟩ rfl

theorem always_sendPaths_of_nothing (hno : ∀ p ∈ paths, ∀ q, ¬ Yields w.host.fs options p q) :
    Always f (sendPaths std sock signals paths options) s w fun _ _ w' => w' = w := by
  unfold sendPaths
  rw [Always, wp_bind]
  apply wp_mono always_scan
  rintro es t _ ⟨rfl, -, hes⟩
  have hnil : es = [] := List.eq_nil_iff_forall_not_mem.mpr fun e he => by
    obtain ⟨-, p, hp, q, hy⟩ := hes e he
    exact hno p hp q hy
  rw [if_pos hnil]
  exact rfl

/-- A file system with a single file. -/
def lone : FileSystem := FileSystem.empty.place [[0x61]] (.file [0x31])

theorem lookup_lone (h : lone.lookup k = some (.file b)) : k = [[0x61]] ∧ b = [0x31] := by
  rw [lone, lookup_place (by decide)] at h
  split at h
  · rename_i he
    cases h
    exact ⟨he, rfl⟩
  · rcases k with _ | ⟨n, k⟩ <;> cases h

theorem addressable_lone : Addressable lone := addressable_empty.place (by decide)

/-- Beside that, a file in a directory. -/
def nested : FileSystem := (lone.place [[0x64]] .dir).place [[0x64], [0x62]] (.file [0x32, 0x33])

theorem lookup_nested (h : nested.lookup k = some (.file b)) :
    k = [[0x61]] ∧ b = [0x31] ∨ k = [[0x64], [0x62]] ∧ b = [0x32, 0x33] := by
  rw [nested, lookup_place (by decide)] at h
  split at h
  · rename_i he
    cases h
    exact Or.inr ⟨he, rfl⟩
  · rw [lookup_place (by decide)] at h
    split at h
    · cases h
    · exact Or.inl (lookup_lone h)

theorem addressable_nested : Addressable nested :=
  Addressable.place (Addressable.placeDir addressable_lone) (by decide)

theorem noLinks_nested : nested.NoLinks [] :=
  noLinks_place_file (noLinks_place (noLinks_place_file (noLinks_empty []) _) (by simp)) _

theorem collectPaths_nested : collectPaths nested { recursive := true } [rootName] =
    some [⟨[0x2F, 0x64, 0x2F, 0x62], { relPath := [0x64, 0x2F, 0x62], size := 2 }⟩,
      ⟨[0x2F, 0x61], { relPath := [0x61], size := 1 }⟩] := by decide

/-- The two files, in the order of their relative paths. -/
def nestedFound : List Collected :=
  [⟨[0x2F, 0x61], { relPath := [0x61], size := 1 }⟩,
    ⟨[0x2F, 0x64, 0x2F, 0x62], { relPath := [0x64, 0x2F, 0x62], size := 2 }⟩]

theorem selected_nested : selected insertionSort nested { recursive := true } [rootName] =
    some nestedFound := by decide

theorem entered_nested (h : Entered nested { recursive := true } [rootName] k e) :
    k = [[0x64], [0x62]] ∧ e = { relPath := [0x64, 0x2F, 0x62], size := 2 } ∨
      k = [[0x61]] ∧ e = { relPath := [0x61], size := 1 } := by
  obtain ⟨p, hp, c, hc, hl, rfl⟩ := h
  have hd : nested.locate [0x2F, 0x64, 0x2F, 0x62] = some [[0x64], [0x62]] := by decide
  have ha : nested.locate [0x2F, 0x61] = some [[0x61]] := by decide
  rcases List.mem_cons.mp ((mem_collectPaths collectPaths_nested).mpr ⟨p, hp, hc⟩) with rfl | hmem
  · exact Or.inl ⟨Option.some.inj (hl.symm.trans hd), rfl⟩
  · obtain rfl := List.mem_singleton.mp hmem
    exact Or.inr ⟨Option.some.inj (hl.symm.trans ha), rfl⟩

end Xfer.Transfer
