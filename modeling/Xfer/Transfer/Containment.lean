import Xfer.Posix.Locate
import Xfer.Transfer.Session

/-! # Containment

Whatever the peer sends, the receiver changes nothing outside its output
directory, except that it creates the output directory and what leads to it.
-/

namespace Xfer.Transfer

open Net Posix Process Code

variable {f : Faults} {s s' : Refs} {w w' : Side} {options : ReceiverOptions}
  {dir rel safe : Bytes} {o k : Key} {fs fs₁ fs₂ : FileSystem}

/-- `fs` differs from `fs₁` only below the output directory, which lies at `o`. -/
structure Contained (dir : Bytes) (o : Key) (fs₁ fs : FileSystem) : Prop where
  locate : fs.locate dir = some o
  isDir : fs.lookup o = some .dir
  noLinks : fs.NoLinks o
  kept : fs₁.Extends fs
  below : ∀ k, fs.lookup k ≠ fs₁.lookup k → o <+: k

theorem Contained.prepared (h : Contained dir o fs₁ fs) (hv : validateAndJoin dir rel = .ok safe)
    (hp : Prepared f safe fs fs₂) : Contained dir o fs₁ fs₂ := by
  obtain ⟨ha, hdd, rfl⟩ := validateAndJoin_eq_ok hv
  obtain ⟨ps, hps, -, rfl⟩ := hp
  have hg := FileSystem.mkdirs_grows fs ps
  refine ⟨hg.extends.locate h.locate (by simp [h.isDir]), hg.extends.dir h.isDir,
    hg.noLinks h.noLinks, h.kept.trans hg.extends, fun k hk => ?_⟩
  by_cases he : (fs.mkdirs ps).lookup k = fs.lookup k
  · exact h.below k (he ▸ hk)
  · refine FileSystem.mkdirs_below h.locate h.isDir h.noLinks ha hdd (fun p hp => ?_) he
    have hl := hps.subset hp
    exact ⟨(isPart_parentPath _).trans (isPart_of_mem_leads hl), ne_nil_of_mem_leads hl⟩

theorem Contained.opens (h : Contained dir o fs₁ fs) (hv : validateAndJoin dir rel = .ok safe)
    (hne : rel ≠ []) (ho : Opens f safe fs fs₂ k) (c : Bytes) :
    Contained dir o fs₁ (fs₂.place k (.file c)) ∧ o <+: k := by
  have h₂ := h.prepared hv ho.prepared
  obtain ⟨ha, hdd, rfl⟩ := validateAndJoin_eq_ok hv
  have hj : join dir rel ≠ [] := by
    rw [join_eq dir ha]
    simp [hne]
  have hko := FileSystem.canPlace_below h₂.locate h₂.isDir h₂.noLinks ha hdd hj ho.locate ho.canPlace
  have hl : ∀ t, fs₂.lookup k ≠ some (.symlink t) := by
    obtain ⟨ns, rfl⟩ := hko
    exact h₂.noLinks ns
  have he := FileSystem.extends_place_file hl c
  refine ⟨⟨he.locate h₂.locate (by simp [h₂.isDir]), he.dir h₂.isDir,
    FileSystem.noLinks_place_file h₂.noLinks c, h₂.kept.trans he, fun k' hk' => ?_⟩, hko⟩
  by_cases hkk : k' = k
  · exact hkk ▸ hko
  · rw [FileSystem.lookup_place_ne _ _ hkk] at hk'
    exact h₂.below k' hk'

theorem FileOutcome.contained {ok : Bool} {size : UInt64} {expected : UInt32}
    (h : Contained dir o fs₁ w.host.fs) (hv : validateAndJoin dir rel = .ok safe) (hne : rel ≠ [])
    (ho : FileOutcome f safe size expected s w ok s' w') : Contained dir o fs₁ w'.host.fs := by
  cases ho with
  | closed fs₂ hp _ => exact h.prepared hv hp
  | whole fs₂ k payload rest stored p ho => exact (h.opens hv hne ho stored).1
  | cut fs₂ k stored p ho => exact (h.opens hv hne ho stored).1
  | failed e fs₂ k bs rest stored p ho => exact (h.opens hv hne ho stored).1

/-- One record changes nothing outside the output directory. -/
theorem RecordOutcome.contained {ok : Bool} (h : Contained dir o fs₁ w.host.fs)
    (ho : RecordOutcome f options dir s w ok s' w') : Contained dir o fs₁ w'.host.fs := by
  cases ho with
  | noHeader hh => exact hh.frame.2.2 ▸ h
  | skipped => exact h
  | rejected => exact h
  | refused e rest safe hne _ _ hv ho => exact FileOutcome.contained (w := w.reading rest) h hv hne ho
  | stored e rest safe hne _ _ hv ho => exact FileOutcome.contained (w := w.reading rest) h hv hne ho

/-- All that the receiver may do to the file system: change what lies below its output directory,
and create directories that lead to it. -/
def Harmless (dir : Bytes) (fs fs' : FileSystem) : Prop :=
  ∀ k, fs'.lookup k ≠ fs.lookup k → (∃ o, fs'.locate dir = some o ∧ o <+: k) ∨
    (fs.lookup k = none ∧ fs'.lookup k = some .dir ∧ ∃ p ∈ leads dir, fs'.locate p = some k)

theorem Made.harmless (h : Made f options dir fs fs₁) : Harmless dir fs fs₁ := by
  obtain ⟨ps, hps, -, -, rfl⟩ := h
  intro k hk
  obtain ⟨p, hp, hl⟩ := FileSystem.locate_of_mkdirs hk
  obtain ⟨hn, hd⟩ := ((FileSystem.mkdirs_grows fs ps).lookup k).resolve_left hk
  exact Or.inr ⟨hn, hd, p, hps.subset hp, hl⟩

theorem Made.grows (h : Made f options dir fs fs₁) : fs.Grows fs₁ ∧
    fs₁.Grows (fs.createDirectories dir) := by
  obtain ⟨ps, ⟨qs, hqs⟩, -, -, rfl⟩ := h
  refine ⟨FileSystem.mkdirs_grows fs ps, ?_⟩
  rw [FileSystem.createDirectories, ← hqs]
  exact FileSystem.mkdirs_append fs ps qs

theorem Contained.harmless (h : Contained dir o fs₁ fs₂) (hm : Harmless dir fs fs₁)
    (ho : fs₁.locate dir = some o) : Harmless dir fs fs₂ := by
  intro k hk
  by_cases he : fs₂.lookup k = fs₁.lookup k
  · rcases hm k (he ▸ hk) with ⟨o', ho', hok⟩ | ⟨hn, hd, p, hp, hl⟩
    · rw [ho, Option.some.injEq] at ho'
      exact Or.inl ⟨o, h.locate, ho' ▸ hok⟩
    · exact Or.inr ⟨hn, he.trans hd, p, hp, h.kept.locate hl (by simp [hd])⟩
  · exact Or.inl ⟨o, h.locate, h.below k he⟩

/-- The receiver is harmless if the place that its output directory denotes, once created, holds
no symbolic links: whatever the stream, the options and the faults, and whatever it returns. -/
theorem receiveStream_harmless (f : Faults) (options : ReceiverOptions) (s : Refs) (w : Side)
    (hl : ∀ o, (w.host.fs.createDirectories (outputDir options w.host.fs)).locate
      (outputDir options w.host.fs) = some o → w.host.fs.NoLinks o) :
    Always f (receiveStream options) s w fun _ _ w' =>
      Harmless (outputDir options w.host.fs) w.host.fs w'.host.fs := by
  refine always_receiveStream
    (I := fun dir _ _ w' => dir = outputDir options w.host.fs ∧ ∃ o fs₁,
      Made f options dir w.host.fs fs₁ ∧ fs₁.locate dir = some o ∧ Contained dir o fs₁ w'.host.fs)
    (J := fun _ w' => Harmless (outputDir options w.host.fs) w.host.fs w'.host.fs)
    ?_ ?_ ?_ (fun h => h) ?_
  · intro s' w' ho
    rcases ho.made with he | hm
    · rw [he]
      exact fun k hk => absurd rfl hk
    · exact hm.harmless
  · intro header dir s' w' ho
    obtain ⟨rfl, hd, hm⟩ := ho.isDirectory
    obtain ⟨o, hlo, hdo⟩ := FileSystem.isDirectory_iff.mp hd
    obtain ⟨hg, hg'⟩ := hm.grows
    have hno := hg.noLinks (hl o (hg'.extends.locate hlo (by simp [hdo])))
    exact ⟨rfl, o, _, hm, hlo, hlo, hdo, hno, .refl _, fun k hk => absurd rfl hk⟩
  · rintro dir n s w₁ ok s' w' ⟨rfl, o, fs₁, hm, hlo, hc⟩ ho
    have hc' := ho.contained hc
    cases ok with
    | true => exact ⟨rfl, o, fs₁, hm, hlo, hc'⟩
    | false => exact hc'.harmless hm.harmless hlo
  · rintro dir s' w' ⟨rfl, o, fs₁, hm, hlo, hc⟩
    apply wp_mono always_finishSession
    rintro _ _ _ ⟨ec, elapsed, rest, -, -, rfl, rfl⟩
    exact hc.harmless hm.harmless hlo

/-- An output directory that holds a file, with another file beside it. -/
def beside : FileSystem :=
  ((FileSystem.empty.place [[0x64]] .dir).place [[0x64], [0x62]] (.file [0x31])).place [[0x61]]
    (.file [0x32])

/-- A record for the file in the output directory, and one for the file beside it. -/
def climbing (r : Record) : Bytes :=
  encodeSessionHeader { totalFiles := 2 } ++ (Record.small 0x62 0 0x33).encode ++ r.encode ++
    encodeDone

/-- Paths that lead to the file beside the output directory. -/
def climbs : List Record :=
  [⟨[0x2E, 0x2E, 0x2F, 0x61], 0, [0x34], by simp, by simp⟩,
    ⟨[0x2F, 0x61], 0, [0x34], by simp, by simp⟩,
    ⟨[0x62, 0x2F, 0x2E, 0x2E, 0x2F, 0x2E, 0x2E, 0x2F, 0x61], 0, [0x34], by simp, by simp⟩]

theorem climbing_harmless : beside.locate [0x2F, 0x64] = some [[0x64]] ∧
    ∀ r ∈ climbs, Always .none (receiveStream { outputDir := [0x2F, 0x64] }) {}
      ⟨⟨beside, none⟩, climbing r, []⟩ fun _ _ w' => Harmless [0x2F, 0x64] beside w'.host.fs :=
  ⟨by decide, fun r _ => receiveStream_harmless .none { outputDir := [0x2F, 0x64] } {}
    ⟨⟨beside, none⟩, climbing r, []⟩ fun o _ => FileSystem.noLinks_place_file
      (FileSystem.noLinks_place_file
        (FileSystem.noLinks_place (FileSystem.noLinks_empty o) (by simp)) _) _⟩

end Xfer.Transfer
