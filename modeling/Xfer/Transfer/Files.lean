import Xfer.Posix.Locate
import Xfer.Transfer.Session

/-! # The files of a session

What a session leaves at each key, in terms of the paths that its records name
and of the bytes that it received for them.
-/

namespace Xfer.Transfer

open Net Posix Process Code

variable {f : Faults} {s s' : Refs} {w w' : Side} {options : ReceiverOptions}
  {dir target bound : Bytes} {N N' : Bytes → Bytes → Prop} {fs₀ fs fs' : FileSystem} {k : Key}

/-- What is at the key was there before, or is a new directory, or is a file that has been received
under a path and with a content that `N` admits. -/
inductive Accounted (dir : Bytes) (N : Bytes → Bytes → Prop) (fs₀ fs : FileSystem) (k : Key) : Prop
  | kept : fs.lookup k = fs₀.lookup k → Accounted dir N fs₀ fs k
  | directory : fs₀.lookup k = none → fs.lookup k = some .dir → Accounted dir N fs₀ fs k
  | file (path content : Bytes) : N path content → fs.locate (join dir path) = some k →
      fs.lookup k = some (.file content) → Accounted dir N fs₀ fs k

theorem Accounted.mono (h : Accounted dir N fs₀ fs k) (hN : ∀ p c, N p c → N' p c) :
    Accounted dir N' fs₀ fs k := by
  cases h with
  | kept h => exact .kept h
  | directory hn hd => exact .directory hn hd
  | file p c hp hl hf => exact .file p c (hN p c hp) hl hf

theorem Accounted.of_lookup_eq (h : Accounted dir N fs₀ fs k) (he : fs.Extends fs')
    (hk : fs'.lookup k = fs.lookup k) : Accounted dir N fs₀ fs' k := by
  cases h with
  | kept h => exact .kept (hk.trans h)
  | directory hn hd => exact .directory hn (hk.trans hd)
  | file p c hp hl hf => exact .file p c hp (he.locate hl (by simp [hf])) (hk.trans hf)

theorem Accounted.grows (h : Accounted dir N fs₀ fs k) (hg : fs.Grows fs') :
    Accounted dir N fs₀ fs' k := by
  rcases hg.lookup k with hk | ⟨hn, hd⟩
  · exact h.of_lookup_eq hg.extends hk
  · cases h with
    | kept h => exact .directory (h.symm.trans hn) hd
    | directory _ hd' => simp [hn] at hd'
    | file p c _ _ hf => simp [hn] at hf

/-- What the reception of one file does to the file system: up to some point it creates the
directories of the target, and then it may put a file there that holds some of the payload. -/
inductive FileEffect (f : Faults) (target bound : Bytes) (fs : FileSystem) : FileSystem → Prop
  | prepared (fs₁ : FileSystem) : Prepared f target fs fs₁ → FileEffect f target bound fs fs₁
  | placed (fs₁ : FileSystem) (k : Key) (content : Bytes) : Opens f target fs fs₁ k →
      content <+: bound → FileEffect f target bound fs (fs₁.place k (.file content))

theorem Prepared.grows (h : Prepared f target fs fs') : fs.Grows fs' := by
  obtain ⟨ps, -, -, rfl⟩ := h
  exact FileSystem.mkdirs_grows fs ps

theorem Opens.accounted {fs₁ : FileSystem} {path content : Bytes} {k₀ : Key}
    (ho : Opens f (join dir path) fs fs₁ k₀) (h : k ≠ k₀ → Accounted dir N fs₀ fs k)
    (hN : k = k₀ → N path content) : Accounted dir N fs₀ (fs₁.place k₀ (.file content)) k := by
  by_cases hk : k = k₀
  · subst hk
    refine .file path content (hN rfl) (FileSystem.locate_place ho.locate ho.canPlace content) ?_
    rw [FileSystem.lookup_place ho.canPlace, if_pos rfl]
  · exact ((h hk).grows ho.prepared.grows).of_lookup_eq
      (FileSystem.extends_place_file (FileSystem.not_symlink_of_locate ho.locate) content)
      (FileSystem.lookup_place_ne fs₁ _ hk)

theorem FileEffect.accounted {path : Bytes} (h : Accounted dir N fs₀ fs k)
    (he : FileEffect f (join dir path) bound fs fs') (hN : ∀ c, c <+: bound → N path c) :
    Accounted dir N fs₀ fs' k := by
  cases he with
  | prepared _ hp => exact h.grows hp.grows
  | placed fs₁ k₀ c ho hc => exact ho.accounted (fun _ => h) fun _ => hN c hc

theorem FileOutcome.effect {size : UInt64} {expected : UInt32} {ok : Bool}
    (h : FileOutcome f target size expected s w ok s' w') :
    FileEffect f target (w.incoming.take size.toNat) w.host.fs w'.host.fs := by
  cases h with
  | closed fs₁ hp => exact .prepared fs₁ hp
  | whole fs₁ k payload rest stored p ho hl hi hs =>
    refine .placed fs₁ k stored ho ?_
    rwa [hi, ← hl, List.take_left]
  | cut fs₁ k stored p ho hlt hs =>
    refine .placed fs₁ k stored ho ?_
    rw [List.take_of_length_le hlt.le]
    exact hs.trans (List.take_prefix _ _)
  | failed e fs₁ k bs rest stored p ho _ hi hl hs =>
    refine .placed fs₁ k stored ho (hs.trans ?_)
    rw [hi, List.take_append, List.take_of_length_le hl]
    exact List.prefix_append _ _

/-- What one iteration does to the file system, by the header that it reads. -/
theorem RecordOutcome.effect {ok : Bool} (h : RecordOutcome f options dir s w ok s' w') :
    w'.host.fs = w.host.fs ∨ ∃ e rest, e.relPath ≠ [] ∧ e.relPath.length ≤ 0xFFFF ∧
      w.incoming = encodeFileHeader e ++ rest ∧
      FileEffect f (join dir e.relPath) (rest.take e.size.toNat) w.host.fs w'.host.fs := by
  cases h with
  | noHeader hh => exact Or.inl (congrArg Host.fs hh.frame.2.2)
  | skipped => exact Or.inl rfl
  | rejected => exact Or.inl rfl
  | refused e rest safe hne hl hi hv ho =>
    obtain ⟨-, -, rfl⟩ := validateAndJoin_eq_ok hv
    exact Or.inr ⟨e, rest, hne, hl, hi, ho.effect⟩
  | stored e rest safe hne hl hi hv ho =>
    obtain ⟨-, -, rfl⟩ := validateAndJoin_eq_ok hv
    exact Or.inr ⟨e, rest, hne, hl, hi, ho.effect⟩

theorem OpenOutcome.accounted {r : Option (SessionHeader × Bytes)}
    (h : OpenOutcome f options s w r s' w') (dir : Bytes) (N : Bytes → Bytes → Prop) (k : Key) :
    Accounted dir N w.host.fs w'.host.fs k := by
  rcases h.made with he | hm
  · rw [he]
    exact .kept rfl
  · obtain ⟨ps, -, -, -, he⟩ := hm
    rw [he]
    exact (Accounted.kept rfl).grows (FileSystem.mkdirs_grows _ ps)

end Xfer.Transfer
