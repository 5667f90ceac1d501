import Xfer.Net.Exchange
import Xfer.Posix.Relative
import Xfer.Transfer.Phases

/-! # Opening and reading the files of a manifest

What the sender reads for an entry is determined by the file system alone: any
way in which reads are split gives the same checksum, and the pass over the
manifest either fills in all checksums or stops with an error code.
-/

namespace Xfer.Transfer

open Net Common Posix Process Code FileSystem

variable {f : Faults} {s s' : Refs} {w w' : Side} {paths : List Bytes} {e : FileEntry}
  {fs : FileSystem} {k : Key} {b : Bytes} {size : UInt64}

/-- Every byte of every file has an offset that the system calls can express. -/
def Addressable (fs : FileSystem) : Prop :=
  ∀ {k b}, fs.lookup k = some (.file b) → b.length < 2 ^ 63

theorem addressable_empty : Addressable .empty := fun {k b} hk => by
  rcases k with _ | ⟨n, k⟩ <;> cases hk

theorem Addressable.put (h : Addressable fs) {v : Node}
    (hv : ∀ b, v = .file b → b.length < 2 ^ 63) : Addressable (fs.place k v) := fun {k' c} hk => by
  by_cases he : k' = k ∧ fs.CanPlace k
  · obtain ⟨rfl, hp⟩ := he
    rw [FileSystem.lookup_place hp, if_pos rfl] at hk
    exact hv c (Option.some.inj hk)
  · rw [not_and_or] at he
    rcases he with he | hp
    · exact h ((FileSystem.lookup_place_ne fs _ he).symm.trans hk)
    · exact h ((FileSystem.place_of_not_canPlace hp v) ▸ hk)

theorem Addressable.place (h : Addressable fs) {b : Bytes} (hb : b.length < 2 ^ 63) :
    Addressable (fs.place k (.file b)) := h.put fun _ he => Node.file.inj he ▸ hb

theorem Addressable.placeDir (h : Addressable fs) : Addressable (fs.place k .dir) :=
  h.put fun _ he => Node.noConfusion he

/-- The file that is opened for an entry. -/
def opened (fs : FileSystem) (paths : List Bytes) (e : FileEntry) : Option Key :=
  (resolve fs paths e).bind fs.find

/-- What is read of the file at `k` where `size` bytes are asked for. -/
def payload (fs : FileSystem) (k : Key) (size : UInt64) : Option Bytes :=
  if size = 0 then some []
  else match fs.lookup k with
    | some (.file b) => some (b.take size.toNat)
    | _ => none

/-- What is read for an entry. -/
def readBack (fs : FileSystem) (paths : List Bytes) (e : FileEntry) : Option Bytes :=
  (opened fs paths e).bind fun k => payload fs k e.size

theorem payload_file (h : fs.lookup k = some (.file b)) :
    payload fs k size = some (b.take size.toNat) := by
  unfold payload
  split
  · rename_i h0
    rw [h0]
    rfl
  · rw [h]

theorem payload_of_not_file (h : ∀ b, fs.lookup k ≠ some (.file b)) (h0 : size ≠ 0) :
    payload fs k size = none := by
  unfold payload
  rw [if_neg h0]
  split
  · rename_i b hb
    exact absurd hb (h b)
  · rfl

theorem always_resolveOnDisk : Always f (resolveOnDisk paths e) s w fun r s' w' =>
    w' = w ∧ r = resolve w.host.fs paths e ∧
      s' = if r = none then { s with ec := some .noSuchFileOrDirectory } else s := by
  unfold resolveOnDisk
  rw [Always, wp_bind]
  apply always_look
  split
  · rename_i hr
    exact ⟨rfl, hr.symm, rfl⟩
  · rename_i p hr
    exact ⟨rfl, hr.symm, rfl⟩

theorem always_openEntry : Always f (openEntry paths e) s w fun r s' w' => w' = w ∧
    ((∃ k, r = some k ∧ opened w.host.fs paths e = some k ∧ s' = s) ∨
      (r = none ∧ s'.ec ≠ none ∧ (f.read ∨ opened w.host.fs paths e = none))) := by
  unfold openEntry opened
  rw [Always, wp_bind]
  apply wp_mono always_resolveOnDisk
  rintro r t w ⟨rfl, rfl, rfl⟩
  cases hr : resolve w.host.fs paths e with
  | none => exact ⟨rfl, Or.inr ⟨rfl, by simp, Or.inr rfl⟩⟩
  | some q =>
    simp only [openForRead, Option.bind_some, reduceCtorEq, if_false]
    rw [wp_bind, ← Always, always_perform]
    rintro r ⟨h', i', o'⟩ ⟨a, ⟨rfl, rfl, hk⟩, rfl, rfl⟩
    cases r with
    | none =>
      refine ⟨rfl, Or.inr ⟨rfl, by simp, hk.imp_right fun hno => ?_⟩⟩
      rw [find, Option.filter_eq_none_iff]
      intro k hl
      simpa using hno k hl
    | some k => exact ⟨rfl, Or.inl ⟨k, rfl, find_eq_some.mpr hk, rfl⟩⟩

theorem readable_eq (h : w.host.fs.lookup k = some (.file b)) {offset : ℕ} (ho : offset < 2 ^ 63) :
    w.host.readable k offset = some (b.drop offset) := by
  unfold Host.readable
  rw [h]
  exact if_pos ho

theorem readable_of_not_file (h : ∀ b, w.host.fs.lookup k ≠ some (.file b)) (offset : ℕ) :
    w.host.readable k offset = none := by
  unfold Host.readable
  split
  · rename_i b hb
    exact absurd hb (h b)
  · rfl

theorem always_pread (hk : w.host.fs.lookup k = some (.file b)) {want offset : ℕ}
    (ho : offset < 2 ^ 63) (hw : want ≠ 0) :
    Always f (perform (.pread k want offset)) s w fun r s' w' => s' = s ∧ w' = w ∧ match r with
      | .ok bs => bs.1 <+: b.drop offset ∧ (bs.1 = [] → b.drop offset = [])
      | .error _ => f.read := by
  rw [always_perform]
  rintro r ⟨h', i', o'⟩ ⟨a, ⟨rfl, rfl, hr⟩, rfl, rfl⟩
  refine ⟨rfl, rfl, ?_⟩
  rw [readable_eq hk ho] at hr
  cases r with
  | ok bs =>
    obtain ⟨c, hc, hpre, hnil⟩ := hr
    obtain rfl := Option.some.inj hc
    exact ⟨hpre, fun he => (hnil he).resolve_right hw⟩
  | error e => exact hr.resolve_right (by simp)

theorem always_pread_of_not_file (hk : ∀ b, w.host.fs.lookup k ≠ some (.file b))
    {want offset : ℕ} : Always f (perform (.pread k want offset)) s w fun r s' w' =>
      s' = s ∧ w' = w ∧ ∃ e, r = .error e := by
  rw [always_perform]
  rintro r ⟨h', i', o'⟩ ⟨a, ⟨rfl, rfl, hr⟩, rfl, rfl⟩
  refine ⟨rfl, rfl, ?_⟩
  rw [readable_of_not_file hk] at hr
  cases r with
  | ok bs =>
    obtain ⟨c, hc, -⟩ := hr
    cases hc
  | error e => exact ⟨e, rfl⟩

theorem take_append_take_drop {n : ℕ} {l p : Bytes} (hp : p <+: l) (hn : p.length ≤ n) :
    p ++ (l.drop p.length).take (n - p.length) = l.take n := by
  conv_rhs => rw [← Nat.add_sub_cancel' hn, List.take_add]
  rw [← List.prefix_iff_eq_take.mp hp]

/-- The checksum of what is left of a file, however it is split. -/
theorem always_crcLoop {remaining offset : UInt64} {crc : Crc32}
    (hk : w.host.fs.lookup k = some (.file b)) (hb : b.length < 2 ^ 63)
    (ho : offset.toNat ≤ b.length) :
    Always f (crcLoop k remaining offset crc) s w fun r s' w' => w' = w ∧
      ((r = some (crc.update ((b.drop offset.toNat).take remaining.toNat)) ∧ s' = s) ∨
        (r = none ∧ s'.ec ≠ none ∧ f.read)) := by
  induction hn : remaining.toNat using Nat.strong_induction_on
    generalizing remaining offset crc s w with
  | _ n ih =>
    unfold crcLoop
    split
    · rename_i h0
      subst h0
      rw [Always, wp_pure, ← hn]
      exact ⟨rfl, Or.inl ⟨rfl, rfl⟩⟩
    · rename_i h0
      have hr0 : remaining.toNat ≠ 0 := fun he => h0 (UInt64.toNat_inj.mp he)
      have hc := toNat_chunk remaining
      rw [Always, wp_bind]
      apply wp_mono (always_pread hk (by omega) (by omega))
      rintro r t w ⟨rfl, rfl, hr⟩
      rcases r with e | ⟨bs, hbs⟩
      · simp only [wp_bind]
        exact ⟨rfl, Or.inr ⟨rfl, by simp, hr⟩⟩
      · obtain ⟨hpre, hnil⟩ := hr
        simp only at hpre hnil ⊢
        split
        · rename_i hz
          have hend := hnil (List.length_eq_zero_iff.mp hz)
          rw [wp_pure, hend, List.take_nil, Crc32.update_nil]
          exact ⟨rfl, Or.inl ⟨rfl, rfl⟩⟩
        · rename_i hz
          have hle := hpre.length_le
          rw [List.length_drop] at hle
          have hoff : (offset + UInt64.ofNat bs.length).toNat = offset.toNat + bs.length :=
            toNat_add_ofNat (by omega)
          have hrem : (remaining - UInt64.ofNat bs.length).toNat = remaining.toNat - bs.length :=
            toNat_sub_ofNat (by omega)
          refine wp_mono (ih _ (by omega) hk (by omega) hrem) ?_
          rintro r s' w' ⟨rfl, ⟨rfl, rfl⟩ | hfail⟩
          · refine ⟨rfl, Or.inl ⟨?_, rfl⟩⟩
            rw [← Crc32.update_append, hoff, ← List.drop_drop,
              take_append_take_drop hpre (by omega), hn]
          · exact ⟨rfl, Or.inr hfail⟩

theorem always_crcLoop_of_not_file {remaining offset : UInt64} {crc : Crc32}
    (hk : ∀ b, w.host.fs.lookup k ≠ some (.file b)) (h0 : remaining ≠ 0) :
    Always f (crcLoop k remaining offset crc) s w fun r s' w' =>
      w' = w ∧ r = none ∧ s'.ec ≠ none := by
  unfold crcLoop
  rw [dif_neg h0, Always, wp_bind]
  apply wp_mono (always_pread_of_not_file hk)
  rintro r t w ⟨rfl, rfl, e, rfl⟩
  exact ⟨rfl, rfl, by simp⟩

theorem always_crcOfFd (hs : Addressable w.host.fs) :
    Always f (crcOfFd k size) s w fun crc s' w' => w' = w ∧
      ((∃ p, payload w.host.fs k size = some p ∧ crc = Crc32.compute p ∧ s' = s) ∨
        (s'.ec ≠ none ∧ (f.read ∨ payload w.host.fs k size = none))) := by
  unfold crcOfFd
  rw [Always, wp_bind]
  by_cases hk : ∃ b, w.host.fs.lookup k = some (.file b)
  · obtain ⟨b, hk⟩ := hk
    apply wp_mono (always_crcLoop hk (hs hk) (Nat.zero_le _))
    rintro r t w ⟨rfl, ⟨rfl, rfl⟩ | ⟨rfl, hec, hf⟩⟩
    · exact ⟨rfl, Or.inl ⟨_, payload_file hk, rfl, rfl⟩⟩
    · exact ⟨rfl, Or.inr ⟨hec, Or.inl hf⟩⟩
  · rw [not_exists] at hk
    by_cases h0 : size = 0
    · subst h0
      unfold crcLoop
      rw [dif_pos rfl, wp_pure]
      exact ⟨rfl, Or.inl ⟨[], rfl, rfl, rfl⟩⟩
    · apply wp_mono (always_crcLoop_of_not_file hk h0)
      rintro r t w ⟨rfl, rfl, hec⟩
      exact ⟨rfl, Or.inr ⟨hec, Or.inr (payload_of_not_file hk h0)⟩⟩

/-- The entry with the checksum of what is read for it. -/
def summed (fs : FileSystem) (paths : List Bytes) (e e' : FileEntry) : Prop :=
  ∃ p, readBack fs paths e = some p ∧ e' = { e with crc32 := Crc32.compute p }

theorem always_close : Always f (perform (.close k)) s w fun _ s' w' => s' = s ∧ w' = w := by
  rw [always_perform]
  rintro _ ⟨h', i', o'⟩ ⟨a, ⟨rfl, rfl⟩, rfl, rfl⟩
  exact ⟨rfl, rfl⟩

/-- An entry gets the checksum of what is read for it, unless there is an error code, from before or
from the reading. -/
theorem always_sumEntry_spec (hs : Addressable w.host.fs) (e : FileEntry) :
    Always f (sumEntry paths e) s w fun r s' w' => w' = w ∧
      ((∃ e', r = some e' ∧ summed w.host.fs paths e e' ∧ s' = s ∧ s.ec = none) ∨
        (r = none ∧ s'.ec ≠ none ∧
          ((f.read ∨ readBack w.host.fs paths e = none) ∨ s.ec ≠ none))) := by
  unfold sumEntry
  rw [Always, wp_bind]
  apply wp_mono always_openEntry
  rintro r t w ⟨rfl, ⟨k, rfl, ho, rfl⟩ | ⟨rfl, hec, hf⟩⟩
  · simp only [wp_bind]
    apply wp_mono (always_crcOfFd hs)
    rintro crc u w ⟨rfl, hcrc⟩
    apply wp_mono always_close
    rintro _ u w ⟨rfl, rfl⟩
    have hread : readBack w.host.fs paths e = payload w.host.fs k e.size := by
      rw [readBack, ho, Option.bind_some]
    rw [wp_get, hread]
    rcases hcrc with ⟨p, hp, rfl, rfl⟩ | ⟨hec, hf⟩
    · split
      · rename_i h0
        exact ⟨rfl, Or.inr ⟨rfl, h0, Or.inr h0⟩⟩
      · rename_i h0
        exact ⟨rfl, Or.inl ⟨_, rfl, ⟨p, hread.trans hp, rfl⟩, rfl, not_not.mp h0⟩⟩
    · rw [if_pos hec, wp_pure]
      exact ⟨rfl, Or.inr ⟨rfl, hec, Or.inl hf⟩⟩
  · refine ⟨rfl, Or.inr ⟨rfl, hec, Or.inl (hf.imp_right fun ho => ?_)⟩⟩
    rw [readBack, ho, Option.bind_none]

theorem always_sumEntry (hs : Addressable w.host.fs) (h0 : s.ec = none) (e : FileEntry) :
    Always f (sumEntry paths e) s w fun r s' w' => w' = w ∧
      ((∃ e', r = some e' ∧ summed w.host.fs paths e e' ∧ s' = s) ∨
        (r = none ∧ s'.ec ≠ none ∧ (f.read ∨ readBack w.host.fs paths e = none))) := by
  apply wp_mono (always_sumEntry_spec hs e)
  rintro r t w' ⟨hw, ⟨e', hr, he, ht, -⟩ | ⟨hr, hec, hf⟩⟩
  · exact ⟨hw, Or.inl ⟨e', hr, he, ht⟩⟩
  · exact ⟨hw, Or.inr ⟨hr, hec, hf.resolve_right (not_not.mpr h0)⟩⟩

/-- A pass makes something of every entry, or stops at one with an error code. -/
theorem Pass.always {one : FileEntry → Session (Option FileEntry)}
    {pass : List FileEntry → Session (Option (List FileEntry))} (hp : Pass one pass)
    {R : FileEntry → FileEntry → Prop} {B : FileEntry → Prop}
    (hone : ∀ e, Always f (one e) s w fun r s' w' => w' = w ∧
      ((∃ e', r = some e' ∧ R e e' ∧ s' = s) ∨ (r = none ∧ s'.ec ≠ none ∧ (f.read ∨ B e))))
    (es : List FileEntry) : Always f (pass es) s w fun r s' w' => w' = w ∧
      ((∃ es', r = some es' ∧ List.Forall₂ R es es' ∧ s' = s) ∨
        (r = none ∧ s'.ec ≠ none ∧ (f.read ∨ ∃ e ∈ es, B e))) := by
  induction es with
  | nil =>
    rw [hp.nil]
    exact ⟨rfl, Or.inl ⟨[], rfl, .nil, rfl⟩⟩
  | cons e es ih =>
    rw [hp.cons, Always, wp_bind]
    apply wp_mono (hone e)
    rintro r t w₁ ⟨rfl, ⟨e', rfl, he, rfl⟩ | ⟨rfl, hec, hf⟩⟩
    · simp only [wp_bind]
      apply wp_mono ih
      rintro r u w₂ ⟨rfl, ⟨es', rfl, hes, rfl⟩ | ⟨rfl, hec, hf⟩⟩
      · exact ⟨rfl, Or.inl ⟨_, rfl, .cons he hes, rfl⟩⟩
      · refine ⟨rfl, Or.inr ⟨rfl, hec, hf.imp_right ?_⟩⟩
        exact fun ⟨e', he', hb⟩ => ⟨e', List.mem_cons_of_mem _ he', hb⟩
    · exact ⟨rfl, Or.inr ⟨rfl, hec, hf.imp_right fun hb => ⟨e, List.mem_cons_self, hb⟩⟩⟩

theorem always_computeCrcs (hs : Addressable w.host.fs) (h0 : s.ec = none) (es : List FileEntry) :
    Always f (computeCrcs paths es) s w fun r s' w' => w' = w ∧
      ((∃ es', r = some es' ∧ List.Forall₂ (summed w.host.fs paths) es es' ∧ s' = s) ∨
        (r = none ∧ s'.ec ≠ none ∧ (f.read ∨ ∃ e ∈ es, readBack w.host.fs paths e = none))) :=
  (pass_computeCrcs paths).always (always_sumEntry hs h0) es

/-- The entry with the checksum that it came with, or that of what is read for it. -/
def filled (fs : FileSystem) (paths : List Bytes) (e e' : FileEntry) : Prop :=
  if e.crc32 = 0 then summed fs paths e e' else e' = e

theorem always_fillCrcs (hs : Addressable w.host.fs) (h0 : s.ec = none) (es : List FileEntry) :
    Always f (fillCrcs paths es) s w fun r s' w' => w' = w ∧
      ((∃ es', r = some es' ∧ List.Forall₂ (filled w.host.fs paths) es es' ∧ s' = s) ∨
        (r = none ∧ s'.ec ≠ none ∧
          (f.read ∨ ∃ e ∈ es, e.crc32 = 0 ∧ readBack w.host.fs paths e = none))) := by
  refine (pass_fillCrcs paths).always (fun e => ?_) es
  unfold fillEntry filled
  split
  · rename_i hc
    simp only [hc, true_and]
    exact always_sumEntry hs h0 e
  · exact ⟨rfl, Or.inl ⟨e, rfl, rfl, rfl⟩⟩

end Xfer.Transfer
