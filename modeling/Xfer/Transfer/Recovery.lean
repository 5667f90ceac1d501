import Xfer.Net.Liveness
import Xfer.Transfer.Idempotence

/-! # Receiving a stream after attempts that failed

An attempt at receiving a stream ends anywhere, with the connection or the disk
failing. It leaves a tree between the one it found and the final one, and apart
from new directories it has written to files of the stream only. So the whole
stream, received after any number of attempts, makes of the tree what it would
have made of the first one.
-/

namespace Xfer.Posix.FileSystem

variable {fs fs' fs₁ fs₁' : FileSystem} {k : Key} {ks ks' : List Key} {v : Node}

/-- Nothing but new directories, apart from what is at some keys. -/
def GrowsApart (ks : List Key) (fs fs' : FileSystem) : Prop :=
  ∀ k ∉ ks, fs'.lookup k = fs.lookup k ∨ fs.lookup k = none ∧ fs'.lookup k = some .dir

theorem Grows.apart (h : fs.Grows fs') (ks : List Key) : fs.GrowsApart ks fs' :=
  fun k _ => h.lookup k

theorem growsApart_place (hk : k ∈ ks) (fs : FileSystem) (v : Node) :
    fs.GrowsApart ks (fs.place k v) := by
  intro k' hk'
  rw [lookup_place_ne]
  · exact Or.inl rfl
  · rintro rfl
    exact hk' hk

namespace GrowsApart

theorem trans {fs'' : FileSystem} (h : fs.GrowsApart ks fs') (h' : fs'.GrowsApart ks fs'') :
    fs.GrowsApart ks fs'' := by
  intro k hk
  rcases h k hk with he | ⟨hn, hd⟩
  · rw [← he]
    exact h' k hk
  · rcases h' k hk with he' | ⟨hn', -⟩
    · exact Or.inr ⟨hn, he'.trans hd⟩
    · rw [hd] at hn'
      cases hn'

theorem grow (h : fs.GrowsApart ks fs') (hg : fs.Grows fs₁) (hg' : fs'.Grows fs₁')
    (he : fs₁.Extends fs₁') : fs₁.GrowsApart ks fs₁' := by
  intro k hk
  rcases hg.lookup k with h₁ | ⟨-, hd⟩
  · rw [h₁]
    exact h.trans (hg'.apart ks) k hk
  · rw [hd, he.dir hd]
    exact Or.inl rfl

theorem place (h : fs.GrowsApart (k :: ks) fs') (hp : fs.CanPlace k) (hp' : fs'.CanPlace k)
    (v : Node) : (fs.place k v).GrowsApart ks (fs'.place k v) := by
  intro k' hk'
  rw [lookup_place hp, lookup_place hp']
  split
  · exact Or.inl rfl
  · rename_i hne
    exact h k' (List.not_mem_cons_of_ne_of_not_mem hne hk')

theorem same (h : fs.GrowsApart [] fs') (he : fs'.Extends fs) : fs.Same fs' where
  cwd := he.cwd.symm
  lookup k := by
    rcases h k List.not_mem_nil with hk | ⟨hn, hd⟩
    · exact hk
    · rw [he.dir hd] at hn
      cases hn

end GrowsApart

end Xfer.Posix.FileSystem

namespace Xfer.Transfer

open Net Common Posix FileSystem Process Code

variable {f : Faults} {options : ReceiverOptions} {dir safe rest c stream : Bytes}
  {fs T T₁ U F G G₁ : FileSystem} {k : Key} {ks : List Key} {m : ReceiverSummary} {s s' : Refs}
  {w w' : Side}

/-- A reception that ends in `F` has opened a target. -/
structure Targeted (F T : FileSystem) (safe : Bytes) (T₁ : FileSystem) (k : Key) : Prop where
  created : T₁ = T.createDirectories (parentPath safe)
  locate : T₁.locate safe = some k
  canPlace : T₁.CanPlace k
  reached : T₁.Extends F
  file : ∃ b, F.lookup k = some (.file b)
  parents : ∀ p ∈ leads (parentPath safe), T₁.pathExists p

theorem targeted_of_openTarget (hF : F.NoLinks []) (ho : openTarget T safe = (T₁, some k))
    (he : (T₁.place k (.file c)).Extends F) : Targeted F T safe T₁ k := by
  obtain ⟨rfl, hk⟩ := Prod.mk.inj ho
  obtain ⟨hl, hp⟩ := Option.filter_eq_some_iff.mp hk
  have hp := of_decide_eq_true hp
  have hreach := (extends_place_file (not_symlink_of_locate hl) c).trans he
  refine ⟨rfl, hl, hp, hreach, he.file (by rw [lookup_place hp, if_pos rfl]), ?_⟩
  apply (settled_mkdirs T _).pathExists
  intro p hp'
  exact pathExists_or_mkdir (hreach.noLinks hF) hl hp
    ((isPart_parentPath safe).trans (isPart_of_mem_leads hp')) (ne_nil_of_mem_leads hp')

namespace Targeted

variable (h : Targeted F T safe T₁ k) (hb : T.Between F G)
include h hb

theorem created_between : T₁.Between F (G.createDirectories (parentPath safe)) := by
  obtain rfl := h.created
  exact hb.mkdirs h.reached (Or.inl h.parents)

theorem again : openTarget G safe = (G.createDirectories (parentPath safe), some k) := by
  obtain ⟨b, hb'⟩ := h.file
  have hG := h.created_between hb
  rw [Transfer.openTarget, hG.locate hb' h.locate, Option.filter_some, if_pos]
  exact decide_eq_true (hG.canPlace hb' h.canPlace)

theorem prepared (hp : Prepared f safe G G₁) : G.Grows G₁ ∧ G₁.Extends F := by
  obtain ⟨ps, ⟨qs, hqs⟩, -, rfl⟩ := hp
  refine ⟨mkdirs_grows G ps, ?_⟩
  have hG := (h.created_between hb).upper
  rw [createDirectories, ← hqs] at hG
  exact (mkdirs_append G ps qs).extends.trans hG

/-- An attempt that has opened the target has opened the same file, below all its directories. -/
theorem opens (hF : F.NoLinks []) {k' : Key} (ho : Opens f safe G G₁ k') :
    k' = k ∧ T₁.Between F G₁ := by
  obtain ⟨hg, hupper⟩ := h.prepared hb ho.prepared
  obtain ⟨b, hk⟩ := h.file
  have hlF := h.reached.locate_unlinked h.locate (by simp [hk])
  obtain rfl : k' = k :=
    Option.some.inj ((hupper.locate_unlinked ho.locate (hF k')).symm.trans hlF)
  refine ⟨rfl, ?_⟩
  have hT : T.Grows T₁ := h.created ▸ mkdirs_grows T _
  have hb₁ : T.Between F G₁ := ⟨hb.lower.trans hg.extends, hupper⟩
  have hex : ∀ p ∈ leads (parentPath safe), G₁.pathExists p := by
    intro p hp
    have hpart := (isPart_parentPath safe).trans (isPart_of_mem_leads hp)
    rcases locate_or_isDirectory ho.locate hpart (ne_nil_of_mem_leads hp) with hl | hd
    · -- the target itself is on the way to it: the reception has found it there
      refine pathExists_iff.mpr ⟨k', hl, fun hn => ?_⟩
      obtain ⟨k'', hl', hk''⟩ := pathExists_iff.mp (h.parents p hp)
      obtain rfl : k'' = k' := Option.some.inj ((h.reached.locate hl' hk'').symm.trans
        (hupper.locate_unlinked hl (hF k')))
      rcases hT.lookup k'' with he | ⟨-, hd⟩
      · exact hb₁.lower.lookup_ne_none (he ▸ hk'') hn
      · exact h.canPlace.2.2.2 hd
    · obtain ⟨o, hlo, ho'⟩ := isDirectory_iff.mp hd
      exact pathExists_iff.mpr ⟨o, hlo, by simp [ho']⟩
  have hsettled : G₁.createDirectories (parentPath safe) = G₁ :=
    (settled_of_pathExists hex).mkdirs_eq
  have := h.created_between hb₁
  rwa [hsettled] at this

end Targeted

/-- The file that a record is stored in, if it comes to that. -/
def target (dir : Bytes) (fs : FileSystem) (stream : Bytes) : Option Key :=
  match headerOf stream with
  | .error _ => none
  | .ok (e, _) =>
    if e.relPath = [] then none
    else match validateAndJoin dir e.relPath with
      | .error _ => none
      | .ok safe => (openTarget fs safe).2

/-- The files that some records are stored in. -/
def targets (options : ReceiverOptions) (dir : Bytes) :
    ℕ → FileSystem → ReceiverSummary → Bytes → List Key
  | 0, _, _, _ => []
  | n + 1, fs, m, stream =>
    (target dir fs stream).toList ++ match interpretRecord options dir fs m stream with
      | .ended _ _ _ => []
      | .going fs m rest => targets options dir n fs m rest

/-- The files that a session stores its records in. -/
def sessionTargets (options : ReceiverOptions) (fs : FileSystem) (m : ReceiverSummary)
    (stream : Bytes) : List Key :=
  if stream.length < 32 then []
  else match sessionOf (stream.take 32) with
    | none => []
    | some header =>
      let dir := outputDir options fs
      let fs₁ := prepareOutput options fs
      if fs₁.isDirectory dir then
        targets options dir header.totalFiles.toNat fs₁ m (stream.drop 32)
      else []

/-- A tree on the way from one tree to another, apart from files that are going to be written. -/
structure Underway (ks : List Key) (T F U : FileSystem) : Prop extends T.Between F U where
  apart : T.GrowsApart ks U

/-- Some records have come to the same on another tree. -/
inductive Redone (ks : List Key) (F : FileSystem) : Reception → Reception → Prop
  | ended (e : Errc) (m : ReceiverSummary) {U : FileSystem} : Underway ks F F U →
      Redone ks F (.ended e F m) (.ended e U m)
  | going (m : ReceiverSummary) (rest : Bytes) {T U : FileSystem} : Underway ks T F U →
      Redone ks F (.going T m rest) (.going U m rest)

theorem Underway.receiveAt {size : UInt64} {expected : UInt32} (h : Underway (k :: ks) T F U)
    (ho : Targeted F T safe T₁ k) (hr : (receiveAt T₁ k m safe size expected rest).Reaches F) :
    Redone ks F (receiveAt T₁ k m safe size expected rest)
      (receiveAt (U.createDirectories (parentPath safe)) k m safe size expected rest) := by
  obtain ⟨b, hk⟩ := ho.file
  have hU := ho.created_between h.toBetween
  have hapart := h.apart.grow (ho.created ▸ mkdirs_grows T _) (mkdirs_grows U _) hU.lower
  have hplace : ∀ c, Underway ks (T₁.place k (.file c)) F
      ((U.createDirectories (parentPath safe)).place k (.file c)) := fun c =>
    ⟨hU.place hk ho.canPlace c c, hapart.place ho.canPlace (hU.canPlace hk ho.canPlace) _⟩
  unfold Transfer.receiveAt at hr ⊢
  split
  · rename_i hlt
    rw [if_pos hlt] at hr
    obtain rfl : _ = F := hr
    exact .ended _ _ (hplace _)
  · rename_i hlt
    rw [if_neg hlt] at hr
    simp only at hr ⊢
    split
    · exact .going _ _ (hplace _)
    · rename_i hpass
      rw [if_neg hpass] at hr
      obtain rfl : _ = F := hr
      exact .ended _ _ (hplace _)

/-- A target that cannot be opened in the end cannot be opened on the way there. -/
theorem openTarget_none_between (h : T.Between F U) (ho : openTarget T safe = (F, none)) :
    openTarget U safe = (U.createDirectories (parentPath safe), none) ∧
      F.Between F (U.createDirectories (parentPath safe)) := by
  obtain ⟨rfl, hk⟩ := Prod.mk.inj ho
  have hb := h.mkdirs (.refl _) (Or.inr (.refl _))
  refine ⟨?_, hb⟩
  rw [openTarget, Prod.mk.injEq]
  refine ⟨rfl, ?_⟩
  rw [Option.filter_eq_none_iff] at hk ⊢
  intro k hl hp
  refine hk k (hb.alike.locate safe ▸ hl) ?_
  exact decide_eq_true (hb.alike.canPlace_iff.mp (of_decide_eq_true hp))

theorem Underway.interpretRecord (hF : F.NoLinks [])
    (h : Underway ((target dir T stream).toList ++ ks) T F U)
    (hr : (interpretRecord options dir T m stream).Reaches F) :
    Redone ks F (interpretRecord options dir T m stream)
      (interpretRecord options dir U m stream) := by
  unfold Transfer.interpretRecord at hr ⊢
  unfold target at h
  cases hh : headerOf stream with
  | error er =>
    simp only [hh] at h hr
    obtain rfl : T = F := hr
    exact .ended er m h
  | ok p =>
    obtain ⟨e, rest⟩ := p
    simp only [hh, interpretEntry] at h hr ⊢
    by_cases hne : e.relPath = []
    · rw [if_pos hne] at h ⊢
      rw [if_pos hne]
      exact .going m rest h
    · rw [if_neg hne] at h hr ⊢
      rw [if_neg hne]
      cases hv : validateAndJoin dir e.relPath with
      | error er =>
        simp only [hv] at h hr
        obtain rfl : T = F := hr
        exact .ended er m h
      | ok safe =>
        simp only [hv] at h hr ⊢
        rcases ho : Transfer.openTarget T safe with ⟨T₁, _ | k⟩
        · simp only [ho] at h hr
          obtain rfl : T₁ = F := hr
          obtain ⟨hU, hend⟩ := openTarget_none_between h.toBetween ho
          obtain ⟨rfl, -⟩ := Prod.mk.inj ho
          rw [hU]
          exact .ended _ m ⟨hend, h.apart.grow (mkdirs_grows T _) (mkdirs_grows U _) hend.lower⟩
        · simp only [ho] at h hr ⊢
          obtain ⟨c, hc⟩ := exists_placed hr
          have hopened := targeted_of_openTarget hF ho hc
          rw [hopened.again h.toBetween]
          exact h.receiveAt hopened hr

theorem Underway.interpretRecords (hF : F.NoLinks []) (n : ℕ)
    (h : Underway (targets options dir n T m stream) T F U)
    (hr : (interpretRecords options dir n T m stream).Reaches F) :
    Redone [] F (interpretRecords options dir n T m stream)
      (interpretRecords options dir n U m stream) := by
  induction n generalizing T U m stream with
  | zero => exact .going m stream h
  | succ n ih =>
    rw [interpretRecords_succ] at hr
    have hfirst : (Transfer.interpretRecord options dir T m stream).Reaches F := by
      cases hi : Transfer.interpretRecord options dir T m stream with
      | ended => rwa [hi] at hr
      | going T' m₁ rest =>
        rw [hi] at hr
        exact (extends_interpretRecords n T' m₁ rest).trans hr.extends
    have hredone := h.interpretRecord hF hfirst
    rw [interpretRecords_succ, interpretRecords_succ]
    generalize Transfer.interpretRecord options dir T m stream = r₁ at hr hredone
    generalize Transfer.interpretRecord options dir U m stream = r₂ at hredone
    cases hredone with
    | ended e m hend => exact .ended e m hend
    | going m rest hgo => exact ih hgo hr

theorem noLinks_openTarget {r : Option Key} (hl : fs.NoLinks [])
    (ho : openTarget fs safe = (T₁, r)) : T₁.NoLinks [] := by
  obtain ⟨rfl, -⟩ := Prod.mk.inj ho
  exact (mkdirs_grows fs _).noLinks hl

theorem noLinks_interpretRecord (hl : fs.NoLinks []) :
    (interpretRecord options dir fs m stream).tree.NoLinks [] := by
  unfold interpretRecord
  split
  · exact hl
  · unfold interpretEntry
    split
    · exact hl
    · split
      · exact hl
      · rename_i safe _
        rcases ho : openTarget fs safe with ⟨T₁, _ | k⟩
        · exact noLinks_openTarget hl ho
        · have hT := noLinks_openTarget hl ho
          simp only [receiveAt]
          split
          · exact noLinks_place_file hT _
          · split <;> exact noLinks_place_file hT _

theorem noLinks_interpretRecords (hl : fs.NoLinks []) (n : ℕ) :
    (interpretRecords options dir n fs m stream).tree.NoLinks [] := by
  induction n generalizing fs m stream with
  | zero => exact hl
  | succ n ih =>
    have hfirst : (interpretRecord options dir fs m stream).tree.NoLinks [] :=
      noLinks_interpretRecord hl
    rw [interpretRecords_succ]
    cases hr : interpretRecord options dir fs m stream with
    | ended e fs' m' => rwa [hr] at hfirst
    | going fs' m' rest =>
      rw [hr] at hfirst
      exact ih hfirst

theorem prepareOutput_between (h : fs.Between F U) (hF : (prepareOutput options fs).Extends F)
    (hd : (prepareOutput options fs).isDirectory (outputDir options fs) ∨
      F.Extends (prepareOutput options fs)) :
    (prepareOutput options fs).Between F (prepareOutput options U) := by
  unfold prepareOutput at hF hd ⊢
  rw [outputDir_eq h.lower.cwd]
  split
  · rename_i hc
    rw [if_pos hc] at hF hd
    exact h.mkdirs hF (hd.imp_left fun hd p hp => pathExists_of_mem_leads hd hp)
  · exact h

theorem extends_interpret (options : ReceiverOptions) (fs : FileSystem) (m : ReceiverSummary)
    (stream : Bytes) : fs.Extends (interpret options fs m stream).fs := by
  unfold interpret
  split
  · exact .refl fs
  · split
    · exact .refl fs
    · simp only
      split
      · rw [conclude_fs]
        exact (grows_prepareOutput options fs).extends.trans (extends_interpretRecords ..)
      · exact (grows_prepareOutput options fs).extends

/-- What a stream comes to on a tree that is underway to the one that it leaves. -/
theorem Underway.interpret (hl : fs.NoLinks []) (hF : (interpret options fs m stream).fs = F)
    (h : Underway (sessionTargets options fs m stream) fs F U) :
    ∃ U', interpret options U m stream = { interpret options fs m stream with fs := U' } ∧
      F.Same U' := by
  unfold sessionTargets at h
  unfold Transfer.interpret at hF ⊢
  by_cases h32 : stream.length < 32
  · rw [if_pos h32] at h hF ⊢
    obtain rfl : fs = F := hF
    exact ⟨U, by rw [if_pos h32], h.apart.same h.upper⟩
  · rw [if_neg h32] at h hF ⊢
    rw [if_neg h32]
    cases hp : sessionOf (stream.take 32) with
    | none =>
      simp only [hp] at h hF ⊢
      obtain rfl : fs = F := hF
      exact ⟨U, rfl, h.apart.same h.upper⟩
    | some header =>
      have hdir : outputDir options U = outputDir options fs := outputDir_eq h.lower.cwd
      simp only [hp, hdir] at h hF ⊢
      have hgrows := grows_prepareOutput options fs
      have hgrows' := grows_prepareOutput options U
      by_cases hd : (prepareOutput options fs).isDirectory (outputDir options fs)
      · rw [if_pos hd] at h hF ⊢
        rw [conclude_fs] at hF
        have hb := prepareOutput_between h.toBetween (hF ▸ extends_interpretRecords ..) (Or.inl hd)
        rw [if_pos (hb.lower.isDirectory hd)]
        have hlF := hF ▸ noLinks_interpretRecords (hgrows.noLinks hl) _
        have hredone := Underway.interpretRecords hlF _
          ⟨hb, h.apart.grow hgrows hgrows' hb.lower⟩ (hF ▸ Reception.reaches_tree _)
        generalize Transfer.interpretRecords options (outputDir options fs) _
          (prepareOutput options fs) m _ = r at hF hredone
        generalize Transfer.interpretRecords options (outputDir options fs) _
          (prepareOutput options U) m _ = r' at hredone
        cases hredone with
        | ended e m hend => exact ⟨_, rfl, hend.apart.same hend.upper⟩
        | going m rest hgo =>
          obtain rfl : _ = F := hF
          exact ⟨_, rfl, hgo.apart.same hgo.upper⟩
      · rw [if_neg hd] at h hF ⊢
        obtain rfl : prepareOutput options fs = F := hF
        have hb := prepareOutput_between h.toBetween (.refl _) (Or.inr (.refl _))
        rw [if_neg (by rwa [hb.alike.isDirectory])]
        exact ⟨_, rfl, (h.apart.grow hgrows hgrows' hb.lower).same hb.upper⟩

theorem FileOutcome.underway {size : UInt64} {expected : UInt32} {ok : Bool} (hF : F.NoLinks [])
    (h : Targeted F T safe T₁ k) (hk : k ∈ ks) (hb : T.Between F w.host.fs)
    (hi : w.incoming <+: rest) (ho : FileOutcome f safe size expected s w ok s' w') :
    Underway ks w.host.fs F w'.host.fs ∧ (ok = true → ∃ T' m' rest',
      receiveAt T₁ k m safe size expected rest = .going T' m' rest' ∧
      w'.incoming <+: rest' ∧ T'.Extends w'.host.fs) := by
  obtain ⟨b, hlast⟩ := h.file
  have hplace : ∀ {fs₁ k'}, Opens f safe w.host.fs fs₁ k' → ∀ c c', Underway ks w.host.fs F
      (fs₁.place k' (.file c)) ∧ k' = k ∧
        (T₁.place k (.file c')).Extends (fs₁.place k (.file c)) := by
    intro fs₁ k' hopens c c'
    obtain ⟨hg, -⟩ := h.prepared hb hopens.prepared
    obtain ⟨rfl, hb₁⟩ := h.opens hb hF hopens
    have hpl := hb₁.place hlast h.canPlace c' c
    refine ⟨⟨⟨?_, hpl.upper⟩, ?_⟩, rfl, hpl.lower⟩
    · exact hg.extends.trans (extends_place_file (hb₁.not_symlink hlast) c)
    · exact (hg.apart ks).trans (growsApart_place hk fs₁ _)
  cases ho with
  | closed fs₁ hp _ =>
    obtain ⟨hg, hupper⟩ := h.prepared hb hp
    refine ⟨⟨⟨hg.extends, hupper⟩, hg.apart ks⟩, ?_⟩
    intro hok
    cases hok
  | whole fs₁ k' payload rest' stored p hopens hl hi' hs =>
    obtain ⟨hunder, rfl, hlow⟩ := hplace hopens stored payload
    refine ⟨hunder, fun hok => ?_⟩
    obtain ⟨t, rfl⟩ := hi
    rw [hi', List.append_assoc, receiveAt, if_neg (by rw [List.length_append]; omega)]
    simp only [List.take_left' hl, List.drop_left' hl, hok, if_true]
    exact ⟨_, _, _, rfl, List.prefix_append _ _, hlow⟩
  | cut fs₁ k' stored p hopens =>
    obtain ⟨hunder, -⟩ := hplace hopens stored []
    refine ⟨hunder, ?_⟩
    intro hok
    cases hok
  | failed e fs₁ k' bs rest' stored p hopens =>
    obtain ⟨hunder, -⟩ := hplace hopens stored []
    refine ⟨hunder, ?_⟩
    intro hok
    cases hok

theorem FileOutcome.underway_refused {size : UInt64} {expected : UInt32} {ok : Bool}
    (hd : ¬ f.disk) (hb : T.Between F w.host.fs) (hT : openTarget T safe = (F, none))
    (ho : FileOutcome f safe size expected s w ok s' w') :
    Underway ks w.host.fs F w'.host.fs ∧ ok = false := by
  obtain ⟨hU, hend⟩ := openTarget_none_between hb hT
  have hnot : ∀ {fs₁ k'}, ¬ Opens f safe w.host.fs fs₁ k' := by
    intro fs₁ k' hopens
    have := (opens_iff hd).mp hopens
    rw [hU] at this
    cases this
  cases ho with
  | closed fs₁ hp _ =>
    obtain rfl := (prepared_iff hd).mp hp
    exact ⟨⟨⟨(mkdirs_grows _ _).extends, hend.upper⟩, (mkdirs_grows _ _).apart ks⟩, rfl⟩
  | whole _ _ _ _ _ _ hopens => exact absurd hopens hnot
  | cut _ _ _ _ hopens => exact absurd hopens hnot
  | failed _ _ _ _ _ _ _ hopens => exact absurd hopens hnot

theorem RecordOutcome.underway {ok : Bool} (hF : F.NoLinks []) (hb : T.Between F w.host.fs)
    (hr : (interpretRecord options dir T m stream).Reaches F)
    (hgo : f.disk → ∃ T' m' rest', interpretRecord options dir T m stream = .going T' m' rest')
    (hks : ∀ k ∈ target dir T stream, k ∈ ks) (hi : w.incoming <+: stream)
    (ho : RecordOutcome f options dir s w ok s' w') :
    Underway ks w.host.fs F w'.host.fs ∧ (ok = true → ∃ T' m' rest',
      interpretRecord options dir T m stream = .going T' m' rest' ∧
      w'.incoming <+: rest' ∧ T'.Extends w'.host.fs) := by
  have hsame : Underway ks w.host.fs F w.host.fs :=
    ⟨.refl hb.upper, fun _ _ => Or.inl rfl⟩
  obtain ⟨t, rfl⟩ := hi
  have hfile : ∀ {e rest safe ok s' w'}, e.relPath ≠ [] → e.relPath.length ≤ 0xFFFF →
      w.incoming = encodeFileHeader e ++ rest → validateAndJoin dir e.relPath = .ok safe →
      FileOutcome f safe e.size (expectedCrc options e.crc32) s (w.reading rest) ok s' w' →
      Underway ks w.host.fs F w'.host.fs ∧ (ok = true → ∃ T' m' rest',
        interpretRecord options dir T m (w.incoming ++ t) = .going T' m' rest' ∧
        w'.incoming <+: rest' ∧ T'.Extends w'.host.fs) := by
    intro e rest safe ok s' w' hne hl hin hv hfo
    have hb' : T.Between F (w.reading rest).host.fs := hb
    rw [hin, List.append_assoc] at hr hgo hks ⊢
    simp only [interpretRecord, target, headerOf_encode hl, interpretEntry, if_neg hne,
      hv] at hr hgo hks ⊢
    rcases hT : openTarget T safe with ⟨T₁, _ | k⟩
    · simp only [hT] at hr hgo
      obtain rfl : T₁ = F := hr
      have hd : ¬ f.disk := fun hd => by
        obtain ⟨_, _, _, h⟩ := hgo hd
        cases h
      obtain ⟨hunder, rfl⟩ := hfo.underway_refused hd hb' hT
      refine ⟨hunder, ?_⟩
      intro hok
      cases hok
    · simp only [hT] at hr hks ⊢
      obtain ⟨c, hc⟩ := exists_placed hr
      have htargeted := targeted_of_openTarget hF hT hc
      have hunder := hfo.underway (m := m) hF htargeted (hks k rfl) hb' (List.prefix_append rest t)
      exact hunder
  cases ho with
  | noHeader hh =>
    rw [hh.frame.2.2]
    refine ⟨hsame, ?_⟩
    intro hok
    cases hok
  | skipped e rest he hin =>
    refine ⟨hsame, fun _ => ⟨T, m, rest ++ t, ?_, List.prefix_append _ _, hb.lower⟩⟩
    rw [hin, List.append_assoc, interpretRecord, headerOf_encode (by simp [he])]
    exact if_pos he
  | rejected =>
    refine ⟨hsame, ?_⟩
    intro hok
    cases hok
  | refused e rest safe hne hl hin hv hfo => exact hfile hne hl hin hv hfo
  | stored e rest safe hne hl hin hv hfo => exact hfile hne hl hin hv hfo

theorem made_between (h : fs.Between F G) (hF : (prepareOutput options fs).Extends F)
    (hd : (prepareOutput options fs).isDirectory (outputDir options fs) ∨
      F.Extends (prepareOutput options fs))
    (hm : Made f options (outputDir options G) G G₁) : G.Grows G₁ ∧ G₁.Extends F := by
  have hupper := (prepareOutput_between h hF hd).upper
  obtain ⟨ps, ⟨qs, hqs⟩, -, hno, rfl⟩ := hm
  refine ⟨mkdirs_grows G ps, ?_⟩
  unfold prepareOutput at hupper
  split at hupper
  · rw [createDirectories, ← hqs] at hupper
    exact (mkdirs_append G ps qs).extends.trans hupper
  · rename_i hc
    rw [hno (Bool.eq_false_iff.mpr hc)]
    exact hupper

/-- What an attempt knows of the reception when its record loop starts. -/
structure Started (options : ReceiverOptions) (fs F : FileSystem) (m : ReceiverSummary)
    (stream : Bytes) (header : SessionHeader) (dir : Bytes) (w : Side) : Prop where
  dir_eq : dir = outputDir options fs
  between : (prepareOutput options fs).Between F w.host.fs
  incoming : w.incoming <+: stream.drop 32
  interpret_eq : interpret options fs m stream =
    conclude (interpretRecords options dir header.totalFiles.toNat (prepareOutput options fs) m
      (stream.drop 32))
  targets_eq : sessionTargets options fs m stream =
    targets options dir header.totalFiles.toNat (prepareOutput options fs) m (stream.drop 32)

theorem OpenOutcome.underway {r : Option (SessionHeader × Bytes)}
    (hF : (interpret options fs m stream).fs = F)
    (hok : f.disk → (interpret options fs m stream).ok = true) (hb : fs.Between F w.host.fs)
    (hi : w.incoming <+: stream) (h : OpenOutcome f options s w r s' w') :
    Underway ks w.host.fs F w'.host.fs ∧ ∀ header dir, r = some (header, dir) →
      Started options fs F m stream header dir w' := by
  obtain ⟨t, rfl⟩ := hi
  -- what the reception makes of a header that the attempt has read
  have hopen : ∀ {buf rest header}, buf.length = 32 → w.incoming = buf ++ rest →
      sessionOf buf = some header →
      (w.incoming ++ t).drop 32 = rest ++ t ∧
      interpret options fs m (w.incoming ++ t) =
        (if (prepareOutput options fs).isDirectory (outputDir options fs) then
          conclude (interpretRecords options (outputDir options fs) header.totalFiles.toNat
            (prepareOutput options fs) m (rest ++ t))
        else ⟨false, some .notADirectory, prepareOutput options fs, m, encodeAck 0⟩) ∧
      sessionTargets options fs m (w.incoming ++ t) =
        (if (prepareOutput options fs).isDirectory (outputDir options fs) then
          targets options (outputDir options fs) header.totalFiles.toNat
            (prepareOutput options fs) m (rest ++ t)
        else []) := by
    intro buf rest header hl hin hp
    have hlen : ¬ (w.incoming ++ t).length < 32 := by
      rw [hin, List.length_append, List.length_append]
      omega
    have htake : (w.incoming ++ t).take 32 = buf := by
      rw [hin, List.append_assoc, List.take_left' hl]
    have hdrop : (w.incoming ++ t).drop 32 = rest ++ t := by
      rw [hin, List.append_assoc, List.drop_left' hl]
    refine ⟨hdrop, ?_, ?_⟩
    · rw [interpret, if_neg hlen, htake, hp, hdrop]
    · rw [sessionTargets, if_neg hlen, htake, hp, hdrop]
  have hmade : ∀ {buf rest header fs₁}, buf.length = 32 → w.incoming = buf ++ rest →
      sessionOf buf = some header → Made f options (outputDir options w.host.fs) w.host.fs fs₁ →
      Underway ks w.host.fs F fs₁ := by
    intro buf rest header fs₁ hl hin hp hm
    have hgrow : w.host.fs.Grows fs₁ ∧ fs₁.Extends F := by
      rw [(hopen hl hin hp).2.1] at hF
      split at hF
      · rename_i hd
        rw [conclude_fs] at hF
        exact made_between hb (hF ▸ extends_interpretRecords ..) (Or.inl hd) hm
      · obtain rfl : prepareOutput options fs = F := hF
        exact made_between hb (.refl _) (Or.inr (.refl _)) hm
    exact ⟨⟨hgrow.1.extends, hgrow.2⟩, hgrow.1.apart ks⟩
  cases h with
  | noHandshake hh =>
    rw [hh.host]
    refine ⟨⟨.refl hb.upper, fun _ _ => Or.inl rfl⟩, ?_⟩
    intro _ _ hr
    cases hr
  | noOutput header hh ho =>
    cases hh with
    | done buf rest _ hl hin hp =>
      cases ho with
      | missing fs₁ hm hno =>
        refine ⟨hmade hl hin hp hm, ?_⟩
        intro _ _ hr
        cases hr
  | opened header dir hh ho =>
    cases hh with
    | done buf rest _ hl hin hp =>
      cases ho with
      | ready fs₁ hm hyes =>
        have hunder := hmade hl hin hp hm
        refine ⟨hunder, ?_⟩
        rintro _ _ ⟨⟩
        obtain ⟨hdrop, hint, htargets⟩ := hopen hl hin hp
        have hdir : outputDir options w.host.fs = outputDir options fs := outputDir_eq hb.lower.cwd
        have hdir₁ : outputDir options fs₁ = outputDir options fs :=
          outputDir_eq (hb.lower.trans hunder.lower).cwd
        have hyes : fs₁.isDirectory (outputDir options fs) := hdir ▸ hyes
        by_cases hd : (prepareOutput options fs).isDirectory (outputDir options fs)
        · rw [if_pos hd] at hint htargets
          have hreach : (prepareOutput options fs).Extends F := by
            rw [hint, conclude_fs] at hF
            exact hF ▸ extends_interpretRecords ..
          have hb₁ : fs.Between F fs₁ := ⟨hb.lower.trans hunder.lower, hunder.upper⟩
          have hbetween := prepareOutput_between hb₁ hreach (Or.inl hd)
          have hstay : prepareOutput options fs₁ = fs₁ :=
            prepareOutput_of_isDirectory (by rwa [hdir₁])
          rw [hstay] at hbetween
          rw [← hdrop, ← hdir] at hint htargets
          exact ⟨hdir, hbetween, hdrop ▸ List.prefix_append rest t, hint, htargets⟩
        · -- where the reception has found no directory, an attempt that creates it finds none
          rw [if_neg hd] at hint
          rw [hint] at hF hok
          obtain rfl : prepareOutput options fs = F := hF
          have hdisk : ¬ f.disk := fun hdisk => Bool.false_ne_true (hok hdisk)
          obtain rfl := (made_iff hdisk).mp hm
          have halike := (prepareOutput_between hb (.refl _) (Or.inr (.refl _))).alike
          rw [← halike.isDirectory] at hd
          exact absurd hyes hd

/-- An attempt, with `n` records still to come, does no more than a reception of the stream. -/
structure Attempting (f : Faults) (options : ReceiverOptions) (ks : List Key) (F : FileSystem)
    (dir : Bytes) (n : ℕ) (T : FileSystem) (m : ReceiverSummary) (stream : Bytes) (w : Side) :
    Prop where
  between : T.Between F w.host.fs
  reaches : (interpretRecords options dir n T m stream).Reaches F
  going : f.disk → ∃ T' m' rest, interpretRecords options dir n T m stream = .going T' m' rest
  incoming : w.incoming <+: stream
  targets : ∀ k ∈ targets options dir n T m stream, k ∈ ks

theorem Attempting.step {n : ℕ} {ok : Bool} (hF : F.NoLinks [])
    (h : Attempting f options ks F dir (n + 1) T m stream w)
    (ho : RecordOutcome f options dir s w ok s' w') :
    Underway ks w.host.fs F w'.host.fs ∧ (ok = true → ∃ T' m' rest,
      Attempting f options ks F dir n T' m' rest w') := by
  obtain ⟨hb, hr, hgo, hi, hks⟩ := h
  rw [interpretRecords_succ] at hr hgo
  unfold Transfer.targets at hks
  have hfirst : (interpretRecord options dir T m stream).Reaches F := by
    cases hi : interpretRecord options dir T m stream with
    | ended => rwa [hi] at hr
    | going T' m₁ rest =>
      rw [hi] at hr
      exact (extends_interpretRecords n T' m₁ rest).trans hr.extends
  have hfirstgo : f.disk → ∃ T' m' rest, interpretRecord options dir T m stream =
      .going T' m' rest := by
    intro hd
    cases hi : interpretRecord options dir T m stream with
    | ended e T' m' =>
      rw [hi] at hgo
      obtain ⟨_, _, _, h⟩ := hgo hd
      cases h
    | going T' m' rest => exact ⟨T', m', rest, rfl⟩
  have htarget : ∀ k ∈ target dir T stream, k ∈ ks :=
    fun k hk => hks k (List.mem_append_left _ (Option.mem_toList.mpr hk))
  obtain ⟨hunder, hnext⟩ := ho.underway hF hb hfirst hfirstgo htarget hi
  refine ⟨hunder, fun hok => ?_⟩
  obtain ⟨T', m', rest, hgoing, hi', hlow⟩ := hnext hok
  rw [hgoing] at hr hgo
  refine ⟨T', m', rest, ⟨hlow, hunder.upper⟩, hr, hgo, hi', fun k hk => hks k ?_⟩
  rw [hgoing]
  exact List.mem_append_right _ hk

/-- An attempt leaves a tree that is underway to the one that the reception leaves. -/
theorem always_receiveStream_underway (hl : fs.NoLinks [])
    (hF : (interpret options fs m stream).fs = F)
    (hok : f.disk → (interpret options fs m stream).ok = true)
    (h : Underway (sessionTargets options fs m stream) fs F w.host.fs)
    (hi : w.incoming <+: stream) :
    Always f (receiveStream options) s w fun _ _ w' =>
      Underway (sessionTargets options fs m stream) fs F w'.host.fs := by
  generalize hks : sessionTargets options fs m stream = ks at h
  have hstill : ∀ {G G'}, Underway ks fs F G → Underway ks G F G' → Underway ks fs F G' :=
    fun h h' => ⟨⟨h.lower.trans h'.lower, h'.upper⟩, h.apart.trans h'.apart⟩
  refine always_receiveStream
    (I := fun dir n _ w' => F.NoLinks [] ∧ Underway ks fs F w'.host.fs ∧
      ∃ T m' rest, Attempting f options ks F dir n T m' rest w')
    (J := fun _ w' => Underway ks fs F w'.host.fs) ?_ ?_ ?_ (fun h => h) ?_
  · intro s' w' ho
    exact hstill h (ho.underway hF hok h.toBetween hi).1
  · intro header dir s' w' ho
    obtain ⟨hunder, hstart⟩ := ho.underway hF hok h.toBetween hi
    obtain ⟨rfl, hb, hi', hint, htargets⟩ := hstart header dir rfl
    rw [hint] at hF hok
    rw [conclude_fs] at hF
    refine ⟨hF ▸ noLinks_interpretRecords ((grows_prepareOutput options fs).noLinks hl) _,
      hstill h hunder, _, _, _, hb, hF ▸ Reception.reaches_tree _, fun hd => ?_, hi', ?_⟩
    · cases hr : interpretRecords options (outputDir options fs) header.totalFiles.toNat
        (prepareOutput options fs) m (stream.drop 32) with
      | ended =>
        rw [hr] at hok
        cases hok hd
      | going T' m' rest => exact ⟨T', m', rest, rfl⟩
    · rw [← hks, htargets]
      exact fun _ hk => hk
  · rintro dir n s₁ w₁ ok s' w' ⟨hlF, hunder, T, m', rest, hat⟩ ho
    obtain ⟨hstep, hnext⟩ := hat.step hlF ho
    cases ok with
    | false => exact hstill hunder hstep
    | true => exact ⟨hlF, hstill hunder hstep, hnext rfl⟩
  · rintro dir s₁ w₁ ⟨-, hunder, -⟩
    apply wp_mono always_finishSession
    rintro _ _ _ ⟨ec, elapsed, rest, -, -, rfl, rfl⟩
    exact hunder

/-- What attempts at receiving a stream leave of a file system. Each gets some of the stream, and
whatever can fail may fail in it. -/
inductive Attempted (f : Faults) (options : ReceiverOptions) (stream : Bytes) (fs : FileSystem) :
    FileSystem → Prop
  | start : Attempted f options stream fs fs
  | again {s s' : Refs} {w w' : Side} {ok : Bool} : Attempted f options stream fs w.host.fs →
      w.incoming <+: stream →
      Program.Exec (machine f) ((receiveStream options).run s) w (ok, s') w' →
      Attempted f options stream fs w'.host.fs

theorem attempted_of_prefix (hp : part <+: stream) :
    Attempted f options stream fs (interpret options fs {} part).fs := by
  have hall : Always .none (receiveStream options) {} ⟨⟨fs, none⟩, part, []⟩
      fun _ _ w' => w'.host.fs = (interpret options fs {} part).fs := by
    apply wp_mono (always_receiveStream_interpret id id id)
    rintro _ _ _ ⟨_, rfl, -, -, hfs, -⟩
    exact hfs
  obtain ⟨ok, s', w', he, hfs⟩ := hall.exists_exec
  exact hfs ▸ .again .start hp (exec_of_none he)

theorem Attempted.underway (hl : fs.NoLinks []) (hF : (interpret options fs m stream).fs = F)
    (hok : f.disk → (interpret options fs m stream).ok = true)
    (h : Attempted f options stream fs G) :
    Underway (sessionTargets options fs m stream) fs F G := by
  induction h with
  | start => exact ⟨.refl (hF ▸ extends_interpret ..), fun _ _ => Or.inl rfl⟩
  | @again s _ _ _ _ _ hi hexec ih =>
    have hnext := always_receiveStream_underway (s := s) hl hF hok ih hi
    have hleft := Program.Ensures.of_exec hnext hexec
    exact hleft

/-- After any number of attempts at a stream, receiving all of it gives the verdict, the error code
and the summary, and leaves the file system, of a reception without them. Where disks have been
failing this takes that the stream can be received. -/
theorem receive_recovers (f : Faults) (options : ReceiverOptions) (s : Refs) (w : Side)
    (st : Option (Key × Bytes)) (out : Bytes) (hl : w.host.fs.NoLinks []) :
    Always .none (receiveStream options) s w fun ok s' w' =>
      ∀ G, Attempted f options w.incoming w.host.fs G → (f.disk → ok = true) →
        Always .none (receiveStream options) s ⟨⟨G, st⟩, w.incoming, out⟩ fun ok₂ s₂ w₂ =>
          ok₂ = ok ∧ s₂.ec = s'.ec ∧ untimed s₂.summary = untimed s'.summary ∧
            w'.host.fs.Same w₂.host.fs := by
  apply wp_mono (always_receiveStream_interpret (f := .none) id id id)
  rintro ok s' w' ⟨_, rfl, hok, hec, hfs, ⟨t, hm⟩, -⟩ G hG hdisk
  have hunder := hG.underway (m := s.summary) hl hfs.symm fun hd => hok ▸ hdisk hd
  obtain ⟨U, hU, hsame⟩ := hunder.interpret hl hfs.symm
  apply wp_mono (always_receiveStream_interpret (f := .none) id id id)
  rintro ok₂ s₂ w₂ ⟨_, rfl, hok₂, hec₂, hfs₂, ⟨t₂, hm₂⟩, -⟩
  simp only [hU] at hok₂ hec₂ hfs₂ hm₂
  refine ⟨hok₂.trans hok.symm, hec₂.trans hec.symm, ?_, hfs₂ ▸ hsame⟩
  rw [hm, hm₂]
  rfl

/-- All but the last byte of the payload of the second record. -/
def tornStream : Bytes :=
  encodeSessionHeader { totalFiles := 2 } ++ ((rewrites.take 2).flatMap Record.encode).dropLast

theorem tornStream_prefix : tornStream <+: rewriting 2 := by
  rw [rewriting, List.append_assoc]
  exact (List.prefix_append_right_inj _).mpr ((List.dropLast_prefix _).trans (List.prefix_append ..))

/-- What is left where the connection is lost within the second record. -/
def torn : FileSystem := (interpret { outputDir := rootName } standing {} tornStream).fs

theorem attempted_torn : Attempted ⟨True, True, True, True, True⟩ { outputDir := rootName }
    (rewriting 2) standing torn := by
  rw [torn]
  exact attempted_of_prefix tornStream_prefix

/-- The stream is received although an attempt has broken off, and what it has left differs. -/
theorem torn_recovers : torn.lookup [[0x61]] = some (.file [0x31]) ∧
    torn.lookup [[0x64], [0x65]] = some (.file []) ∧
    Always .none (receiveStream { outputDir := rootName }) {} ⟨⟨standing, none⟩, rewriting 2, []⟩
      fun ok s' w' => Always .none (receiveStream { outputDir := rootName }) {}
        ⟨⟨torn, none⟩, rewriting 2, []⟩ fun ok₂ s₂ w₂ =>
          ok₂ = ok ∧ s₂.ec = s'.ec ∧ untimed s₂.summary = untimed s'.summary ∧
            w'.host.fs.Same w₂.host.fs := by
  have hdir : (prepareOutput { outputDir := rootName } standing).isDirectory
      (outputDir { outputDir := rootName } standing) := by decide
  have hok : (interpret { outputDir := rootName } standing {} (rewriting 2)).ok = true := by
    rw [rewriting, List.append_assoc, interpret_encode _ _ hdir]
    decide
  have hleft : torn.lookup [[0x61]] = some (.file [0x31]) ∧
      torn.lookup [[0x64], [0x65]] = some (.file []) := by
    rw [torn, tornStream, interpret_encode _ _ hdir]
    decide
  refine ⟨hleft.1, hleft.2, wp_mono (Always.and
    (receive_recovers ⟨True, True, True, True, True⟩ { outputDir := rootName } {}
      ⟨⟨standing, none⟩, rewriting 2, []⟩ none [] noLinks_standing)
    (always_receiveStream_interpret id id id)) ?_⟩
  rintro ok s' w' ⟨hrec, _, rfl, hr, -⟩
  exact hrec torn attempted_torn fun _ => hr.trans hok

end Xfer.Transfer
