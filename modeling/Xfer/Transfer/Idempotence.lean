import Xfer.Posix.Between
import Xfer.Transfer.Interpretation

/-! # Receiving a stream twice

The second reception of a stream runs on a tree that has the shape of the final
one throughout, and each of its files holds what it holds in the end or what it
held at this point of the first reception.
-/

namespace Xfer.Posix.FileSystem

variable {fs fs' : FileSystem} {k : Key} {p : Bytes}

/-- One and the same file system, as far as any lookup can tell. -/
structure Same (fs fs' : FileSystem) : Prop where
  cwd : fs'.cwd = fs.cwd
  lookup : ∀ k, fs'.lookup k = fs.lookup k

theorem Same.refl (fs : FileSystem) : fs.Same fs := ⟨rfl, fun _ => rfl⟩

theorem Extends.canPlace {c : Bytes} (hp : fs.CanPlace k) (h : (fs.place k (.file c)).Extends fs') :
    fs'.CanPlace k := by
  obtain ⟨h₁, h₂, h₃, -⟩ := canPlace_place hp (c := c)
  obtain ⟨c', hc'⟩ := h.file (by rw [lookup_place hp, if_pos rfl] :
    (fs.place k (.file c)).lookup k = some (.file c))
  exact ⟨h₁, h.dir h₂, h₃, by simp [hc']⟩

end Xfer.Posix.FileSystem

namespace Xfer.Transfer

open Net Common Posix FileSystem Process Code

variable {options : ReceiverOptions} {dir safe rest c : Bytes} {fs T T₁ U F : FileSystem} {k : Key}
  {m m' : ReceiverSummary} {e : FileEntry} {r : Reception}

/-- The first reception is at `T` and goes on to `F`; the second one, which starts at `F`, is at
`U` when it gets there. -/
structure Replay (F T U : FileSystem) : Prop where
  noLinks : T.NoLinks []
  reached : T.Extends F
  alike : F.Alike U
  content : ∀ k, U.lookup k = T.lookup k ∨ U.lookup k = F.lookup k

theorem Replay.same (h : Replay F F U) : F.Same U :=
  ⟨h.alike.cwd, fun k => (h.content k).elim id id⟩

theorem Replay.grow (h : Replay F T U) (hg : T.Grows T₁) (he : T₁.Extends F) : Replay F T₁ U where
  noLinks := hg.noLinks h.noLinks
  reached := he
  alike := h.alike
  content k := by
    rcases h.content k with hk | hk
    · rcases hg.lookup k with hk' | ⟨hn, hd⟩
      · exact Or.inl (hk.trans hk'.symm)
      · -- a directory of the final tree is one of the second reception
        rw [hn] at hk
        have := h.alike.dir (he.dir hd)
        rw [hk] at this
        cases this
    · exact Or.inr hk

theorem Replay.place (h : Replay F T₁ U) (hp : T₁.CanPlace k)
    (he : (T₁.place k (.file c)).Extends F) :
    Replay F (T₁.place k (.file c)) (U.place k (.file c)) where
  noLinks := noLinks_place_file h.noLinks c
  reached := he
  alike := by
    obtain ⟨b, hb⟩ := he.file (by rw [lookup_place hp, if_pos rfl] :
      (T₁.place k (.file c)).lookup k = some (.file c))
    exact h.alike.place hb c
  content k' := by
    have hp' : U.CanPlace k := h.alike.canPlace_iff.mpr (he.canPlace hp)
    rw [lookup_place hp, lookup_place hp']
    split
    · exact Or.inl rfl
    · exact h.content k'

theorem openTarget_of_settled (h : U.Settled (leads (parentPath safe))) :
    openTarget U safe = (U, (U.locate safe).filter U.CanPlace) := by
  unfold openTarget
  rw [createDirectories, h.mkdirs_eq]

/-- A target that is opened is opened again, as the same file. -/
theorem Replay.openTarget (h : Replay F T U) (ho : openTarget T safe = (T₁, some k))
    (he : (T₁.place k (.file c)).Extends F) :
    openTarget U safe = (U, some k) ∧ Replay F (T₁.place k (.file c)) (U.place k (.file c)) := by
  obtain ⟨hT₁, hk⟩ := Prod.mk.inj ho
  obtain ⟨hl, hp⟩ := Option.filter_eq_some_iff.mp hk
  rw [hT₁] at hl hp
  have hp : T₁.CanPlace k := of_decide_eq_true hp
  have hg : T.Grows T₁ := hT₁ ▸ mkdirs_grows T _
  have hs : T₁.Settled (leads (parentPath safe)) := hT₁ ▸ settled_mkdirs T _
  have hT₁F : T₁.Extends F := (extends_place_file (not_symlink_of_locate hl) c).trans he
  have hex : ∀ p ∈ leads (parentPath safe), T₁.pathExists p := by
    refine hs.pathExists fun p hp' => ?_
    exact pathExists_or_mkdir (hg.noLinks h.noLinks) hl hp
      ((isPart_parentPath safe).trans (isPart_of_mem_leads hp')) (ne_nil_of_mem_leads hp')
  have hsU : U.Settled (leads (parentPath safe)) :=
    h.alike.settled (settled_of_pathExists fun p hp' => hT₁F.pathExists (hex p hp'))
  have hlF : F.locate safe = some k :=
    he.locate (locate_place hl hp c) (by simp [lookup_place hp])
  refine ⟨?_, (h.grow hg hT₁F).place hp he⟩
  rw [openTarget_of_settled hsU, h.alike.locate, hlF, Option.filter_some, if_pos]
  simpa using h.alike.canPlace_iff.mpr (he.canPlace hp)

/-- A target that cannot be opened in the end cannot be opened again. -/
theorem Replay.openTarget_none (h : Replay F T U) (ho : Transfer.openTarget T safe = (F, none)) :
    Transfer.openTarget U safe = (U, none) ∧ Replay F F U := by
  obtain ⟨rfl, hk⟩ := Prod.mk.inj ho
  have hs := settled_mkdirs T (leads (parentPath safe))
  refine ⟨?_, h.grow (mkdirs_grows T _) (.refl _)⟩
  rw [openTarget_of_settled (h.alike.settled hs), h.alike.locate, Prod.mk.injEq]
  refine ⟨rfl, ?_⟩
  rw [Option.filter_eq_none_iff] at hk ⊢
  intro k hl hp
  refine hk k hl ?_
  simpa using h.alike.canPlace_iff.mp (of_decide_eq_true hp)

/-- The reception ends at `F`, or is on its way there. -/
def Reception.Reaches (F : FileSystem) : Reception → Prop
  | .ended _ fs _ => fs = F
  | .going fs _ _ => fs.Extends F

/-- The second reception does what the first one did. -/
inductive Replays (F : FileSystem) : Reception → Reception → Prop
  | ended (e : Errc) (m m' : ReceiverSummary) {U : FileSystem} : Replay F F U →
      Replays F (.ended e F m) (.ended e U m')
  | going (rest : Bytes) (m m' : ReceiverSummary) {T U : FileSystem} : Replay F T U →
      Replays F (.going T m rest) (.going U m' rest)

theorem exists_placed {size : UInt64} {expected : UInt32}
    (hr : (receiveAt T₁ k m safe size expected rest).Reaches F) :
    ∃ c, (T₁.place k (.file c)).Extends F := by
  unfold receiveAt at hr
  split at hr
  · obtain rfl : _ = F := hr
    exact ⟨_, .refl _⟩
  · simp only at hr
    split at hr
    · exact ⟨_, hr⟩
    · obtain rfl : _ = F := hr
      exact ⟨_, .refl _⟩

theorem Replay.receiveAt {size : UInt64} {expected : UInt32} (h : Replay F T U)
    (ho : Transfer.openTarget T safe = (T₁, some k))
    (hr : (receiveAt T₁ k m safe size expected rest).Reaches F) :
    Replays F (receiveAt T₁ k m safe size expected rest)
      (receiveAt U k m' safe size expected rest) := by
  unfold Transfer.receiveAt at hr ⊢
  split
  · rename_i hlt
    rw [if_pos hlt] at hr
    obtain rfl : _ = F := hr
    exact .ended _ _ _ (h.openTarget ho (.refl _)).2
  · rename_i hlt
    rw [if_neg hlt] at hr
    simp only at hr ⊢
    split
    · rename_i hpass
      rw [if_pos hpass] at hr
      exact .going _ _ _ (h.openTarget ho hr).2
    · rename_i hpass
      rw [if_neg hpass] at hr
      obtain rfl : _ = F := hr
      exact .ended _ _ _ (h.openTarget ho (.refl _)).2

theorem Replay.interpretRecord {stream : Bytes} (h : Replay F T U)
    (hr : (interpretRecord options dir T m stream).Reaches F) :
    Replays F (interpretRecord options dir T m stream) (interpretRecord options dir U m' stream) := by
  unfold Transfer.interpretRecord at hr ⊢
  cases hh : headerOf stream with
  | error er =>
    rw [hh] at hr
    obtain rfl : T = F := hr
    exact .ended er m m' h
  | ok p =>
    obtain ⟨e, rest⟩ := p
    rw [hh] at hr
    simp only [interpretEntry] at hr ⊢
    split
    · exact .going rest m m' h
    · rename_i hne
      rw [if_neg hne] at hr
      cases hv : validateAndJoin dir e.relPath with
      | error er =>
        rw [hv] at hr
        obtain rfl : T = F := hr
        exact .ended er m m' h
      | ok safe =>
        simp only [hv] at hr ⊢
        rcases ho : Transfer.openTarget T safe with ⟨T₁, _ | k⟩
        · simp only [ho] at hr
          obtain rfl : T₁ = F := hr
          obtain ⟨hU, hF⟩ := h.openTarget_none ho
          rw [hU]
          exact .ended _ m m' hF
        · simp only [ho] at hr
          obtain ⟨c, hc⟩ := exists_placed hr
          rw [(h.openTarget ho hc).1]
          exact h.receiveAt ho hr

def Reception.tree : Reception → FileSystem
  | .ended _ fs _ => fs
  | .going fs _ _ => fs

theorem Reception.Reaches.extends (h : r.Reaches F) : r.tree.Extends F := by
  cases r with
  | ended => exact h ▸ .refl _
  | going => exact h

theorem Reception.reaches_tree (r : Reception) : r.Reaches r.tree := by
  cases r with
  | ended => rfl
  | going => exact Extends.refl _

@[simp] theorem conclude_fs (r : Reception) : (conclude r).fs = r.tree := by
  cases r <;> rfl

theorem extends_openTarget (ho : openTarget fs safe = (T₁, some k)) (c : Bytes) :
    fs.Extends (T₁.place k (.file c)) := by
  obtain ⟨rfl, hk⟩ := Prod.mk.inj ho
  exact (mkdirs_grows fs _).extends.trans
    (extends_place_file (not_symlink_of_locate (Option.filter_eq_some_iff.mp hk).1) c)

theorem extends_interpretRecord (options : ReceiverOptions) (dir : Bytes) (fs : FileSystem)
    (m : ReceiverSummary) (stream : Bytes) :
    fs.Extends (interpretRecord options dir fs m stream).tree := by
  unfold interpretRecord
  split
  · exact .refl _
  · rename_i e rest _
    unfold interpretEntry
    split
    · exact .refl _
    · split
      · exact .refl _
      · rename_i safe _
        rcases ho : openTarget fs safe with ⟨T₁, _ | k⟩
        · obtain ⟨rfl, -⟩ := Prod.mk.inj ho
          exact (mkdirs_grows fs _).extends
        · simp only [receiveAt]
          split
          · exact extends_openTarget ho _
          · split <;> exact extends_openTarget ho _

theorem extends_interpretRecords (n : ℕ) (fs : FileSystem) (m : ReceiverSummary)
    (stream : Bytes) : fs.Extends (interpretRecords options dir n fs m stream).tree := by
  induction n generalizing fs m stream with
  | zero => exact .refl _
  | succ n ih =>
    have he := extends_interpretRecord options dir fs m stream
    rw [interpretRecords_succ]
    cases hr : interpretRecord options dir fs m stream with
    | ended e fs' m' => rwa [hr] at he
    | going fs' m' rest =>
      rw [hr] at he
      exact he.trans (ih fs' m' rest)

theorem Replay.interpretRecords (n : ℕ) {stream : Bytes} (h : Replay F T U)
    (hr : (interpretRecords options dir n T m stream).Reaches F) :
    Replays F (interpretRecords options dir n T m stream)
      (interpretRecords options dir n U m' stream) := by
  induction n generalizing T U m m' stream with
  | zero => exact .going stream m m' h
  | succ n ih =>
    rw [interpretRecords_succ] at hr
    have hfirst : (Transfer.interpretRecord options dir T m stream).Reaches F := by
      cases hi : Transfer.interpretRecord options dir T m stream with
      | ended => rwa [hi] at hr
      | going T' m₁ rest =>
        rw [hi] at hr
        exact (extends_interpretRecords n T' m₁ rest).trans hr.extends
    have hrep : Replays F _ (Transfer.interpretRecord options dir U m' stream) :=
      h.interpretRecord hfirst
    rw [interpretRecords_succ, interpretRecords_succ]
    generalize Transfer.interpretRecord options dir T m stream = r₁ at hr hrep
    generalize Transfer.interpretRecord options dir U m' stream = r₂ at hrep
    cases hrep with
    | ended e m₁ m₂ hF => exact .ended e m₁ m₂ hF
    | going rest m₁ m₂ hT => exact ih hT hr

theorem outputDir_eq (h : F.cwd = fs.cwd) : outputDir options F = outputDir options fs := by
  unfold outputDir currentPath
  rw [h]

theorem prepareOutput_prepareOutput (options : ReceiverOptions) (fs : FileSystem) :
    prepareOutput options (prepareOutput options fs) = prepareOutput options fs := by
  have hcwd := (grows_prepareOutput options fs).cwd
  conv_lhs => rw [prepareOutput, outputDir_eq hcwd]
  unfold prepareOutput
  split
  · exact (settled_mkdirs fs _).mkdirs_eq
  · rfl

/-- Interpreting a stream on the tree that it has left gives this tree and the same verdict. -/
theorem interpret_again (options : ReceiverOptions) (fs : FileSystem) (m m' : ReceiverSummary)
    (stream : Bytes) (hl : fs.NoLinks []) {F : FileSystem}
    (hF : (interpret options fs m stream).fs = F) :
    (interpret options F m' stream).ok = (interpret options fs m stream).ok ∧
      F.Same (interpret options F m' stream).fs := by
  unfold interpret at hF ⊢
  split
  · rename_i h32
    rw [if_pos h32] at hF
    exact ⟨rfl, hF ▸ .refl _⟩
  · rename_i h32
    rw [if_neg h32] at hF
    split
    · rename_i hp
      rw [hp] at hF
      exact ⟨rfl, hF ▸ .refl _⟩
    · rename_i header hp
      simp only [hp] at hF ⊢
      by_cases hd : (prepareOutput options fs).isDirectory (outputDir options fs)
      · rw [if_pos hd] at hF
        rw [if_pos hd]
        generalize hr : interpretRecords options (outputDir options fs) header.totalFiles.toNat
          (prepareOutput options fs) m (stream.drop 32) = r at hF
        rw [conclude_fs] at hF
        have he : (prepareOutput options fs).Extends F := hF ▸ hr ▸ extends_interpretRecords ..
        have hdir : outputDir options F = outputDir options fs :=
          outputDir_eq (he.cwd.trans (grows_prepareOutput options fs).cwd)
        have hdF : F.isDirectory (outputDir options F) := hdir ▸ he.isDirectory hd
        have hstart : Replay F (prepareOutput options fs) F :=
          ⟨(grows_prepareOutput options fs).noLinks hl, he, .refl F, fun _ => Or.inr rfl⟩
        have hrep : Replays F (interpretRecords options (outputDir options fs) _ _ m _)
            (interpretRecords options (outputDir options fs) _ _ m' _) :=
          hstart.interpretRecords header.totalFiles.toNat (hr ▸ hF ▸ r.reaches_tree)
        rw [prepareOutput_of_isDirectory hdF, if_pos hdF, hdir]
        rw [hr] at hrep
        generalize interpretRecords options (outputDir options fs) header.totalFiles.toNat F m'
          (stream.drop 32) = r' at hrep
        cases hrep with
        | ended e m₁ m₂ hF' => exact ⟨rfl, hF'.same⟩
        | going rest m₁ m₂ hT =>
          obtain rfl : _ = F := hF
          exact ⟨rfl, hT.same⟩
      · rw [if_neg hd] at hF
        obtain rfl : prepareOutput options fs = F := hF
        rw [if_neg hd, prepareOutput_prepareOutput,
          outputDir_eq (grows_prepareOutput options fs).cwd, if_neg hd]
        exact ⟨rfl, .refl _⟩

/-- Running the receiver again on the stream that it has received, whatever that is, gives the same
verdict, and leaves the file system that the first run has left. -/
theorem receive_idempotent (options : ReceiverOptions) (s s₂ : Refs) (w : Side)
    (st : Option (Key × Bytes)) (out : Bytes) (hl : w.host.fs.NoLinks []) :
    Always .none (receiveStream options) s w fun ok _ w' =>
      Always .none (receiveStream options) s₂ ⟨⟨w'.host.fs, st⟩, w.incoming, out⟩ fun ok₂ _ w₂ =>
        ok₂ = ok ∧ w'.host.fs.Same w₂.host.fs := by
  refine wp_mono (always_receiveStream_interpret (f := .none) id id id) ?_
  rintro ok s' w' ⟨_, rfl, hok, -, hfs, -⟩
  have hagain := interpret_again options w.host.fs s.summary s₂.summary w.incoming hl hfs.symm
  refine wp_mono (always_receiveStream_interpret (f := .none) id id id) ?_
  rintro ok₂ _ w₂ ⟨_, rfl, hok₂, -, hfs₂, -⟩
  rw [hok₂, hok, hfs₂]
  exact hagain

/-- A file that is going to be overwritten. -/
def standing : FileSystem := FileSystem.empty.place [[0x61]] (.file [0x30])

theorem noLinks_standing : standing.NoLinks [] := noLinks_place_file (noLinks_empty []) _

/-- The file that exists, one in a new directory, the first one again, and one for which that would
have to be a directory. -/
def rewrites : List Record :=
  [.small 0x61 0 0x31, ⟨[0x64, 0x2F, 0x65], 0, [0x32, 0x33], by simp, by simp⟩, .small 0x61 0 0x34,
    ⟨[0x61, 0x2F, 0x78], 0, [0x35], by simp, by simp⟩]

/-- A session with the first records. -/
def rewriting (n : ℕ) : Bytes :=
  encodeSessionHeader { totalFiles := UInt64.ofNat n } ++ (rewrites.take n).flatMap Record.encode ++
    encodeDone

theorem rewriting_idempotent : standing.NoLinks [] ∧ ∀ n ≤ 4,
    Always .none (receiveStream { outputDir := rootName }) {} ⟨⟨standing, none⟩, rewriting n, []⟩
      fun ok _ w' => Always .none (receiveStream { outputDir := rootName }) {}
        ⟨⟨w'.host.fs, none⟩, rewriting n, []⟩ fun ok₂ _ w₂ =>
          ok₂ = ok ∧ w'.host.fs.Same w₂.host.fs :=
  ⟨noLinks_standing, fun n _ => receive_idempotent { outputDir := rootName } {} {}
    ⟨⟨standing, none⟩, rewriting n, []⟩ none [] noLinks_standing⟩

end Xfer.Transfer
