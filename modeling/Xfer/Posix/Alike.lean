import Xfer.Posix.Locate

/-! # File systems of the same shape

Two file systems that differ in the contents of files only answer every lookup
in the same way, and creating directories that have been created before changes
nothing.
-/

namespace Xfer.Posix.FileSystem

variable {fs fs' fs₁ : FileSystem} {k o cur : Key} {p q : Bytes} {ps : List Bytes} {b : Bytes}

/-- The same nodes, apart from the contents of files. -/
structure Alike (fs fs' : FileSystem) : Prop extends fs.Extends fs' where
  absent : ∀ {k}, fs.lookup k = none → fs'.lookup k = none

theorem Alike.refl (fs : FileSystem) : fs.Alike fs := ⟨.refl fs, id⟩

namespace Alike

variable (h : fs.Alike fs')
include h

theorem dir_iff : fs'.lookup k = some .dir ↔ fs.lookup k = some .dir := by
  constructor
  · intro hk
    rcases hv : fs.lookup k with _ | ⟨b | _ | t⟩
    · simp [h.absent hv] at hk
    · obtain ⟨b', hb'⟩ := h.file hv
      simp [hb'] at hk
    · rfl
    · simp [h.symlink hv] at hk
  · exact h.dir

theorem none_iff : fs'.lookup k = none ↔ fs.lookup k = none := by
  constructor
  · intro hk
    by_contra hn
    exact h.toExtends.lookup_ne_none hn hk
  · exact h.absent

theorem walkWith {link link' : Key → List Bytes → Option Key} (hl : link' = link)
    (cs : List Bytes) (cur : Key) : fs'.walkWith link' cur cs = fs.walkWith link cur cs := by
  subst hl
  induction cs generalizing cur with
  | nil => rfl
  | cons c cs ih =>
    unfold FileSystem.walkWith
    simp only [h.dir_iff, ih]
    rcases hv : fs.lookup (cur ++ [c]) with _ | ⟨b | _ | t⟩
    · rw [h.absent hv]
    · obtain ⟨b', hb'⟩ := h.file hv
      rw [hb']
    · rw [h.dir hv]
    · rw [h.symlink hv]

theorem walk (n : ℕ) (cur : Key) (cs : List Bytes) : fs'.walk n cur cs = fs.walk n cur cs := by
  induction n generalizing cur cs with
  | zero => exact h.walkWith rfl cs cur
  | succ n ih => exact h.walkWith (funext₂ ih) cs cur

theorem locate (p : Bytes) : fs'.locate p = fs.locate p := by
  unfold FileSystem.locate start
  rw [h.cwd, h.walk]

theorem pathExists (p : Bytes) : fs'.pathExists p = fs.pathExists p := by
  rw [Bool.eq_iff_iff, pathExists_iff, pathExists_iff]
  simp only [h.locate, ne_eq, h.none_iff]

theorem isDirectory (p : Bytes) : fs'.isDirectory p = fs.isDirectory p := by
  rw [Bool.eq_iff_iff, isDirectory_iff, isDirectory_iff]
  simp only [h.locate, h.dir_iff]

theorem canPlace_iff : fs'.CanPlace k ↔ fs.CanPlace k := by
  unfold CanPlace
  rw [ne_eq (fs'.lookup k), h.dir_iff, h.dir_iff]

theorem mkdir_eq_none (hn : fs.mkdir p = none) : fs'.mkdir p = none := by
  unfold FileSystem.mkdir at hn ⊢
  unfold start at hn ⊢
  rw [h.cwd, h.walk]
  split at hn
  · simp only at hn ⊢
    split at hn
    · cases hn
    · rename_i hc
      rw [if_neg]
      rwa [h.none_iff, h.canPlace_iff]
  · rfl

end Alike

theorem Alike.place (h : fs.Alike fs') (hk : fs.lookup k = some (.file b)) (c : Bytes) :
    fs.Alike (fs'.place k (.file c)) := by
  obtain ⟨b', hb'⟩ := h.file hk
  refine ⟨h.toExtends.trans (extends_place_file (by simp [hb']) c), fun {k'} hk' => ?_⟩
  have hne : k' ≠ k := by
    rintro rfl
    rw [hk] at hk'
    cases hk'
  rw [lookup_place_ne _ _ hne, h.absent hk']

/-- Creating the directories `ps` changes nothing: each exists, up to one that cannot be created. -/
def Settled (fs : FileSystem) : List Bytes → Prop
  | [] => True
  | p :: ps => if fs.pathExists p then fs.Settled ps else fs.mkdir p = none

theorem Settled.mkdirs_eq (h : fs.Settled ps) : fs.mkdirs ps = fs := by
  induction ps with
  | nil => rfl
  | cons p ps ih =>
    rw [mkdirs_cons]
    unfold Settled at h
    split at h
    · rename_i he
      rw [if_pos he, ih h]
    · rename_i he
      rw [if_neg he, h]

theorem pathExists_mkdir (h : fs.mkdir p = some fs') : fs'.pathExists p := by
  obtain ⟨k, hl, hk⟩ := locate_mkdir h
  obtain ⟨d, c, -, -, hn, hp, rfl⟩ := mkdir_cases h
  refine pathExists_iff.mpr ⟨k, hl, ?_⟩
  obtain rfl : d ++ [c] = k := by
    by_contra hne
    have := hk _ hne
    rw [lookup_place hp, if_pos rfl, hn] at this
    cases this
  simp [lookup_place hp]

theorem Grows.pathExists (h : fs.Grows fs') (hp : fs.pathExists p) : fs'.pathExists p := by
  obtain ⟨k, hl, hk⟩ := pathExists_iff.mp hp
  exact pathExists_iff.mpr ⟨k, h.extends.locate hl hk, h.extends.lookup_ne_none hk⟩

/-- Directories that have been created need not be created again. -/
theorem settled_mkdirs (fs : FileSystem) (ps : List Bytes) : (fs.mkdirs ps).Settled ps := by
  induction ps generalizing fs with
  | nil => trivial
  | cons p ps ih =>
    rw [mkdirs_cons]
    split
    · rename_i he
      rw [Settled, if_pos ((mkdirs_grows fs ps).pathExists he)]
      exact ih fs
    · rename_i he
      cases hm : fs.mkdir p with
      | none =>
        rw [Settled, if_neg he]
        exact hm
      | some fs' =>
        rw [Settled, if_pos ((mkdirs_grows fs' ps).pathExists (pathExists_mkdir hm))]
        exact ih fs'

theorem Alike.settled (h : fs.Alike fs') (hs : fs.Settled ps) : fs'.Settled ps := by
  induction ps with
  | nil => trivial
  | cons p ps ih =>
    unfold Settled at hs ⊢
    rw [h.pathExists]
    split at hs
    · rename_i he
      rw [if_pos he]
      exact ih hs
    · rename_i he
      rw [if_neg he]
      exact h.mkdir_eq_none hs

theorem settled_of_pathExists (h : ∀ p ∈ ps, fs.pathExists p) : fs.Settled ps := by
  induction ps with
  | nil => trivial
  | cons p ps ih =>
    obtain ⟨hp, hps⟩ := List.forall_mem_cons.mp h
    rw [Settled, if_pos hp]
    exact ih hps

theorem pathExists_of_mem_leads {q : Bytes} (h : fs.isDirectory p) (hq : q ∈ leads p) :
    fs.pathExists q := by
  obtain ⟨o, hl, ho⟩ := isDirectory_iff.mp h
  obtain ⟨k, hk, hd⟩ := exists_locate_of_isPart hl ho (isPart_of_mem_leads hq)
    (ne_nil_of_mem_leads hq)
  exact pathExists_iff.mpr ⟨k, hk, by simp [hd]⟩

theorem createDirectories_of_isDirectory (h : fs.isDirectory p) : fs.createDirectories p = fs :=
  (settled_of_pathExists fun _ hq => pathExists_of_mem_leads h hq).mkdirs_eq

theorem Settled.pathExists (hs : fs.Settled ps)
    (h : ∀ p ∈ ps, fs.pathExists p ∨ fs.mkdir p ≠ none) : ∀ p ∈ ps, fs.pathExists p := by
  induction ps with
  | nil => simp
  | cons p ps ih =>
    obtain ⟨hp, hps⟩ := List.forall_mem_cons.mp h
    unfold Settled at hs
    split at hs
    · rename_i he
      exact List.forall_mem_cons.mpr ⟨he, ih hs hps⟩
    · rename_i he
      exact absurd hs (hp.resolve_left he)

theorem pathExists_or_mkdir (hl : fs.NoLinks []) (h : fs.locate p = some k) (hp : fs.CanPlace k)
    (hq : IsPart p q) (hne : q ≠ []) : fs.pathExists q ∨ fs.mkdir q ≠ none := by
  obtain ⟨hc, hw⟩ := locate_eq_walk h
  obtain ⟨hc', hstart⟩ := start_of_isPart hq hne hc
  have hroot : fs.lookup (fs.start (cstr q)) = some .dir := by unfold start; split <;> simp
  obtain ⟨ns, hns⟩ := hq.cstr.names
  rw [hstart, pieces, ← hns, List.append_assoc] at hw
  obtain ⟨m, k', hk', hrest⟩ := exists_walk_of_append hw
  rcases hcs : ns ++ (if endsWithSlash (cstr p) ∧ names (cstr q) ++ ns ≠ [] then [dot] else []) with
    _ | ⟨c, cs⟩
  · -- the part is the whole path
    obtain ⟨rfl, htail⟩ := List.append_eq_nil_iff.mp hcs
    rw [hcs, walk_nil, Option.some.injEq] at hrest
    subst hrest
    have hnames : names (cstr q) ≠ [] := by
      intro hn
      rw [hn, walk_nil, Option.some.injEq] at hk'
      exact hp.2.2.2 (hk' ▸ hroot)
    rw [List.append_nil] at hns htail
    have hslash : endsWithSlash (cstr p) = false := by
      rw [Bool.eq_false_iff]
      intro hs
      rw [if_pos ⟨hs, hnames⟩] at htail
      cases htail
    have hpq : cstr q = cstr p := eq_of_isPart_names hq.cstr hns hslash
    by_cases hk : fs.lookup k' = none
    · right
      obtain ⟨init, n, hn⟩ := (List.eq_nil_or_concat (names (cstr q))).resolve_left hnames
      rw [List.concat_eq_append] at hn
      rw [hn] at hk'
      obtain ⟨m', d, hd, hlast⟩ := exists_walk_of_append hk'
      obtain rfl : d ++ [n] = k' := by
        rcases walk_cons_cases hlast with ⟨hdir, rfl, h'⟩ | ⟨hdir, rfl, h'⟩ | ⟨-, -, -, h'⟩
        · rw [walk_nil, Option.some.injEq] at h'
          rw [← h', hdir] at hk
          cases hk
        · rw [walk_nil, Option.some.injEq] at h'
          rw [← h', dropLast_dir hdir] at hk
          cases hk
        · rcases h' with ⟨v, hv, -, h'⟩ | ⟨t, ht, -⟩ | ⟨-, -, h'⟩
          · rw [walk_nil, Option.some.injEq] at h'
            rw [← h', hv] at hk
            cases hk
          · exact absurd ht (hl (d ++ [n]) t)
          · exact h'
      have hpieces : pieces (cstr q) = init ++ [n] := by
        rw [pieces, hn, hpq, hslash]
        simp
      unfold mkdir
      rw [hpieces, List.dropLast_concat, hd]
      simp only [List.getLastD_concat, if_pos (And.intro hk hp), ne_eq, reduceCtorEq, not_false_eq_true]
    · exact Or.inl (pathExists_iff.mpr ⟨k', locate_congr hpq ▸ h, hk⟩)
  · left
    rw [hcs] at hrest
    have hd := lookup_of_walk_cons hrest
    exact pathExists_iff.mpr ⟨k', locate_of_walk_names hc' hk' hd, by simp [hd]⟩

end Xfer.Posix.FileSystem
