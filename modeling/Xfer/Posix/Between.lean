import Xfer.Posix.Alike

/-! # Between two stages

A file system that has every node of an earlier stage and, up to the contents of
files, none but those of a later one. Creating the directories that lead from
the one stage towards the other keeps it between them, and a path to a file of
the later stage leads to the same place in it.
-/

namespace Xfer.Posix.FileSystem

variable {fs fs' fs₁ mid last : FileSystem} {k cur : Key} {cs : List Bytes} {n : ℕ} {p q : Bytes}
  {ps qs : List Bytes} {c : Bytes}

theorem Extends.walk_unlinked (h : fs.Extends fs') (hw : fs.walk n cur cs = some k)
    (hk : ∀ t, fs'.lookup k ≠ some (.symlink t)) : fs'.walk n cur cs = some k := by
  by_cases hn : fs.lookup k = none
  · induction walks_of_walk hw with
    | nil => exact walk_nil
    | dot hd hw' ih => rw [walk_dot (h.dir hd), ih hw'.walk hk hn]
    | dotdot hd hw' ih => rw [walk_dotdot (h.dir hd), ih hw'.walk hk hn]
    | @name _ _ _ _ _ v hd h₁ h₂ hv hl hw' ih =>
      cases v with
      | symlink t => exact absurd rfl (hl t)
      | dir => rw [walk_name (h.dir hd) h₁ h₂ (h.dir hv) hl, ih hw'.walk hk hn]
      | file b =>
        obtain ⟨b', hb'⟩ := h.file hv
        rw [walk_name (h.dir hd) h₁ h₂ hb' (by simp), ih hw'.walk hk hn]
    | link hd h₁ h₂ hv hw' ih => rw [walk_link (h.dir hd) h₁ h₂ (h.symlink hv), ih hw'.walk hk hn]
    | @absent _ cur c hd h₁ h₂ hv =>
      cases hv' : fs'.lookup (cur ++ [c]) with
      | none => rw [walk_absent (h.dir hd) h₁ h₂ hv', if_pos rfl]
      | some v =>
        have hl : ∀ t, v ≠ .symlink t := fun t ht => hk t (ht ▸ hv')
        rw [walk_name (h.dir hd) h₁ h₂ hv' hl, walk_nil]
  · exact h.walk hw hn

theorem Extends.locate_unlinked (h : fs.Extends fs') (hl : fs.locate p = some k)
    (hk : ∀ t, fs'.lookup k ≠ some (.symlink t)) : fs'.locate p = some k := by
  unfold FileSystem.locate at hl ⊢
  split_ifs at hl ⊢
  rw [start, h.cwd]
  exact h.walk_unlinked hl hk

theorem Extends.alike (h : fs.Extends fs') (h' : fs'.Extends fs) : fs.Alike fs' where
  toExtends := h
  absent hk := by
    by_contra hn
    exact h'.lookup_ne_none hn hk

theorem Extends.noLinks (h : fs.Extends fs') (hl : fs'.NoLinks []) : fs.NoLinks [] :=
  fun ns t ht => hl ns t (h.symlink ht)

theorem Extends.isDirectory (h : fs.Extends fs') (hp : fs.isDirectory p) : fs'.isDirectory p := by
  obtain ⟨k, hl, hk⟩ := isDirectory_iff.mp hp
  exact isDirectory_iff.mpr ⟨k, h.locate hl (by simp [hk]), h.dir hk⟩

theorem Extends.pathExists (h : fs.Extends fs') (hp : fs.pathExists p) : fs'.pathExists p := by
  obtain ⟨k, hl, hk⟩ := pathExists_iff.mp hp
  exact pathExists_iff.mpr ⟨k, h.locate hl hk, h.lookup_ne_none hk⟩

theorem Extends.dir_of_lookup (h : fs.Extends fs') (hd : fs'.lookup k = some .dir)
    (hn : fs.lookup k ≠ none) : fs.lookup k = some .dir := by
  rcases hv : fs.lookup k with _ | ⟨b | _ | t⟩
  · exact absurd hv hn
  · obtain ⟨b', hb'⟩ := h.file hv
    rw [hd] at hb'
    cases hb'
  · rfl
  · rw [h.symlink hv] at hd
    cases hd

theorem not_pathExists_of_mkdir (h : fs.mkdir p = some fs₁) : ¬ fs.pathExists p := by
  intro he
  obtain ⟨k, hl, hk⟩ := pathExists_iff.mp he
  obtain ⟨k', hl', hk'⟩ := locate_mkdir h
  have hl₁ := (mkdir_grows h).extends.locate hl hk
  obtain rfl : k' = k := Option.some.inj (hl'.symm.trans hl₁)
  obtain ⟨d, c, -, -, hn, hp, rfl⟩ := mkdir_cases h
  by_cases he : d ++ [c] = k'
  · exact hk (he ▸ hn)
  · have := hk' _ he
    rw [lookup_place hp, if_pos rfl, hn] at this
    cases this

theorem Extends.place {v w : Node} (h : fs.Extends fs') (hw : fs'.lookup k = some w)
    (hv : v = w ∨ (∃ b, v = .file b) ∧ ∃ b, w = .file b) : (fs.place k v).Extends fs' := by
  by_cases hp : fs.CanPlace k
  · constructor
    · rw [cwd_place, h.cwd]
    · intro k' hk'
      rw [lookup_place hp] at hk'
      split at hk'
      · rename_i he
        obtain rfl := Option.some.inj hk'
        rcases hv with rfl | ⟨⟨b, hb⟩, -⟩
        · rw [he, hw]
        · cases hb
      · exact h.dir hk'
    · intro k' t hk'
      rw [lookup_place hp] at hk'
      split at hk'
      · rename_i he
        obtain rfl := Option.some.inj hk'
        rcases hv with rfl | ⟨⟨b, hb⟩, -⟩
        · rw [he, hw]
        · cases hb
      · exact h.symlink hk'
    · intro k' b hk'
      rw [lookup_place hp] at hk'
      split at hk'
      · rename_i he
        obtain rfl := Option.some.inj hk'
        rcases hv with rfl | ⟨-, b', rfl⟩
        · exact ⟨b, he ▸ hw⟩
        · exact ⟨b', he ▸ hw⟩
      · exact h.file hk'
  · rw [place_of_not_canPlace hp]
    exact h

theorem Extends.place_file (h : fs.Extends fs') (hp : fs'.CanPlace k)
    (hl : ∀ t, fs'.lookup k ≠ some (.symlink t)) (c c' : Bytes) :
    (fs.place k (.file c)).Extends (fs'.place k (.file c')) := by
  apply (h.trans (extends_place_file hl c')).place (w := .file c')
  · rw [lookup_place hp, if_pos rfl]
  · exact Or.inr ⟨⟨c, rfl⟩, c', rfl⟩

theorem Alike.symm (h : fs.Alike fs') : fs'.Alike fs where
  cwd := h.cwd.symm
  dir := h.dir_iff.mp
  symlink {k t} hk := by
    rcases hv : fs.lookup k with _ | ⟨b | _ | t'⟩
    · simp [h.absent hv] at hk
    · obtain ⟨b', hb'⟩ := h.file hv
      simp [hb'] at hk
    · simp [h.dir hv] at hk
    · rwa [h.symlink hv] at hk
  file {k b} hk := by
    rcases hv : fs.lookup k with _ | ⟨b | _ | t⟩
    · simp [h.absent hv] at hk
    · exact ⟨b, rfl⟩
    · simp [h.dir hv] at hk
    · simp [h.symlink hv] at hk
  absent := h.none_iff.mp

/-- A leading part of a path leads where the path leads, or to a directory. -/
theorem locate_or_isDirectory (h : fs.locate p = some k) (hq : IsPart p q) (hne : q ≠ []) :
    fs.locate q = some k ∨ fs.isDirectory q := by
  obtain ⟨hc, hw⟩ := locate_eq_walk h
  obtain ⟨hc', hstart⟩ := start_of_isPart hq hne hc
  have hroot : fs.lookup (fs.start (cstr q)) = some .dir := by unfold start; split <;> simp
  obtain ⟨ns, hns⟩ := hq.cstr.names
  rw [hstart, pieces, ← hns, List.append_assoc] at hw
  obtain ⟨m, k', hk', hrest⟩ := exists_walk_of_append hw
  by_cases hd : fs.lookup k' = some .dir
  · exact Or.inr (isDirectory_iff.mpr ⟨k', locate_of_walk_names hc' hk' hd, hd⟩)
  · left
    -- nothing but a directory can be passed through, so the part is the whole path
    obtain ⟨hns', htail⟩ := List.append_eq_nil_iff.mp (by
      by_contra hcs
      obtain ⟨c, cs, hcs⟩ := List.exists_cons_of_ne_nil hcs
      rw [hcs] at hrest
      exact hd (lookup_of_walk_cons hrest))
    rw [hns', List.append_nil] at hns htail
    have hnames : names (cstr q) ≠ [] := by
      intro hn
      rw [hn, walk_nil, Option.some.injEq] at hk'
      exact hd (hk' ▸ hroot)
    have hslash : endsWithSlash (cstr p) = false := by
      rw [Bool.eq_false_iff]
      intro hs
      rw [if_pos ⟨hs, hnames⟩] at htail
      cases htail
    have hpq : cstr q = cstr p := eq_of_isPart_names hq.cstr hns hslash
    rwa [locate_congr hpq]

/-- A file system between two others. -/
structure Between (fs last mid : FileSystem) : Prop where
  lower : fs.Extends mid
  upper : mid.Extends last

namespace Between

theorem refl (h : fs.Extends last) : fs.Between last fs := ⟨.refl fs, h⟩

theorem alike (h : fs.Between fs mid) : fs.Alike mid := h.lower.alike h.upper

variable {b : Bytes} (h : fs.Between last mid)
include h

theorem canPlace (hl : last.lookup k = some (.file b)) (hp : fs.CanPlace k) : mid.CanPlace k := by
  refine ⟨hp.1, h.lower.dir hp.2.1, hp.2.2.1, fun hd => ?_⟩
  rw [h.upper.dir hd] at hl
  cases hl

theorem not_symlink (hl : last.lookup k = some (.file b)) (t : Bytes) :
    mid.lookup k ≠ some (.symlink t) := by
  intro ht
  rw [h.upper.symlink ht] at hl
  cases hl

theorem locate (hl : last.lookup k = some (.file b)) (hk : fs.locate p = some k) :
    mid.locate p = some k :=
  h.lower.locate_unlinked hk (h.not_symlink hl)

theorem place (hl : last.lookup k = some (.file b)) (hp : fs.CanPlace k) (c c' : Bytes) :
    (fs.place k (.file c)).Between last (mid.place k (.file c')) where
  lower := h.lower.place_file (h.canPlace hl hp) (h.not_symlink hl) c c'
  upper := h.upper.place hl (Or.inr ⟨⟨c', rfl⟩, b, rfl⟩)

theorem mkdir (hm : fs.mkdir p = some fs₁) (h₁ : fs₁.Extends last) :
    mid.pathExists p ∧ fs₁.Between last mid ∨
      ∃ mid₁, ¬ mid.pathExists p ∧ mid.mkdir p = some mid₁ ∧ fs₁.Between last mid₁ := by
  have hex := pathExists_mkdir hm
  obtain ⟨d, c, hw, hc, -, hp, rfl⟩ := mkdir_cases hm
  have hlast : last.lookup (d ++ [c]) = some .dir := h₁.dir (by rw [lookup_place hp, if_pos rfl])
  by_cases hn : mid.lookup (d ++ [c]) = none
  · right
    have hp' : mid.CanPlace (d ++ [c]) := ⟨hp.1, h.lower.dir hp.2.1, hp.2.2.1, by simp [hn]⟩
    have hm' : mid.mkdir p = some (mid.place (d ++ [c]) .dir) := by
      unfold FileSystem.mkdir
      rw [start, h.lower.cwd, ← start, h.lower.walk hw (by simp [hp.parent]), hc]
      exact if_pos ⟨hn, hp'⟩
    refine ⟨_, not_pathExists_of_mkdir hm', hm', ?_, h.upper.place hlast (Or.inl rfl)⟩
    apply (h.lower.trans (grows_place_dir hn).extends).place (w := .dir)
    · rw [lookup_place hp', if_pos rfl]
    · exact Or.inl rfl
  · left
    have hlow := h.lower.place (h.upper.dir_of_lookup hlast hn) (Or.inl rfl)
    exact ⟨hlow.pathExists hex, hlow, h.upper⟩

/-- Creating directories keeps to the middle, where all of them are there in the end, or the end is
where they have been created as far as they can be. -/
theorem mkdirs (h₁ : (fs.mkdirs ps).Extends last)
    (hps : (∀ p ∈ ps, (fs.mkdirs ps).pathExists p) ∨ last.Extends (fs.mkdirs ps)) :
    (fs.mkdirs ps).Between last (mid.mkdirs ps) := by
  induction ps generalizing fs mid with
  | nil => exact h
  | cons p ps ih =>
    rw [mkdirs_cons] at h₁ hps ⊢
    rw [mkdirs_cons]
    split at h₁
    · rename_i he
      rw [if_pos he] at hps ⊢
      rw [if_pos (h.lower.pathExists he)]
      exact ih h h₁ (hps.imp_left fun hps q hq => hps q (List.mem_cons_of_mem _ hq))
    · rename_i he
      rw [if_neg he] at hps ⊢
      cases hm : fs.mkdir p with
      | none =>
        -- the first stage cannot be left, so that the last one is the first one
        simp only [hm] at h₁ hps ⊢
        have hlast : last.Extends fs := hps.resolve_left fun hps => he (hps p List.mem_cons_self)
        have ha : fs.Alike mid := h.lower.alike (h.upper.trans hlast)
        rw [if_neg (by rwa [ha.pathExists]), ha.mkdir_eq_none hm]
        exact h
      | some fs₁ =>
        simp only [hm] at h₁ hps ⊢
        have hps' := hps.imp_left fun hps q hq => hps q (List.mem_cons_of_mem _ hq)
        have h₁' := (mkdirs_grows fs₁ ps).extends.trans h₁
        rcases h.mkdir hm h₁' with ⟨hp, hb⟩ | ⟨mid₁, hp, hm', hb⟩
        · rw [if_pos hp]
          exact ih hb h₁ hps'
        · rw [if_neg hp, hm']
          exact ih hb h₁ hps'

end Between

end Xfer.Posix.FileSystem
