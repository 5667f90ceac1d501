import Xfer.Posix.Leads
import Xfer.Posix.Lookup

/-! # Locating paths

Joining a relative path to a directory continues the lookup from it, the leading
parts of a path that exists exist, and what is created or opened through a path
below a directory lies below it.
-/

namespace Xfer.Posix.FileSystem

variable {fs fs' : FileSystem} {k o : Key} {v : Node} {b p q r : Bytes} {ds : List Bytes}

theorem locate_eq_walk (h : fs.locate b = some o) :
    cstr b ≠ [] ∧ fs.walk maxLinks (fs.start (cstr b)) (pieces (cstr b)) = some o := by
  unfold locate at h
  split at h
  · cases h
  · rename_i hb
    exact ⟨hb, h⟩

theorem locate_of_walk (hb : cstr b ≠ [])
    (h : fs.walk maxLinks (fs.start (cstr b)) (pieces (cstr b)) = some o) :
    fs.locate b = some o := by
  rw [locate, if_neg hb, h]

theorem locate_congr (h : cstr p = cstr q) : fs.locate p = fs.locate q := by
  rw [locate, locate, h]

theorem start_eq_of_isAbsolute (h : isAbsolute p = isAbsolute q) : fs.start p = fs.start q := by
  rw [start, start, h]

theorem walk_names (h : fs.locate b = some o) (hd : fs.lookup o = some .dir) :
    ∃ m, ∀ ds, fs.walk maxLinks (fs.start (cstr b)) (names (cstr b) ++ ds) = fs.walk m o ds := by
  obtain ⟨-, h⟩ := locate_eq_walk h
  unfold pieces at h
  obtain ⟨m, k, hk, hko⟩ := exists_walk_of_append h
  obtain rfl : k = o := by
    split at hko
    · rwa [walk_dot (lookup_of_walk_cons hko), walk_nil, Option.some.injEq] at hko
    · rwa [walk_nil, Option.some.injEq] at hko
  exact walk_append hk

section Join

variable (h : fs.locate b = some o) (hd : fs.lookup o = some .dir) (hb : 0 ∉ b)
include h hd hb

theorem walk_join : ∃ m, ∀ r, isAbsolute r = false → ∀ ds,
    fs.walk maxLinks (fs.start (cstr (join b r))) (names b ++ ds) = fs.walk m o ds := by
  obtain ⟨m, hm⟩ := walk_names h hd
  rw [cstr_eq_self hb] at hm
  refine ⟨m, fun r hr ds => ?_⟩
  have hr' := isAbsolute_of_isPrefix (cstr_isPrefix r) hr
  rw [cstr_join hb hr, start_eq_of_isAbsolute (isAbsolute_join b hr'), hm]

/-- Looking up `b / r` is looking up `r` from where `b` leads. -/
theorem locate_join : ∃ m, ∀ r, isAbsolute r = false →
    fs.locate (join b r) = fs.walk m o (pieces (cstr r)) := by
  obtain ⟨m, hm⟩ := walk_join h hd hb
  have hne := (locate_eq_walk h).1
  rw [cstr_eq_self hb] at hne
  refine ⟨m, fun r hr => ?_⟩
  have hr' := isAbsolute_of_isPrefix (cstr_isPrefix r) hr
  have hj : cstr (join b r) ≠ [] := by
    rw [cstr_join hb hr, join_eq b hr']
    split <;> simp [hne]
  rw [locate, if_neg hj]
  by_cases hc : cstr r = []
  · have hp : pieces (cstr (join b r)) = names b ++ [] ∨
        pieces (cstr (join b r)) = names b ++ [dot] := by
      rw [cstr_join hb hr, hc, List.append_nil]
      exact pieces_join_nil b
    rw [hc, show pieces [] = [] from rfl, walk_nil]
    rcases hp with hp | hp
    · rw [hp, hm r hr, walk_nil]
    · rw [hp, hm r hr, walk_dot hd, walk_nil]
  · rw [cstr_join hb hr, pieces_join b hr' hc, ← cstr_join hb hr, hm r hr]

end Join

theorem lookup_dir_of_walk {m : ℕ} (h : fs.walk m k ds = some o) (ho : fs.lookup o = some .dir) :
    fs.lookup k = some .dir := by
  cases ds with
  | nil =>
    rw [walk_nil, Option.some.injEq] at h
    exact h ▸ ho
  | cons d ds => exact lookup_of_walk_cons h

theorem start_of_isPart (hq : IsPart p q) (hne : q ≠ []) (hp : cstr p ≠ []) :
    cstr q ≠ [] ∧ fs.start (cstr p) = fs.start (cstr q) := by
  have hc : cstr q ≠ [] := by
    by_cases h0 : 0 ∈ q
    · obtain ⟨rest, rfl, _⟩ := hq
      rwa [cstr_append_of_mem rest h0] at hp
    · rwa [cstr_eq_self h0]
  refine ⟨hc, start_eq_of_isAbsolute ?_⟩
  obtain ⟨rest, hr, _⟩ := hq.cstr
  obtain ⟨c, cs, hcs⟩ := List.exists_cons_of_ne_nil hc
  rw [hr, hcs]
  rfl

theorem locate_of_walk_names (hc : cstr q ≠ [])
    (hk : fs.walk maxLinks (fs.start (cstr q)) (names (cstr q)) = some k)
    (hd : fs.lookup k = some .dir) : fs.locate q = some k := by
  refine locate_of_walk hc ?_
  unfold pieces
  split
  · obtain ⟨m, hm⟩ := walk_append hk
    rw [hm, walk_dot hd, walk_nil]
  · rw [List.append_nil, hk]

theorem exists_locate_of_isPart (h : fs.locate p = some o) (ho : fs.lookup o = some .dir)
    (hq : IsPart p q) (hne : q ≠ []) : ∃ k, fs.locate q = some k ∧ fs.lookup k = some .dir := by
  obtain ⟨hp, hw⟩ := locate_eq_walk h
  obtain ⟨hc, hstart⟩ : cstr q ≠ [] ∧ fs.start (cstr p) = fs.start (cstr q) :=
    start_of_isPart hq hne hp
  obtain ⟨ns, hns⟩ := hq.cstr.names
  rw [hstart, pieces, ← hns, List.append_assoc] at hw
  obtain ⟨m, k, hk, hko⟩ := exists_walk_of_append hw
  have hkd := lookup_dir_of_walk hko ho
  exact ⟨k, locate_of_walk_names hc hk hkd, hkd⟩

theorem pathExists_iff : fs.pathExists p ↔ ∃ k, fs.locate p = some k ∧ fs.lookup k ≠ none := by
  unfold pathExists status
  cases fs.locate p with
  | none => simp
  | some k => simp [Option.isSome_iff_ne_none]

theorem isDirectory_iff : fs.isDirectory p ↔
    ∃ k, fs.locate p = some k ∧ fs.lookup k = some .dir := by
  unfold isDirectory status
  cases fs.locate p with
  | none => simp
  | some k => simp

theorem isRegularFile_iff : fs.isRegularFile p ↔
    ∃ k c, fs.locate p = some k ∧ fs.lookup k = some (.file c) := by
  unfold isRegularFile status
  cases fs.locate p with
  | none => simp
  | some k =>
    rw [Option.bind_some]
    rcases hv : fs.lookup k with _ | ⟨_ | _ | _⟩ <;> simp [hv]

/-- Nothing but new directories. -/
structure Grows (fs fs' : FileSystem) : Prop where
  cwd : fs'.cwd = fs.cwd
  lookup : ∀ k, fs'.lookup k = fs.lookup k ∨ fs.lookup k = none ∧ fs'.lookup k = some .dir

theorem Grows.refl (fs : FileSystem) : fs.Grows fs := ⟨rfl, fun _ => Or.inl rfl⟩

theorem Grows.lookup_eq (h : fs.Grows fs') (hk : fs.lookup k ≠ none) :
    fs'.lookup k = fs.lookup k :=
  (h.lookup k).resolve_right fun hn => hk hn.1

theorem Grows.trans {fs'' : FileSystem} (h : fs.Grows fs') (h' : fs'.Grows fs'') :
    fs.Grows fs'' where
  cwd := h'.cwd.trans h.cwd
  lookup k := by
    rcases h.lookup k with he | ⟨hn, hd⟩
    · rw [← he]
      exact h'.lookup k
    · exact Or.inr ⟨hn, by rw [h'.lookup_eq (by simp [hd]), hd]⟩

theorem Grows.extends (h : fs.Grows fs') : fs.Extends fs' where
  cwd := h.cwd
  dir hk := by rw [h.lookup_eq (by simp [hk]), hk]
  symlink hk := by rw [h.lookup_eq (by simp [hk]), hk]
  file hk := ⟨_, by rw [h.lookup_eq (by simp [hk]), hk]⟩

theorem Grows.noLinks (h : fs.Grows fs') (hl : fs.NoLinks o) : fs'.NoLinks o := by
  intro ns t ht
  rcases h.lookup (o ++ ns) with he | ⟨_, hd⟩
  · exact hl ns t (he ▸ ht)
  · simp [hd] at ht

theorem grows_place_dir (h : fs.lookup k = none) : fs.Grows (fs.place k .dir) where
  cwd := cwd_place ..
  lookup k' := by
    by_cases hp : fs.CanPlace k
    · rw [lookup_place hp]
      split
      · rename_i he
        exact Or.inr ⟨he ▸ h, rfl⟩
      · exact Or.inl rfl
    · rw [place_of_not_canPlace hp]
      exact Or.inl rfl

theorem mkdir_cases (h : fs.mkdir p = some fs') : ∃ d c,
    fs.walk maxLinks (fs.start (cstr p)) (pieces (cstr p)).dropLast = some d ∧
    (pieces (cstr p)).getLastD [] = c ∧ fs.lookup (d ++ [c]) = none ∧ fs.CanPlace (d ++ [c]) ∧
    fs' = fs.place (d ++ [c]) .dir := by
  unfold mkdir at h
  split at h
  · rename_i d hw
    simp only at h
    split at h
    · rename_i hc
      exact ⟨d, _, hw, rfl, hc.1, hc.2, (Option.some.inj h).symm⟩
    · cases h
  · cases h

theorem CanPlace.validName {c : Bytes} (h : fs.CanPlace (k ++ [c])) : ValidName c := by
  simpa using h.2.2.1

theorem CanPlace.parent {c : Bytes} (h : fs.CanPlace (k ++ [c])) : fs.lookup k = some .dir := by
  simpa using h.2.1

theorem mkdir_grows (h : fs.mkdir p = some fs') : fs.Grows fs' := by
  obtain ⟨d, c, _, _, hn, _, rfl⟩ := mkdir_cases h
  exact grows_place_dir hn

theorem locate_mkdir (h : fs.mkdir p = some fs') :
    ∃ k, fs'.locate p = some k ∧ ∀ k', k' ≠ k → fs'.lookup k' = fs.lookup k' := by
  have hg := mkdir_grows h
  obtain ⟨d, c, hw, hc, hn, hp, rfl⟩ := mkdir_cases h
  have hv := hp.validName
  have hd := hp.parent
  have hpc : pieces (cstr p) = (pieces (cstr p)).dropLast ++ [c] := by
    have hne : pieces (cstr p) ≠ [] := by
      intro he
      rw [he] at hc
      exact hv.1 hc.symm
    rw [List.getLastD_eq_getLast?, List.getLast?_eq_some_getLast hne] at hc
    rw [← hc]
    exact (List.dropLast_append_getLast hne).symm
  refine ⟨d ++ [c], locate_of_walk ?_ ?_, fun k' hk' => lookup_place_ne fs .dir hk'⟩
  · intro he
    rw [he] at hc
    exact hv.1 hc.symm
  · have hw' : (fs.place (d ++ [c]) .dir).walk maxLinks
        ((fs.place (d ++ [c]) .dir).start (cstr p)) (pieces (cstr p)).dropLast = some d := by
      rw [start, hg.cwd]
      exact hg.extends.walk hw (by simp [hd])
    obtain ⟨m, hm⟩ := walk_append hw'
    rw [hpc, hm, walk_name (hg.extends.dir hd) hv.2.1 hv.2.2.1 (v := .dir) _ (by simp), walk_nil]
    rw [lookup_place hp, if_pos rfl]

theorem mkdirs_cons (fs : FileSystem) (p : Bytes) (ps : List Bytes) : fs.mkdirs (p :: ps) =
    if fs.pathExists p then fs.mkdirs ps
    else match fs.mkdir p with
      | some fs' => fs'.mkdirs ps
      | none => fs := rfl

theorem mkdirs_grows (fs : FileSystem) (ps : List Bytes) : fs.Grows (fs.mkdirs ps) := by
  induction ps generalizing fs with
  | nil => exact .refl fs
  | cons p ps ih =>
    rw [mkdirs_cons]
    split
    · exact ih fs
    · cases hm : fs.mkdir p with
      | none => exact .refl fs
      | some fs' => exact (mkdir_grows hm).trans (ih fs')

theorem mkdirs_append (fs : FileSystem) (ps qs : List Bytes) :
    (fs.mkdirs ps).Grows (fs.mkdirs (ps ++ qs)) := by
  induction ps generalizing fs with
  | nil => exact mkdirs_grows fs qs
  | cons p ps ih =>
    rw [List.cons_append, mkdirs_cons, mkdirs_cons]
    split
    · exact ih fs
    · cases fs.mkdir p with
      | none => exact .refl fs
      | some fs' => exact ih fs'

theorem locate_of_mkdirs {ps : List Bytes} (h : (fs.mkdirs ps).lookup k ≠ fs.lookup k) :
    ∃ p ∈ ps, (fs.mkdirs ps).locate p = some k := by
  induction ps generalizing fs with
  | nil => exact absurd rfl h
  | cons p ps ih =>
    rw [mkdirs_cons] at h ⊢
    split at h
    · rename_i he
      rw [if_pos he]
      obtain ⟨p', hp', hl⟩ := ih h
      exact ⟨p', List.mem_cons_of_mem _ hp', hl⟩
    · rename_i he
      rw [if_neg he]
      cases hm : fs.mkdir p with
      | none => simp [hm] at h
      | some fs' =>
        simp only [hm] at h ⊢
        by_cases hk : (fs'.mkdirs ps).lookup k = fs'.lookup k
        · obtain ⟨k', hl, hk'⟩ := locate_mkdir hm
          obtain rfl : k = k' := by
            by_contra hne
            exact h (hk.trans (hk' k hne))
          refine ⟨p, List.mem_cons_self, (mkdirs_grows fs' ps).extends.locate hl ?_⟩
          intro hn
          rcases (mkdir_grows hm).lookup k with he' | ⟨_, hd⟩
          · exact h (hk.trans he')
          · simp [hd] at hn
        · obtain ⟨p', hp', hl⟩ := ih hk
          exact ⟨p', List.mem_cons_of_mem _ hp', hl⟩

theorem extends_place_file (hl : ∀ t, fs.lookup k ≠ some (.symlink t)) (c : Bytes) :
    fs.Extends (fs.place k (.file c)) := by
  by_cases hp : fs.CanPlace k
  · have hne : ∀ {k' v}, fs.lookup k' = some v → (∀ b, v ≠ .file b) →
        (fs.place k (.file c)).lookup k' = some v := by
      intro k' v hv hf
      rw [lookup_place hp, if_neg, hv]
      rintro rfl
      cases v with
      | file b => exact hf b rfl
      | dir => exact hp.2.2.2 hv
      | symlink t => exact hl t hv
    refine ⟨cwd_place .., fun h => hne h (by simp), fun h => hne h (by simp), fun {k' b} h => ?_⟩
    by_cases he : k' = k
    · exact ⟨c, by rw [lookup_place hp, if_pos he]⟩
    · exact ⟨b, by rw [lookup_place hp, if_neg he, h]⟩
  · rw [place_of_not_canPlace hp]
    exact .refl fs

theorem noLinks_place {v : Node} (hl : fs.NoLinks o) (hv : ∀ t, v ≠ .symlink t) :
    (fs.place k v).NoLinks o := by
  intro ns t ht
  by_cases hp : fs.CanPlace k
  · rw [lookup_place hp] at ht
    split at ht
    · exact hv t (Option.some.inj ht)
    · exact hl ns t ht
  · rw [place_of_not_canPlace hp] at ht
    exact hl ns t ht

theorem noLinks_place_file (hl : fs.NoLinks o) (c : Bytes) : (fs.place k (.file c)).NoLinks o :=
  noLinks_place hl (by simp)

/-- A path never leads to a symbolic link: the link would have been followed. -/
theorem not_symlink_of_walk {m : ℕ} {cur : Key} (h : fs.walk m cur ds = some k)
    (hc : ∀ t, fs.lookup cur ≠ some (.symlink t)) (t : Bytes) :
    fs.lookup k ≠ some (.symlink t) := by
  induction walks_of_walk h with
  | nil => exact hc t
  | dot _ hw ih => exact ih hw.walk hc
  | dotdot hd hw ih => exact ih hw.walk (by simp [dropLast_dir hd])
  | name _ _ _ hv hl hw ih => exact ih hw.walk fun t ht => hl t (Option.some.inj (hv ▸ ht))
  | link hd _ _ _ hw ih =>
    refine ih hw.walk fun t => ?_
    split
    · simp
    · simp [hd]
  | absent _ _ _ hv => simp [hv]

theorem not_symlink_of_locate (h : fs.locate p = some k) (t : Bytes) :
    fs.lookup k ≠ some (.symlink t) := by
  refine not_symlink_of_walk (locate_eq_walk h).2 (fun t => ?_) t
  unfold start
  split <;> simp

theorem walk_place {m : ℕ} {cur : Key} (hp : fs.CanPlace k)
    (hs : ∀ t, fs.lookup k ≠ some (.symlink t)) (c : Bytes) (h : fs.walk m cur ds = some k) :
    (fs.place k (.file c)).walk m cur ds = some k := by
  have hdir : ∀ {k'}, fs.lookup k' = some .dir →
      (fs.place k (.file c)).lookup k' = some .dir := fun hk => (extends_place_file hs c).dir hk
  induction walks_of_walk h with
  | nil => exact walk_nil
  | dot hd hw ih => rw [walk_dot (hdir hd), ih hp hs hw.walk hdir]
  | dotdot hd hw ih => rw [walk_dotdot (hdir hd), ih hp hs hw.walk hdir]
  | @name m cur k' n cs v hd h₁ h₂ hv hl hw ih =>
    by_cases he : cur ++ [n] = k'
    · have hf : (fs.place k' (.file c)).lookup (cur ++ [n]) = some (.file c) := by
        rw [lookup_place hp, if_pos he]
      rw [walk_name (hdir hd) h₁ h₂ hf (by simp), ih hp hs hw.walk hdir]
    · rw [walk_name (hdir hd) h₁ h₂ ((lookup_place_ne fs _ he).trans hv) hl,
        ih hp hs hw.walk hdir]
  | @link m cur k' n t cs hd h₁ h₂ hv hw ih =>
    have hl := (extends_place_file hs c).symlink hv
    rw [walk_link (hdir hd) h₁ h₂ hl, ih hp hs hw.walk hdir]
  | @absent m cur n hd h₁ h₂ hv =>
    have hf : (fs.place (cur ++ [n]) (.file c)).lookup (cur ++ [n]) = some (.file c) := by
      rw [lookup_place hp, if_pos rfl]
    rw [walk_name (hdir hd) h₁ h₂ hf (by simp), walk_nil]

theorem locate_place (h : fs.locate p = some k) (hp : fs.CanPlace k) (c : Bytes) :
    (fs.place k (.file c)).locate p = some k := by
  obtain ⟨hne, hw⟩ := locate_eq_walk h
  refine locate_of_walk hne ?_
  rw [start, cwd_place]
  exact walk_place hp (not_symlink_of_locate h) c hw

section Below

variable (h : fs.locate b = some o) (hd : fs.lookup o = some .dir) (hl : fs.NoLinks o)
  (hr : isAbsolute r = false) (hdd : dotdot ∉ names r)
include h hd hl hr hdd

/-- A leading part of `b / r`, where `r` does not climb, leads below `b`, or is a part of `b`;
cut off by a NUL byte, its last name can also be that of the parent. -/
theorem locate_part_join (hq : IsPart (join b r) q) (hk : fs.locate q = some k) :
    o <+: k ∨ k = o.dropLast ∨ IsPart b q := by
  have hbj : b <+: join b r := by
    rw [join_eq b hr]
    split
    · exact (List.prefix_append _ _).trans (List.prefix_append _ _)
    · exact List.prefix_append _ _
  rcases prefix_join hr hq.prefix with hqb | ⟨r', hr', rfl⟩
  · exact Or.inr (Or.inr (hq.of_between hqb hbj))
  · have hra := isAbsolute_of_isPrefix hr' hr
    by_cases hb : 0 ∈ b
    · left
      have hc : cstr (join b r') = cstr b := by
        rw [join_eq b hra]
        split
        · rw [List.append_assoc, cstr_append_of_mem _ hb]
        · rw [cstr_append_of_mem _ hb]
      rw [locate_congr hc, h, Option.some.injEq] at hk
      exact hk ▸ List.prefix_rfl
    · obtain ⟨m, hm⟩ := locate_join h hd hb
      rw [hm r' hra] at hk
      have hn : names r' <+: names r := by
        have := hq.names
        rw [names_join b hr, names_join b hra] at this
        exact (List.prefix_append_right_inj _).mp this
      have hp : dotdot ∉ (pieces (cstr r')).dropLast := fun hm =>
        hdd (hn.subset ((dropLast_pieces_isPrefix (cstr_isPrefix r')).subset hm))
      exact (walk_below_or_parent hl hp hk).imp_right Or.inl

/-- What `create_directories` adds on the way to `b / r` lies below `b`. -/
theorem mkdirs_below {ps : List Bytes} (hps : ∀ p ∈ ps, IsPart (join b r) p ∧ p ≠ [])
    (hk : (fs.mkdirs ps).lookup k ≠ fs.lookup k) : o <+: k := by
  have hg := mkdirs_grows fs ps
  have hn := ((hg.lookup k).resolve_left hk).1
  obtain ⟨p, hp, hl'⟩ := locate_of_mkdirs hk
  have hb' := hg.extends.locate h (by simp [hd])
  rcases locate_part_join hb' (hg.extends.dir hd) (hg.noLinks hl) hr hdd (hps p hp).1 hl' with
    hko | rfl | hpart
  · exact hko
  · simp [dropLast_dir hd] at hn
  · obtain ⟨k', hk', hd'⟩ := exists_locate_of_isPart h hd hpart (hps p hp).2
    have := hg.extends.locate hk' (by simp [hd'])
    rw [hl', Option.some.injEq] at this
    simp [this, hd'] at hn

/-- A file that is opened for writing as `b / r` lies below `b`. -/
theorem canPlace_below (hne : join b r ≠ []) (hk : fs.locate (join b r) = some k)
    (hp : fs.CanPlace k) : o <+: k := by
  rcases locate_part_join h hd hl hr hdd (.refl _) hk with hko | rfl | hpart
  · exact hko
  · exact absurd (dropLast_dir hd) hp.2.2.2
  · obtain ⟨k', hk', hd'⟩ := exists_locate_of_isPart h hd hpart hne
    rw [hk, Option.some.injEq] at hk'
    exact absurd (hk' ▸ hd') hp.2.2.2

end Below

end Xfer.Posix.FileSystem
