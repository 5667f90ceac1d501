import Xfer.Posix.FileSystem

/-! # Path lookup

Lookup composes along a path, and below a directory without symbolic links it
follows the names one by one. A path that does not climb stays below the
directory it starts from. Looking up what exists is unaffected by new nodes.
-/

namespace Xfer.Posix.FileSystem

variable {fs fs' : FileSystem} {k o cur : Key} {v : Node} {c : Bytes} {cs ds ns : List Bytes}
  {n : ℕ} {p q : Bytes}

/-- What a lookup through at most `n` links does at a symbolic link. -/
def link (fs : FileSystem) : ℕ → Key → List Bytes → Option Key
  | 0 => fun _ _ => none
  | n + 1 => fs.walk n

@[simp] theorem walk_nil : fs.walk n cur [] = some cur := by cases n <;> rfl

theorem walk_cons : fs.walk n cur (c :: cs) =
    if fs.lookup cur = some .dir then
      if c = dot then fs.walk n cur cs
      else if c = dotdot then fs.walk n cur.dropLast cs
      else match fs.lookup (cur ++ [c]) with
        | some (.symlink t) => fs.link n (if isAbsolute t then [] else cur) (pieces t ++ cs)
        | some _ => fs.walk n (cur ++ [c]) cs
        | none => if cs = [] then some (cur ++ [c]) else none
    else none := by
  cases n <;> rfl

/-- The lookups that succeed, step by step. -/
inductive Walks (fs : FileSystem) : ℕ → Key → List Bytes → Key → Prop
  | nil {n : ℕ} {cur : Key} : Walks fs n cur [] cur
  | dot {n : ℕ} {cur k : Key} {cs : List Bytes} : fs.lookup cur = some .dir →
      Walks fs n cur cs k → Walks fs n cur (dot :: cs) k
  | dotdot {n : ℕ} {cur k : Key} {cs : List Bytes} : fs.lookup cur = some .dir →
      Walks fs n cur.dropLast cs k → Walks fs n cur (dotdot :: cs) k
  | name {n : ℕ} {cur k : Key} {c : Bytes} {cs : List Bytes} {v : Node} :
      fs.lookup cur = some .dir → c ≠ Posix.dot → c ≠ Posix.dotdot →
      fs.lookup (cur ++ [c]) = some v → (∀ t, v ≠ .symlink t) →
      Walks fs n (cur ++ [c]) cs k → Walks fs n cur (c :: cs) k
  | link {n : ℕ} {cur k : Key} {c t : Bytes} {cs : List Bytes} :
      fs.lookup cur = some .dir → c ≠ Posix.dot → c ≠ Posix.dotdot →
      fs.lookup (cur ++ [c]) = some (.symlink t) →
      Walks fs n (if isAbsolute t then [] else cur) (pieces t ++ cs) k →
      Walks fs (n + 1) cur (c :: cs) k
  | absent {n : ℕ} {cur : Key} {c : Bytes} : fs.lookup cur = some .dir → c ≠ Posix.dot →
      c ≠ Posix.dotdot → fs.lookup (cur ++ [c]) = none → Walks fs n cur [c] (cur ++ [c])

theorem walk_dot (h : fs.lookup cur = some .dir) : fs.walk n cur (dot :: cs) = fs.walk n cur cs := by
  rw [walk_cons, if_pos h, if_pos rfl]

theorem walk_dotdot (h : fs.lookup cur = some .dir) :
    fs.walk n cur (dotdot :: cs) = fs.walk n cur.dropLast cs := by
  rw [walk_cons, if_pos h, if_neg (by decide), if_pos rfl]

theorem walk_name (h : fs.lookup cur = some .dir) (h₁ : c ≠ dot) (h₂ : c ≠ dotdot)
    (hv : fs.lookup (cur ++ [c]) = some v) (hl : ∀ t, v ≠ .symlink t) :
    fs.walk n cur (c :: cs) = fs.walk n (cur ++ [c]) cs := by
  rw [walk_cons, if_pos h, if_neg h₁, if_neg h₂, hv]
  cases v with
  | symlink t => exact absurd rfl (hl t)
  | file b => rfl
  | dir => rfl

theorem walk_link {t : Bytes} (h : fs.lookup cur = some .dir) (h₁ : c ≠ dot) (h₂ : c ≠ dotdot)
    (hv : fs.lookup (cur ++ [c]) = some (.symlink t)) :
    fs.walk (n + 1) cur (c :: cs) =
      fs.walk n (if isAbsolute t then [] else cur) (pieces t ++ cs) := by
  rw [walk_cons, if_pos h, if_neg h₁, if_neg h₂, hv]
  rfl

theorem walk_absent (h : fs.lookup cur = some .dir) (h₁ : c ≠ dot) (h₂ : c ≠ dotdot)
    (hv : fs.lookup (cur ++ [c]) = none) :
    fs.walk n cur (c :: cs) = if cs = [] then some (cur ++ [c]) else none := by
  rw [walk_cons, if_pos h, if_neg h₁, if_neg h₂, hv]

theorem Walks.walk (h : fs.Walks n cur cs k) : fs.walk n cur cs = some k := by
  induction h with
  | nil => exact walk_nil
  | dot hd _ ih => rw [walk_dot hd, ih]
  | dotdot hd _ ih => rw [walk_dotdot hd, ih]
  | name hd h₁ h₂ hv hl _ ih => rw [walk_name hd h₁ h₂ hv hl, ih]
  | link hd h₁ h₂ hv _ ih => rw [walk_link hd h₁ h₂ hv, ih]
  | absent hd h₁ h₂ hv => rw [walk_absent hd h₁ h₂ hv, if_pos rfl]

theorem walk_cons_cases (h : fs.walk n cur (c :: cs) = some k) :
    fs.lookup cur = some .dir ∧ c = dot ∧ fs.walk n cur cs = some k ∨
    fs.lookup cur = some .dir ∧ c = dotdot ∧ fs.walk n cur.dropLast cs = some k ∨
    fs.lookup cur = some .dir ∧ c ≠ dot ∧ c ≠ dotdot ∧
      ((∃ v, fs.lookup (cur ++ [c]) = some v ∧ (∀ t, v ≠ .symlink t) ∧
          fs.walk n (cur ++ [c]) cs = some k) ∨
        (∃ t, fs.lookup (cur ++ [c]) = some (.symlink t) ∧
          fs.link n (if isAbsolute t then [] else cur) (pieces t ++ cs) = some k) ∨
        fs.lookup (cur ++ [c]) = none ∧ cs = [] ∧ cur ++ [c] = k) := by
  rw [walk_cons] at h
  by_cases hd : fs.lookup cur = some .dir
  · rw [if_pos hd] at h
    by_cases h₁ : c = dot
    · exact Or.inl ⟨hd, h₁, by rwa [if_pos h₁] at h⟩
    · by_cases h₂ : c = dotdot
      · exact Or.inr (Or.inl ⟨hd, h₂, by rwa [if_neg h₁, if_pos h₂] at h⟩)
      · rw [if_neg h₁, if_neg h₂] at h
        refine Or.inr (Or.inr ⟨hd, h₁, h₂, ?_⟩)
        cases hv : fs.lookup (cur ++ [c]) with
        | none =>
          by_cases hcs : cs = []
          · exact Or.inr (Or.inr ⟨rfl, hcs, by simpa [hv, hcs] using h⟩)
          · simp [hv, hcs] at h
        | some v =>
          cases v with
          | symlink t => exact Or.inr (Or.inl ⟨t, rfl, by simpa only [hv] using h⟩)
          | file b => exact Or.inl ⟨_, rfl, by simp, by simpa only [hv] using h⟩
          | dir => exact Or.inl ⟨_, rfl, by simp, by simpa only [hv] using h⟩
  · rw [if_neg hd] at h
    cases h

theorem walks_of_walk (h : fs.walk n cur cs = some k) : fs.Walks n cur cs k := by
  -- outside on the number of links, inside on the steps up to the next one
  induction n using Nat.strong_induction_on generalizing cur cs with
  | _ n ihn =>
    induction cs generalizing cur with
    | nil =>
      rw [walk_nil, Option.some.injEq] at h
      exact h ▸ .nil
    | cons c cs ih =>
      rcases walk_cons_cases h with ⟨hd, rfl, h'⟩ | ⟨hd, rfl, h'⟩ | ⟨hd, h₁, h₂, h'⟩
      · exact .dot hd (ih h')
      · exact .dotdot hd (ih h')
      · rcases h' with ⟨v, hv, hl, h'⟩ | ⟨t, hv, h'⟩ | ⟨hv, rfl, rfl⟩
        · exact .name hd h₁ h₂ hv hl (ih h')
        · cases n with
          | zero => cases h'
          | succ n => exact .link hd h₁ h₂ hv (ihn n n.lt_succ_self h')
        · exact .absent hd h₁ h₂ hv

/-- A lookup that succeeds can be continued from where it ended. -/
theorem walk_append (h : fs.walk n cur cs = some k) :
    ∃ m, ∀ ds, fs.walk n cur (cs ++ ds) = fs.walk m k ds := by
  induction walks_of_walk h with
  | nil => exact ⟨_, fun _ => rfl⟩
  | dot hd hw ih =>
    obtain ⟨m, hm⟩ := ih hw.walk
    exact ⟨m, fun ds => by rw [List.cons_append, walk_dot hd, hm]⟩
  | dotdot hd hw ih =>
    obtain ⟨m, hm⟩ := ih hw.walk
    exact ⟨m, fun ds => by rw [List.cons_append, walk_dotdot hd, hm]⟩
  | name hd h₁ h₂ hv hl hw ih =>
    obtain ⟨m, hm⟩ := ih hw.walk
    exact ⟨m, fun ds => by rw [List.cons_append, walk_name hd h₁ h₂ hv hl, hm]⟩
  | link hd h₁ h₂ hv hw ih =>
    obtain ⟨m, hm⟩ := ih hw.walk
    exact ⟨m, fun ds => by rw [List.cons_append, walk_link hd h₁ h₂ hv, ← List.append_assoc, hm]⟩
  | @absent n cur c hd h₁ h₂ hv =>
    refine ⟨n, fun ds => ?_⟩
    rw [List.singleton_append, walk_absent hd h₁ h₂ hv]
    cases ds with
    | nil => simp
    | cons d ds => simp [walk_cons, hv]

theorem exists_walk_of_append (h : fs.walk n cur (cs ++ ds) = some k) :
    ∃ m k', fs.walk n cur cs = some k' ∧ fs.walk m k' ds = some k := by
  suffices hs : ∃ k', fs.walk n cur cs = some k' by
    obtain ⟨k', hk'⟩ := hs
    obtain ⟨m, hm⟩ := walk_append hk'
    exact ⟨m, k', hk', hm ds ▸ h⟩
  generalize hes : cs ++ ds = es at h
  induction walks_of_walk h generalizing cs with
  | nil =>
    obtain ⟨rfl, rfl⟩ := List.append_eq_nil_iff.mp hes
    exact ⟨_, walk_nil⟩
  | dot hd hw ih =>
    cases cs with
    | nil => exact ⟨_, walk_nil⟩
    | cons c cs =>
      obtain ⟨rfl, rfl⟩ := List.cons_eq_cons.mp hes
      obtain ⟨k', hk'⟩ := ih rfl hw.walk
      exact ⟨k', by rw [walk_dot hd, hk']⟩
  | dotdot hd hw ih =>
    cases cs with
    | nil => exact ⟨_, walk_nil⟩
    | cons c cs =>
      obtain ⟨rfl, rfl⟩ := List.cons_eq_cons.mp hes
      obtain ⟨k', hk'⟩ := ih rfl hw.walk
      exact ⟨k', by rw [walk_dotdot hd, hk']⟩
  | name hd h₁ h₂ hv hl hw ih =>
    cases cs with
    | nil => exact ⟨_, walk_nil⟩
    | cons c cs =>
      obtain ⟨rfl, rfl⟩ := List.cons_eq_cons.mp hes
      obtain ⟨k', hk'⟩ := ih rfl hw.walk
      exact ⟨k', by rw [walk_name hd h₁ h₂ hv hl, hk']⟩
  | @link _ _ _ _ t _ hd h₁ h₂ hv hw ih =>
    cases cs with
    | nil => exact ⟨_, walk_nil⟩
    | cons c cs =>
      obtain ⟨rfl, rfl⟩ := List.cons_eq_cons.mp hes
      obtain ⟨k', hk'⟩ := ih (List.append_assoc (pieces t) cs ds) hw.walk
      exact ⟨k', by rw [walk_link hd h₁ h₂ hv, hk']⟩
  | absent hd h₁ h₂ hv =>
    cases cs with
    | nil => exact ⟨_, walk_nil⟩
    | cons c cs =>
      obtain ⟨rfl, hcs⟩ := List.cons_eq_cons.mp hes
      obtain ⟨rfl, rfl⟩ := List.append_eq_nil_iff.mp hcs
      exact ⟨_, by rw [walk_absent hd h₁ h₂ hv, if_pos rfl]⟩

theorem walk_succ (h : fs.walk n cur cs = some k) : fs.walk (n + 1) cur cs = some k := by
  induction walks_of_walk h with
  | nil => exact walk_nil
  | dot hd hw ih => rw [walk_dot hd, ih hw.walk]
  | dotdot hd hw ih => rw [walk_dotdot hd, ih hw.walk]
  | name hd h₁ h₂ hv hl hw ih => rw [walk_name hd h₁ h₂ hv hl, ih hw.walk]
  | link hd h₁ h₂ hv hw ih => rw [walk_link hd h₁ h₂ hv, ih hw.walk]
  | absent hd h₁ h₂ hv => rw [walk_absent hd h₁ h₂ hv, if_pos rfl]

theorem walk_of_append {k' : Key} (h : fs.walk n cur cs = some k)
    (h' : fs.walk n cur (cs ++ ds) = some k') : fs.walk n k ds = some k' := by
  induction walks_of_walk h with
  | nil => exact h'
  | dot hd hw ih =>
    rw [List.cons_append, walk_dot hd] at h'
    exact ih hw.walk h'
  | dotdot hd hw ih =>
    rw [List.cons_append, walk_dotdot hd] at h'
    exact ih hw.walk h'
  | name hd h₁ h₂ hv hl hw ih =>
    rw [List.cons_append, walk_name hd h₁ h₂ hv hl] at h'
    exact ih hw.walk h'
  | link hd h₁ h₂ hv hw ih =>
    rw [List.cons_append, walk_link hd h₁ h₂ hv, ← List.append_assoc] at h'
    exact walk_succ (ih hw.walk h')
  | absent hd h₁ h₂ hv =>
    rw [List.singleton_append, walk_absent hd h₁ h₂ hv] at h'
    split at h'
    · rename_i hds
      rw [hds, walk_nil, h']
    · cases h'

theorem lookup_of_walk_cons (h : fs.walk n cur (c :: cs) = some k) :
    fs.lookup cur = some .dir := by
  cases walks_of_walk h <;> assumption

theorem dropLast_dir (h : fs.lookup cur = some .dir) : fs.lookup cur.dropLast = some .dir := by
  induction cur using List.reverseRecOn with
  | nil => exact h
  | append_singleton k c _ => simpa using lookup_parent (by simp [h] : fs.lookup (k ++ [c]) ≠ none)

theorem walk_down (h : fs.lookup (cur ++ ns) = some v) (hv : ∀ t, v ≠ .symlink t)
    (ds : List Bytes) : fs.walk n cur (ns ++ ds) = fs.walk n (cur ++ ns) ds := by
  induction ns generalizing cur with
  | nil => simp
  | cons c ns ih =>
    have hne : fs.lookup (cur ++ c :: ns) ≠ none := by simp [h]
    have hd := lookup_dir_of_append hne (by simp)
    have hc := validName_of_mem hne c List.mem_cons_self
    rw [List.append_cons] at h
    obtain ⟨w, hw, hl⟩ : ∃ w, fs.lookup (cur ++ [c]) = some w ∧ ∀ t, w ≠ .symlink t := by
      by_cases hns : ns = []
      · exact ⟨v, by simpa [hns] using h, hv⟩
      · exact ⟨.dir, lookup_dir_of_append (by rw [h]; simp) hns, by simp⟩
    rw [List.cons_append, walk_name hd hc.2.1 hc.2.2.1 hw hl, ih h, List.append_assoc,
      List.singleton_append]

theorem walk_up (h : fs.lookup cur = some .dir) (u : ℕ) (ds : List Bytes) :
    fs.walk n cur (List.replicate u dotdot ++ ds) = fs.walk n (cur.take (cur.length - u)) ds := by
  induction u generalizing cur with
  | zero => simp
  | succ u ih =>
    rw [List.replicate_succ, List.cons_append, walk_dotdot h, ih (dropLast_dir h),
      List.dropLast_eq_take, List.take_take, List.length_take]
    congr 2
    omega

/-- No symbolic link lies at or below the key. -/
def NoLinks (fs : FileSystem) (o : Key) : Prop := ∀ ns t, fs.lookup (o ++ ns) ≠ some (.symlink t)

theorem noLinks_empty (o : Key) : empty.NoLinks o := by
  intro ns t
  rcases o ++ ns with _ | ⟨c, k⟩
  · exact nofun
  · exact nofun

theorem NoLinks.append (h : fs.NoLinks o) (ns : List Bytes) : fs.NoLinks (o ++ ns) := by
  intro ms t
  rw [List.append_assoc]
  exact h _ t

/-- A path that does not climb stays below where it starts. -/
theorem walk_below (hl : fs.NoLinks o) (hcs : dotdot ∉ cs) (h : fs.walk n o cs = some k) :
    o <+: k := by
  induction walks_of_walk h with
  | nil => exact List.prefix_rfl
  | dot _ hw ih => exact ih hl (List.not_mem_of_not_mem_cons hcs) hw.walk
  | dotdot => exact absurd List.mem_cons_self hcs
  | name _ _ _ _ _ hw ih =>
    exact (List.prefix_append _ _).trans
      (ih (hl.append _) (List.not_mem_of_not_mem_cons hcs) hw.walk)
  | link _ _ _ hv => exact absurd hv (hl _ _)
  | absent => exact List.prefix_append _ _

/-- If only the last step may climb, the path stays below or leads to the parent. -/
theorem walk_below_or_parent (hl : fs.NoLinks o) (hcs : dotdot ∉ cs.dropLast)
    (h : fs.walk n o cs = some k) : o <+: k ∨ k = o.dropLast := by
  rcases List.eq_nil_or_concat cs with rfl | ⟨cs, c, rfl⟩
  · exact Or.inl (walk_below hl (by simp) h)
  · rw [List.concat_eq_append] at h hcs
    rw [List.dropLast_concat] at hcs
    by_cases hc : c = dotdot
    · subst hc
      obtain ⟨m, k', hk', hk⟩ := exists_walk_of_append h
      rw [walk_dotdot (lookup_of_walk_cons hk), walk_nil, Option.some.injEq] at hk
      obtain ⟨t, rfl⟩ := walk_below hl hcs hk'
      by_cases ht : t = []
      · right
        rw [← hk, ht, List.append_nil]
      · left
        rw [← hk, List.dropLast_append_of_ne_nil ht]
        exact List.prefix_append _ _
    · exact Or.inl (walk_below hl (by simp [hcs, Ne.symm hc]) h)

/-- Every node is still there, with its kind and, unless it is a file, its content. -/
structure Extends (fs fs' : FileSystem) : Prop where
  cwd : fs'.cwd = fs.cwd
  dir : ∀ {k}, fs.lookup k = some .dir → fs'.lookup k = some .dir
  symlink : ∀ {k t}, fs.lookup k = some (.symlink t) → fs'.lookup k = some (.symlink t)
  file : ∀ {k b}, fs.lookup k = some (.file b) → ∃ b', fs'.lookup k = some (.file b')

theorem Extends.refl (fs : FileSystem) : fs.Extends fs := ⟨rfl, id, id, fun h => ⟨_, h⟩⟩

theorem Extends.trans {fs'' : FileSystem} (h : fs.Extends fs') (h' : fs'.Extends fs'') :
    fs.Extends fs'' where
  cwd := h'.cwd.trans h.cwd
  dir hk := h'.dir (h.dir hk)
  symlink hk := h'.symlink (h.symlink hk)
  file hk := by obtain ⟨b, hb⟩ := h.file hk; exact h'.file hb

theorem Extends.lookup_ne_none (h : fs.Extends fs') (hk : fs.lookup k ≠ none) :
    fs'.lookup k ≠ none := by
  obtain ⟨v, hv⟩ := Option.ne_none_iff_exists'.mp hk
  cases v with
  | file b => obtain ⟨b', hb'⟩ := h.file hv; simp [hb']
  | dir => simp [h.dir hv]
  | symlink t => simp [h.symlink hv]

theorem Extends.walk (h : fs.Extends fs') (hw : fs.walk n cur cs = some k)
    (hk : fs.lookup k ≠ none) : fs'.walk n cur cs = some k := by
  induction walks_of_walk hw with
  | nil => exact walk_nil
  | dot hd hw' ih => rw [walk_dot (h.dir hd), ih hw'.walk hk]
  | dotdot hd hw' ih => rw [walk_dotdot (h.dir hd), ih hw'.walk hk]
  | @name _ _ _ _ _ v hd h₁ h₂ hv hl hw' ih =>
    cases v with
    | symlink t => exact absurd rfl (hl t)
    | dir => rw [walk_name (h.dir hd) h₁ h₂ (h.dir hv) hl, ih hw'.walk hk]
    | file b =>
      obtain ⟨b', hb'⟩ := h.file hv
      rw [walk_name (h.dir hd) h₁ h₂ hb' (by simp), ih hw'.walk hk]
  | link hd h₁ h₂ hv hw' ih => rw [walk_link (h.dir hd) h₁ h₂ (h.symlink hv), ih hw'.walk hk]
  | absent _ _ _ hv => exact absurd hv hk

theorem Extends.locate (h : fs.Extends fs') (hl : fs.locate p = some k)
    (hk : fs.lookup k ≠ none) : fs'.locate p = some k := by
  unfold FileSystem.locate at hl ⊢
  split_ifs at hl ⊢
  rw [start, h.cwd]
  exact h.walk hl hk

end Xfer.Posix.FileSystem
