import Xfer.Posix.Relative

/-! # Directory iteration

`recursive_directory_iterator`: the entries of a directory in the order in which
the file system holds them, each followed by what lies below it.
-/

namespace Xfer.Posix.FileSystem

/-- The names in the directory at a key. -/
def children (fs : FileSystem) (k : Key) : List Bytes :=
  fs.nodes.keys.filterMap fun k' =>
    if k' ≠ [] ∧ k'.dropLast = k then k'.getLast? else none

/-- The iterator goes down into directories, and into links to directories if it is to follow them.
A link that cannot be resolved is not one to a directory. -/
def descends (fs : FileSystem) (follow : Bool) (k : Key) (p : Bytes) : Bool :=
  match fs.lookup k with
  | some .dir => true
  | some (.symlink _) => follow && fs.isDirectory p
  | _ => false

/-- The paths of the entries at most `n` levels below the directory `p`. -/
def listing (fs : FileSystem) (follow : Bool) : ℕ → Bytes → List Bytes
  | 0, _ => []
  | n + 1, p =>
    match fs.locate p with
    | some k => (fs.children k).flatMap fun c =>
        join p c ::
          if fs.descends follow (k ++ [c]) (join p c) then listing fs follow n (join p c) else []
    | none => []

/-- No path goes through more levels than this before the kernel gives up on its links. -/
def maxDepth (fs : FileSystem) : ℕ := (maxLinks + 1) * fs.nodes.keys.length

def recursiveDirectory (fs : FileSystem) (follow : Bool) (p : Bytes) : List Bytes :=
  fs.listing follow fs.maxDepth p

variable {fs : FileSystem} {k : Key} {c : Bytes}

theorem mem_children : c ∈ fs.children k ↔ fs.lookup (k ++ [c]) ≠ none := by
  rw [← mem_nodes_iff, AList.mem_keys, children, List.mem_filterMap]
  constructor
  · rintro ⟨k', hk', hc⟩
    split_ifs at hc with h
    obtain ⟨ms, rfl⟩ := List.getLast?_eq_some_iff.mp hc
    simpa [← h.2] using hk'
  · exact fun h => ⟨_, h, by simp⟩

theorem prefix_join_name {p c : Bytes} (hc : Plain c) : p <+: join p c := by
  rw [join_eq p (isAbsolute_of_slash_notMem hc.2)]
  split
  · exact (List.prefix_append _ _).trans (List.prefix_append _ _)
  · exact List.prefix_append _ _

section Way

variable {follow : Bool} {n : ℕ} {p q : Bytes} {ns : List Bytes}

/-- The iterator gets from the directory `p` along the names. -/
def Way (fs : FileSystem) (follow : Bool) (p : Bytes) : List Bytes → Prop
  | [] => True
  | c :: ns => ∃ k, fs.locate p = some k ∧ fs.lookup (k ++ [c]) ≠ none ∧
      (ns ≠ [] → fs.descends follow (k ++ [c]) (join p c)) ∧ fs.Way follow (join p c) ns

theorem mem_listing : q ∈ fs.listing follow n p ↔
    ∃ ns, ns ≠ [] ∧ ns.length ≤ n ∧ fs.Way follow p ns ∧ q = ns.foldl join p := by
  induction n generalizing p with
  | zero =>
    constructor
    · exact fun h => absurd h List.not_mem_nil
    · rintro ⟨ns, hne, hn, -⟩
      exact absurd (List.length_eq_zero_iff.mp (Nat.le_zero.mp hn)) hne
  | succ n ih =>
    unfold listing
    constructor
    · intro h
      cases hl : fs.locate p with
      | none => simp [hl] at h
      | some k =>
        simp only [hl, List.mem_flatMap, List.mem_cons] at h
        obtain ⟨c, hc, h⟩ := h
        have hc := mem_children.mp hc
        rcases h with rfl | h
        · exact ⟨[c], by simp, by simp, ⟨k, hl, hc, by simp, trivial⟩, rfl⟩
        · split at h
          · rename_i hd
            obtain ⟨ns, -, hn, hw, rfl⟩ := ih.mp h
            exact ⟨c :: ns, by simp, by simpa using hn, ⟨k, hl, hc, fun _ => hd, hw⟩, rfl⟩
          · cases h
    · rintro ⟨_ | ⟨c, ns⟩, hne, hn, hw, rfl⟩
      · exact absurd rfl hne
      · obtain ⟨k, hl, hc, hd, hw⟩ := hw
        simp only [hl, List.mem_flatMap, List.mem_cons]
        refine ⟨c, mem_children.mpr hc, ?_⟩
        by_cases hns : ns = []
        · subst hns
          exact Or.inl rfl
        · right
          rw [if_pos (hd hns)]
          exact ih.mpr ⟨ns, hns, by simpa using hn, hw, rfl⟩

theorem Way.validName (h : fs.Way follow p ns) : ∀ c ∈ ns, ValidName c := by
  induction ns generalizing p with
  | nil => exact fun c hc => absurd hc List.not_mem_nil
  | cons c ns ih =>
    obtain ⟨k, -, hc, -, hw⟩ := h
    exact List.forall_mem_cons.mpr ⟨validName_of_lookup hc, ih hw⟩

theorem validNames_of_mem_listing (h : q ∈ fs.listing follow n p) :
    ∃ ns : List Bytes, (∀ n ∈ ns, ValidName n) ∧ q = ns.foldl join p := by
  obtain ⟨ns, -, -, hw, rfl⟩ := mem_listing.mp h
  exact ⟨ns, hw.validName, rfl⟩

theorem prefix_of_mem_listing (h : q ∈ fs.listing follow n p) : p <+: q := by
  obtain ⟨ns, hns, rfl⟩ := validNames_of_mem_listing h
  clear h
  induction ns generalizing p with
  | nil => exact List.prefix_rfl
  | cons n ns ih =>
    obtain ⟨hn, hns⟩ := List.forall_mem_cons.mp hns
    exact (prefix_join_name hn.plain).trans (ih hns)

end Way

theorem zero_notMem_of_mem_recursiveDirectory {follow : Bool} {p q : Bytes}
    (hd : fs.isDirectory p) (h : q ∈ fs.recursiveDirectory follow p) (hq : fs.isRegularFile q) :
    0 ∉ p := by
  intro h0
  obtain ⟨rest, rfl⟩ := prefix_of_mem_listing h
  obtain ⟨o, hl, ho⟩ := isDirectory_iff.mp hd
  obtain ⟨k, b, hl', hk⟩ := isRegularFile_iff.mp hq
  rw [locate_congr (cstr_append_of_mem rest h0), hl, Option.some.injEq] at hl'
  rw [← hl', ho] at hk
  cases hk

section NoLinks

variable {p q : Bytes} {o : Key} {ns : List Bytes}

theorem way_iff {follow : Bool} (hp : fs.locate p = some o) (h0 : 0 ∉ p) (hl : fs.NoLinks o)
    (hne : ns ≠ []) : fs.Way follow p ns ↔ fs.lookup (o ++ ns) ≠ none := by
  induction ns generalizing p o with
  | nil => exact absurd rfl hne
  | cons c ns ih =>
    have hnext (hc : fs.lookup (o ++ [c]) ≠ none) :=
      locate_join_name hp h0 hl (lookup_parent hc) (validName_of_lookup hc)
    rw [List.append_cons]
    constructor
    · rintro ⟨k, hk, hc, -, hw⟩
      obtain ⟨⟩ := hp.symm.trans hk
      by_cases hns : ns = []
      · rwa [hns, List.append_nil]
      · exact (ih (hnext hc).1 (hnext hc).2 (hl.append [c]) hns).mp hw
    · intro hk
      have hc := lookup_ne_none_of_append hk
      refine ⟨o, hp, hc, fun hns => ?_, ?_⟩
      · rw [descends, lookup_dir_of_append hk hns]
      · by_cases hns : ns = []
        · rw [hns]
          trivial
        · exact (ih (hnext hc).1 (hnext hc).2 (hl.append [c]) hns).mpr hk

theorem length_le_maxDepth (hk : fs.lookup k ≠ none) : k.length ≤ fs.maxDepth := by
  have hsub : (List.range k.length).map (fun i => k.take i) ⊆ fs.nodes.keys := by
    intro k' hk'
    obtain ⟨i, -, rfl⟩ := List.mem_map.mp hk'
    rw [← AList.mem_keys, mem_nodes_iff]
    have hk'' : fs.lookup (k.take i ++ k.drop i) ≠ none := by rwa [List.take_append_drop]
    exact lookup_ne_none_of_append hk''
  have hnd : ((List.range k.length).map fun i => k.take i).Nodup := by
    refine List.Nodup.map_on (fun i hi j hj he => ?_) List.nodup_range
    have hlen := congrArg List.length he
    simp only [List.length_take, List.mem_range] at hlen hi hj
    omega
  have hle := (List.subperm_of_subset hnd hsub).length_le
  rw [List.length_map, List.length_range] at hle
  exact hle.trans (Nat.le_mul_of_pos_left _ (Nat.succ_pos _))

/-- Without links, the iterator yields the path to every node below the directory, and no other
paths. -/
theorem mem_recursiveDirectory {follow : Bool} (hp : fs.locate p = some o) (h0 : 0 ∉ p)
    (hl : fs.NoLinks o) : q ∈ fs.recursiveDirectory follow p ↔
      ∃ ns, ns ≠ [] ∧ fs.lookup (o ++ ns) ≠ none ∧ q = ns.foldl join p := by
  rw [recursiveDirectory, mem_listing]
  constructor
  · rintro ⟨ns, hne, -, hw, rfl⟩
    exact ⟨ns, hne, (way_iff hp h0 hl hne).mp hw, rfl⟩
  · rintro ⟨ns, hne, hk, rfl⟩
    have hle := length_le_maxDepth hk
    rw [List.length_append] at hle
    exact ⟨ns, hne, by omega, (way_iff hp h0 hl hne).mpr hk, rfl⟩

end NoLinks

section Files

variable {o ns : Key} {b : Bytes}

/-- The regular files below the directory at a key, by the names on the way to them. -/
def files (fs : FileSystem) (o : Key) : List (Key × Bytes) :=
  fs.nodes.entries.filterMap fun e =>
    match e.2 with
    | .file b => if o <+: e.1 then some (e.1.drop o.length, b) else none
    | _ => none

theorem files_spec {e : Sigma fun _ : Key => Node} :
    (match e.2 with
      | .file b => if o <+: e.1 then some (e.1.drop o.length, b) else none
      | _ => none) = some (ns, b) ↔ e = ⟨o ++ ns, .file b⟩ := by
  obtain ⟨k, c | _ | t⟩ := e
  · simp only [Option.ite_none_right_eq_some, Option.some.injEq, Prod.mk.injEq, Sigma.mk.injEq,
      heq_eq_eq, Node.file.injEq]
    constructor
    · rintro ⟨⟨ms, rfl⟩, hd, rfl⟩
      rw [List.drop_left] at hd
      exact ⟨by rw [hd], rfl⟩
    · rintro ⟨rfl, rfl⟩
      exact ⟨List.prefix_append _ _, List.drop_left, rfl⟩
  · simp
  · simp

theorem mem_files : (ns, b) ∈ fs.files o ↔ fs.lookup (o ++ ns) = some (.file b) := by
  have hl : fs.lookup (o ++ ns) = some (.file b) ↔ ⟨o ++ ns, .file b⟩ ∈ fs.nodes.entries :=
    AList.mem_lookup_iff
  rw [hl, files, List.mem_filterMap]
  simp only [files_spec, exists_eq_right]

theorem nodup_files (fs : FileSystem) (o : Key) : (fs.files o).Nodup := by
  refine fs.nodes.nodupKeys.nodup.filterMap fun e e' x he he' => ?_
  obtain ⟨ns, b⟩ := x
  exact (files_spec.mp he).trans (files_spec.mp he').symm

end Files

end Xfer.Posix.FileSystem
