import Xfer.Posix.Path
import Mathlib.Data.List.AList

/-! # File systems

A file system maps locations, the lists of names below the root, to nodes. Every
node other than the root lies in a directory. A path is looked up name by name
from the root or the working directory, and symbolic links are followed up to
the kernel's limit.
-/

namespace Xfer.Posix

/-- The place of a node: the names on the way from the root. -/
abbrev Key := List Bytes

inductive Node where
  | file (content : Bytes)
  | dir
  | symlink (target : Bytes)
  deriving DecidableEq

def ValidName (n : Bytes) : Prop := n ≠ [] ∧ n ≠ dot ∧ n ≠ dotdot ∧ slash ∉ n ∧ 0 ∉ n

instance : DecidablePred ValidName := fun n =>
  inferInstanceAs (Decidable (n ≠ [] ∧ n ≠ dot ∧ n ≠ dotdot ∧ slash ∉ n ∧ 0 ∉ n))

/-- A finite tree of nodes without hard links, and the process's working directory in it. -/
structure FileSystem where
  nodes : AList fun _ : Key => Node
  cwd : Key
  root_dir : nodes.lookup [] = some .dir
  cwd_dir : nodes.lookup cwd = some .dir
  parent_dir : ∀ {k n}, k ++ [n] ∈ nodes → nodes.lookup k = some .dir
  valid_name : ∀ {k n}, k ++ [n] ∈ nodes → ValidName n

namespace FileSystem

def lookup (fs : FileSystem) (k : Key) : Option Node := fs.nodes.lookup k

/-- The file system that holds the root directory only. -/
def empty : FileSystem where
  nodes := AList.singleton [] .dir
  cwd := []
  root_dir := rfl
  cwd_dir := rfl
  parent_dir h := by simp [AList.mem_keys] at h
  valid_name h := by simp [AList.mem_keys] at h

/-- A node can be put at a key whose parent is a directory and that is not one itself. -/
def CanPlace (fs : FileSystem) (k : Key) : Prop :=
  k ≠ [] ∧ fs.lookup k.dropLast = some .dir ∧ ValidName (k.getLastD []) ∧ fs.lookup k ≠ some .dir

instance (fs : FileSystem) : DecidablePred fs.CanPlace := fun k =>
  inferInstanceAs (Decidable (k ≠ [] ∧ fs.lookup k.dropLast = some .dir ∧
    ValidName (k.getLastD []) ∧ fs.lookup k ≠ some .dir))

theorem mem_nodes_iff {fs : FileSystem} {k : Key} : k ∈ fs.nodes ↔ fs.lookup k ≠ none := by
  rw [lookup, ← AList.lookup_isSome, Option.isSome_iff_ne_none]

/-- Put a node where it can be put; elsewhere nothing changes. -/
def place (fs : FileSystem) (k : Key) (v : Node) : FileSystem :=
  if h : fs.CanPlace k then
    { nodes := fs.nodes.insert k v
      cwd := fs.cwd
      root_dir := by rw [AList.lookup_insert_ne h.1.symm, fs.root_dir]
      cwd_dir := by
        have hne : fs.cwd ≠ k := by rintro rfl; exact h.2.2.2 fs.cwd_dir
        rw [AList.lookup_insert_ne hne, fs.cwd_dir]
      parent_dir := by
        intro k' n hk
        rcases AList.mem_insert _ |>.mp hk with rfl | hold
        · rw [AList.lookup_insert_ne (by simp), ← lookup]
          simpa using h.2.1
        · have hd := fs.parent_dir hold
          have hne : k' ≠ k := by rintro rfl; exact h.2.2.2 hd
          rw [AList.lookup_insert_ne hne, hd]
      valid_name := by
        intro k' n hk
        rcases AList.mem_insert _ |>.mp hk with rfl | hk
        · simpa using h.2.2.1
        · exact fs.valid_name hk }
  else fs

variable {fs : FileSystem} {k k' o cur : Key} {v : Node} {cs ds ns : List Bytes} {n : ℕ}

theorem lookup_place (h : fs.CanPlace k) (v : Node) (k' : Key) :
    (fs.place k v).lookup k' = if k' = k then some v else fs.lookup k' := by
  unfold place lookup
  rw [dif_pos h]
  split
  · rename_i he; subst he; exact AList.lookup_insert _
  · rename_i he; exact AList.lookup_insert_ne he

theorem place_of_not_canPlace (h : ¬ fs.CanPlace k) (v : Node) : fs.place k v = fs := dif_neg h

theorem lookup_place_ne (fs : FileSystem) (v : Node) (h : k' ≠ k) :
    (fs.place k v).lookup k' = fs.lookup k' := by
  by_cases hp : fs.CanPlace k
  · rw [lookup_place hp, if_neg h]
  · rw [place_of_not_canPlace hp]

@[simp] theorem cwd_place (fs : FileSystem) (k : Key) (v : Node) : (fs.place k v).cwd = fs.cwd := by
  unfold place; split <;> rfl

@[simp] theorem lookup_root (fs : FileSystem) : fs.lookup [] = some .dir := fs.root_dir

@[simp] theorem lookup_cwd (fs : FileSystem) : fs.lookup fs.cwd = some .dir := fs.cwd_dir

theorem lookup_parent {c : Bytes} (h : fs.lookup (k ++ [c]) ≠ none) : fs.lookup k = some .dir :=
  fs.parent_dir (mem_nodes_iff.mpr h)

theorem validName_of_lookup {c : Bytes} (h : fs.lookup (k ++ [c]) ≠ none) : ValidName c :=
  fs.valid_name (mem_nodes_iff.mpr h)

/-- Everything above a node is a directory. -/
theorem lookup_dir_of_append (h : fs.lookup (k ++ ns) ≠ none) (hn : ns ≠ []) :
    fs.lookup k = some .dir := by
  induction ns using List.reverseRecOn with
  | nil => exact absurd rfl hn
  | append_singleton ns c ih =>
    rw [← List.append_assoc] at h
    have hd := lookup_parent h
    by_cases hns : ns = []
    · simpa [hns] using hd
    · exact ih (by simp [hd]) hns

theorem lookup_ne_none_of_append (h : fs.lookup (k ++ ns) ≠ none) : fs.lookup k ≠ none := by
  by_cases hn : ns = []
  · simpa [hn] using h
  · simp [lookup_dir_of_append h hn]

theorem validName_of_mem (h : fs.lookup (k ++ ns) ≠ none) : ∀ c ∈ ns, ValidName c := by
  intro c hc
  obtain ⟨s, t, rfl⟩ := List.append_of_mem hc
  rw [← List.singleton_append (l := t), ← List.append_assoc, ← List.append_assoc] at h
  exact validName_of_lookup (lookup_ne_none_of_append h)

/-- Follow the steps of a path from a node; `link` continues at the target of a symbolic link.
The last step may name a node that does not exist in a directory that does. -/
def walkWith (fs : FileSystem) (link : Key → List Bytes → Option Key) :
    Key → List Bytes → Option Key
  | cur, [] => some cur
  | cur, c :: cs =>
    if fs.lookup cur = some .dir then
      if c = dot then walkWith fs link cur cs
      else if c = dotdot then walkWith fs link cur.dropLast cs
      else match fs.lookup (cur ++ [c]) with
        | some (.symlink t) => link (if isAbsolute t then [] else cur) (pieces t ++ cs)
        | some _ => walkWith fs link (cur ++ [c]) cs
        | none => if cs = [] then some (cur ++ [c]) else none
    else none

/-- Follow the steps of a path through at most `n` symbolic links. -/
def walk (fs : FileSystem) : ℕ → Key → List Bytes → Option Key
  | 0 => fs.walkWith fun _ _ => none
  | n + 1 => fs.walkWith (fs.walk n)

/-- The kernel gives up on a path after this many symbolic links. -/
def maxLinks : ℕ := 40

def start (fs : FileSystem) (p : Bytes) : Key := if isAbsolute p then [] else fs.cwd

/-- The key that a path names, whether or not there is a node at it. -/
def locate (fs : FileSystem) (p : Bytes) : Option Key :=
  if cstr p = [] then none else fs.walk maxLinks (fs.start (cstr p)) (pieces (cstr p))

/-- What `stat` finds at a path. -/
def status (fs : FileSystem) (p : Bytes) : Option Node := (fs.locate p).bind fs.lookup

def pathExists (fs : FileSystem) (p : Bytes) : Bool := (fs.status p).isSome

def isDirectory (fs : FileSystem) (p : Bytes) : Bool := fs.status p = some .dir

def isRegularFile (fs : FileSystem) (p : Bytes) : Bool :=
  match fs.status p with
  | some (.file _) => true
  | _ => false

/-- The size of a regular file; `none` stands for the error value `uintmax_t(-1)`. -/
def fileSize (fs : FileSystem) (p : Bytes) : Option ℕ :=
  match fs.status p with
  | some (.file c) => some c.length
  | _ => none

/-- The absolute path of a key, without symbolic links. -/
def keyPath (k : Key) : Bytes := joinAll (rootName :: k)

def currentPath (fs : FileSystem) : Bytes := keyPath fs.cwd

/-- The longest leading part of a path that exists, if any, and the elements after it. -/
def existingLead (fs : FileSystem) : List Bytes → List Bytes → Option (Key × List Bytes)
  | es, rest =>
    match (fs.locate (joinAll es)).filter (fs.lookup · ≠ none) with
    | some k => some (k, rest)
    | none => if h : es = [] then none
      else existingLead fs es.dropLast (es.getLast h :: rest)
termination_by es => es.length
decreasing_by
  have := List.length_pos_iff.mpr h
  simp only [List.length_dropLast]
  omega

/-- `weakly_canonical(p)`. -/
def weaklyCanonical (fs : FileSystem) (p : Bytes) : Bytes :=
  match (fs.locate p).filter (fs.lookup · ≠ none) with
  | some k => keyPath k
  | none => match fs.existingLead (elements p) [] with
    | some (k, rest) => lexicallyNormal (rest.foldl join (keyPath k))
    | none => lexicallyNormal p

/-- `relative(p, base)`. -/
def relative (fs : FileSystem) (p base : Bytes) : Bytes :=
  lexicallyRelative (fs.weaklyCanonical p) (fs.weaklyCanonical base)

/-- Create a directory; a symbolic link in the last place is not followed. -/
def mkdir (fs : FileSystem) (p : Bytes) : Option FileSystem :=
  match fs.walk maxLinks (fs.start (cstr p)) (pieces (cstr p)).dropLast with
  | some d =>
    let k := d ++ [(pieces (cstr p)).getLastD []]
    if fs.lookup k = none ∧ fs.CanPlace k then some (fs.place k .dir) else none
  | none => none

/-- Create each of the paths that does not exist, up to the first one that cannot be created. -/
def mkdirs : FileSystem → List Bytes → FileSystem
  | fs, [] => fs
  | fs, p :: ps =>
    if fs.pathExists p then mkdirs fs ps
    else match fs.mkdir p with
      | some fs' => mkdirs fs' ps
      | none => fs

def createDirectories (fs : FileSystem) (p : Bytes) : FileSystem := fs.mkdirs (leads p)

/-- Open a regular file for writing: create it, or cut it down to nothing. -/
def openTrunc (fs : FileSystem) (p : Bytes) : Option (Key × FileSystem) :=
  match fs.locate p with
  | some k => if fs.CanPlace k then some (k, fs.place k (.file [])) else none
  | none => none

/-- Append to a regular file. -/
def appendAt (fs : FileSystem) (k : Key) (bs : Bytes) : FileSystem :=
  match fs.lookup k with
  | some (.file c) => fs.place k (.file (c ++ bs))
  | _ => fs

theorem canPlace_place (h : fs.CanPlace k) {c : Bytes} : (fs.place k (.file c)).CanPlace k := by
  refine ⟨h.1, ?_, h.2.2.1, by simp [lookup_place h]⟩
  rw [lookup_place_ne, h.2.1]
  intro he
  have hpos := List.length_pos_iff.mpr h.1
  have := congrArg List.length he
  simp only [List.length_dropLast] at this
  omega

theorem place_place (h : fs.CanPlace k) (c : Bytes) (v : Node) :
    (fs.place k (.file c)).place k v = fs.place k v := by
  have h' := canPlace_place h (c := c)
  unfold place at h' ⊢
  simp only [dif_pos h] at h' ⊢
  rw [dif_pos h']
  simp only [AList.insert_insert]

theorem appendAt_place (h : fs.CanPlace k) (c bs : Bytes) :
    (fs.place k (.file c)).appendAt k bs = fs.place k (.file (c ++ bs)) := by
  unfold appendAt
  rw [lookup_place h, if_pos rfl]
  exact place_place h c _

theorem openTrunc_eq_some {p : Bytes} {fs' : FileSystem} :
    fs.openTrunc p = some (k, fs') ↔
      fs.locate p = some k ∧ fs.CanPlace k ∧ fs' = fs.place k (.file []) := by
  unfold openTrunc
  cases fs.locate p with
  | none => simp
  | some k' =>
    simp only [Option.some.injEq]
    split
    · simp only [Option.some.injEq, Prod.mk.injEq]
      constructor
      · rintro ⟨rfl, rfl⟩
        exact ⟨rfl, ‹_›, rfl⟩
      · rintro ⟨rfl, _, rfl⟩
        exact ⟨rfl, rfl⟩
    · rename_i hp
      simp only [reduceCtorEq, false_iff, not_and]
      rintro rfl h
      exact absurd h hp

end FileSystem

end Xfer.Posix
