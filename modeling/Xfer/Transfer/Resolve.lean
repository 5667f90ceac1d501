import Xfer.Transfer.Manifest

/-! # Finding the files of a manifest again

The manifest does not say where its files are, so they are looked for: below a
single source, or in the parent directories of several ones. The file that is
found is the one that the entry was made for exactly if its relative path leads
to it from there too.
-/

namespace Xfer.Transfer

open Posix FileSystem

variable {fs : FileSystem} {options : SenderOptions} {paths : List Bytes} {d p q rel : Bytes}
  {size : UInt64} {k : Key} {c : Collected} {std : StdSort} {items : List Collected}

/-- Next to the source `d`, the relative path leads to the file at `k`. -/
def Beside (fs : FileSystem) (rel d : Bytes) (k : Key) : Prop :=
  fs.locate (join (parentPath d) rel) = some k

/-- The relative path of the file at `k`, found as `q` because of the source `p`, leads to it again
from where it is looked for, and to no other file of the same size from where it is looked for
before. -/
def Retraced (fs : FileSystem) (options : SenderOptions) (paths : List Bytes) (p q : Bytes)
    (k : Key) : Prop :=
  let rel := relName fs (base fs options p) q k
  match paths with
  | [d] => fs.isDirectory d → options.stripPrefix = [] ∨ fs.locate (join d rel) = some k
  | _ => ∃ before d after, paths = before ++ d :: after ∧ Beside fs rel d k ∧
      ∀ d' ∈ before, ∀ k', Beside fs rel d' k' → ∀ b b', fs.lookup k = some (.file b) →
        fs.lookup k' = some (.file b') → UInt64.ofNat b'.length = UInt64.ofNat b.length → k' = k

theorem candidate_eq_some : candidate fs rel size d = some q ↔ q = join (parentPath d) rel ∧
    ∃ k b, Beside fs rel d k ∧ fs.lookup k = some (.file b) ∧ UInt64.ofNat b.length = size := by
  unfold candidate Beside
  simp only [Option.ite_none_right_eq_some, Option.some.injEq, isRegularFile_iff]
  constructor
  · rintro ⟨⟨⟨k, b, hl, hk⟩, hs⟩, rfl⟩
    rw [fileSize, status, hl, Option.bind_some, hk] at hs
    exact ⟨rfl, k, b, hl, hk, Option.some.inj hs⟩
  · rintro ⟨rfl, k, b, hl, hk, hs⟩
    refine ⟨⟨⟨k, b, hl, hk⟩, ?_⟩, rfl⟩
    rw [fileSize, status, hl, Option.bind_some, hk]
    exact congrArg some hs

/-- The search ends at the file exactly if it is there for some source, and no other file of its
size is there for an earlier one. -/
theorem findSome_candidate_iff {b : Bytes} (hk : fs.lookup k = some (.file b)) :
    (∃ q, paths.findSome? (candidate fs rel (UInt64.ofNat b.length)) = some q ∧
        fs.locate q = some k) ↔
      ∃ before d after, paths = before ++ d :: after ∧ Beside fs rel d k ∧
        ∀ d' ∈ before, ∀ k', Beside fs rel d' k' → ∀ c c', fs.lookup k = some (.file c) →
          fs.lookup k' = some (.file c') → UInt64.ofNat c'.length = UInt64.ofNat c.length →
          k' = k := by
  constructor
  · rintro ⟨q, hq, hl⟩
    obtain ⟨before, d, after, rfl, hd, hno⟩ := List.findSome?_eq_some_iff.mp hq
    obtain ⟨rfl, -⟩ := candidate_eq_some.mp hd
    refine ⟨before, d, after, rfl, hl, fun d' hd' k' hb c c' hc hc' hs => ?_⟩
    obtain ⟨⟩ := hk.symm.trans hc
    have hsome : candidate fs rel (UInt64.ofNat b.length) d' = some (join (parentPath d') rel) :=
      candidate_eq_some.mpr ⟨rfl, k', c', hb, hc', hs⟩
    rw [hno d' hd'] at hsome
    cases hsome
  · rintro ⟨before, d, after, rfl, hd, hno⟩
    rw [List.findSome?_append]
    cases hb : before.findSome? (candidate fs rel (UInt64.ofNat b.length)) with
    | some q =>
      obtain ⟨d', hd', hq⟩ := List.exists_of_findSome?_eq_some hb
      obtain ⟨rfl, k', b', hb', hk', hs⟩ := candidate_eq_some.mp hq
      obtain rfl := hno d' hd' k' hb' b b' hk hk' hs
      exact ⟨_, rfl, hb'⟩
    | none =>
      have hcand : candidate fs rel (UInt64.ofNat b.length) d = some (join (parentPath d) rel) :=
        candidate_eq_some.mpr ⟨rfl, k, b, hd, hk, rfl⟩
      refine ⟨join (parentPath d) rel, ?_, hd⟩
      rw [Option.none_or, List.findSome?_cons, hcand]

theorem resolve_singleton (fs : FileSystem) (d : Bytes) (e : FileEntry) : resolve fs [d] e =
    if fs.isDirectory d then some (join d e.relPath)
    else if fs.isRegularFile d then some d
    else [d].findSome? (candidate fs e.relPath e.size) := rfl

theorem resolve_of_length_ne (h : paths.length ≠ 1) (e : FileEntry) :
    resolve fs paths e = paths.findSome? (candidate fs e.relPath e.size) := by
  rcases paths with _ | ⟨d, _ | ⟨d', paths⟩⟩
  · rfl
  · exact absurd rfl h
  · rfl

theorem retraced_of_length_ne (h : paths.length ≠ 1) : Retraced fs options paths p q k ↔
    ∃ before d after, paths = before ++ d :: after ∧
      Beside fs (relName fs (base fs options p) q k) d k ∧ ∀ d' ∈ before, ∀ k',
        Beside fs (relName fs (base fs options p) q k) d' k' → ∀ b b',
          fs.lookup k = some (.file b) → fs.lookup k' = some (.file b') →
          UInt64.ofNat b'.length = UInt64.ofNat b.length → k' = k := by
  rcases paths with _ | ⟨d, _ | ⟨d', paths⟩⟩
  · exact Iff.rfl
  · exact absurd rfl h
  · exact Iff.rfl

theorem locate_join_relName (hs : options.stripPrefix = []) (hy : Yields fs options d q)
    (hd : fs.isDirectory d) {b : Bytes} (hl : fs.locate q = some k)
    (hk : fs.lookup k = some (.file b)) :
    fs.locate (join d (relName fs (base fs options d) q k)) = some k := by
  obtain ⟨o, ho, hdir⟩ := isDirectory_iff.mp hd
  have hreg : ¬ fs.isRegularFile d := fun hr => by
    rw [isDirectory_of_isRegularFile hr] at hd
    cases hd
  have h0 : 0 ∉ d := by
    cases hy with
    | self hr => exact absurd hr hreg
    | below _ _ _ hr hm => exact zero_notMem_of_mem_recursiveDirectory hd hm hr
  have hbase : base fs options d = d := by rw [base, if_pos hs, if_neg hreg]
  have hfind : fs.find d = some o := find_eq_some.mpr ⟨ho, by simp [hdir]⟩
  rw [relName, hbase, hfind]
  exact locate_join_route ho hdir h0 hk (by simp)

theorem Because.retraced_iff (h : Because fs options p c) (hp : p ∈ paths)
    (hl : fs.locate c.onDisk = some k) :
    (∃ q, resolve fs paths c.entry = some q ∧ fs.locate q = some k) ↔
      Retraced fs options paths p c.onDisk k := by
  obtain ⟨k', b, hl', hk, he⟩ := h.spec
  obtain ⟨⟩ := hl.symm.trans hl'
  by_cases hlen : paths.length = 1
  · obtain ⟨d, rfl⟩ := List.length_eq_one_iff.mp hlen
    obtain rfl := List.mem_singleton.mp hp
    rw [resolve_singleton, he]
    by_cases hd : fs.isDirectory p
    · rw [if_pos hd]
      constructor
      · rintro ⟨q, hq, hlq⟩ -
        obtain rfl := Option.some.inj hq
        exact Or.inr hlq
      · intro hr
        refine ⟨_, rfl, ?_⟩
        rcases hr hd with hs | hr
        · exact locate_join_relName hs h.1 hd hl hk
        · exact hr
    · have hy := h.1
      generalize c.onDisk = q at hl hy
      cases hy with
      | self hr =>
        rw [if_neg hd, if_pos hr]
        exact iff_of_true ⟨p, rfl, hl⟩ fun hd' => absurd hd' hd
      | below _ hd' => exact absurd hd' hd
  · rw [resolve_of_length_ne hlen, retraced_of_length_ne hlen, he]
    exact findSome_candidate_iff hk

/-- Both passes of the sender look for the file of an entry in the same way, and find the one that
the entry was made for exactly if it can be retraced. -/
theorem resolve_iff_retraced (h : selected std fs options paths = some items) (hc : c ∈ items) :
    ∃ k, fs.locate c.onDisk = some k ∧ (∃ p ∈ paths, Because fs options p c) ∧
      ∀ p ∈ paths, Because fs options p c →
        ((∃ q, resolve fs paths c.entry = some q ∧ fs.locate q = some k) ↔
          Retraced fs options paths p c.onDisk k) := by
  obtain ⟨p, hp, hb⟩ := because_of_mem_selected h hc
  obtain ⟨k, -, hl, -⟩ := hb.spec
  exact ⟨k, hl, ⟨p, hp, hb⟩, fun p' hp' hb' => hb'.retraced_iff hp' hl⟩

/-- Two directories, one of them with a file, and a file of the same name next to them. -/
def neighbours : FileSystem :=
  (((FileSystem.empty.place [[0x61]] .dir).place [[0x62]] .dir).place [[0x61], [0x78]]
    (.file [0x31])).place [[0x78]] (.file [0x32])

def neighbourItem : Collected := ⟨[0x2F, 0x61, 0x2F, 0x78], { relPath := [0x78], size := 1 }⟩

theorem selected_neighbours : selected insertionSort neighbours { recursive := true }
    [[0x2F, 0x61], [0x2F, 0x62]] = some [neighbourItem] := by
  decide

/-- The file that is found for the entry is not the one in the directory. -/
theorem neighbour_found : ∃ items, ∃ c ∈ items, selected insertionSort neighbours
    { recursive := true } [[0x2F, 0x61], [0x2F, 0x62]] = some items ∧
    ¬ ∃ k q, neighbours.locate c.onDisk = some k ∧
      resolve neighbours [[0x2F, 0x61], [0x2F, 0x62]] c.entry = some q ∧
      neighbours.locate q = some k := by
  refine ⟨[neighbourItem], neighbourItem, List.mem_singleton_self _, selected_neighbours, ?_⟩
  rintro ⟨k, q, hk, hq, hl⟩
  have hq' : resolve neighbours [[0x2F, 0x61], [0x2F, 0x62]] neighbourItem.entry =
      some [0x2F, 0x78] := by decide
  obtain ⟨⟩ := hq.symm.trans hq'
  obtain ⟨⟩ := hk.symm.trans
    (by decide : neighbours.locate neighbourItem.onDisk = some [[0x61], [0x78]])
  exact absurd hl (by decide)

theorem neighbour_iff_retraced : ∃ k, neighbours.locate neighbourItem.onDisk = some k ∧
    (∃ p ∈ [[0x2F, 0x61]], Because neighbours { recursive := true } p neighbourItem) ∧
    ∀ p ∈ [[0x2F, 0x61]], Because neighbours { recursive := true } p neighbourItem →
      ((∃ q, resolve neighbours [[0x2F, 0x61]] neighbourItem.entry = some q ∧
          neighbours.locate q = some k) ↔
        Retraced neighbours { recursive := true } [[0x2F, 0x61]] p neighbourItem.onDisk k) := by
  have h : selected insertionSort neighbours { recursive := true } [[0x2F, 0x61]] =
      some [neighbourItem] := by decide
  exact resolve_iff_retraced h (List.mem_singleton_self _)

end Xfer.Transfer
