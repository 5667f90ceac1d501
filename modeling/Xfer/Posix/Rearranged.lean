import Xfer.Posix.Directory
import Xfer.Posix.Ways

/-! # Orders of enumeration

A file system says in which order the entries of its directories are enumerated.
Another order changes nothing but the order in which the iterator yields paths,
and for each regular file that it yields there is an order in which no regular
file comes before that one.
-/

namespace Xfer.Posix.FileSystem

variable {fs fs' : FileSystem} {k k' o : Key} {c p q : Bytes} {ns as bs cs : List Bytes}
  {follow : Bool} {n : ℕ}

/-- The same nodes; the entries of directories are enumerated in some other order. -/
structure Rearranged (fs fs' : FileSystem) : Prop where
  nodes : fs'.nodes.entries.Perm fs.nodes.entries
  cwd : fs'.cwd = fs.cwd

theorem Rearranged.refl (fs : FileSystem) : fs.Rearranged fs := ⟨.refl _, rfl⟩

theorem Rearranged.symm (h : fs.Rearranged fs') : fs'.Rearranged fs := ⟨h.nodes.symm, h.cwd.symm⟩

theorem Rearranged.lookup (h : fs.Rearranged fs') (k : Key) : fs'.lookup k = fs.lookup k :=
  AList.perm_lookup h.nodes

theorem Rearranged.alike (h : fs.Rearranged fs') : fs.Alike fs' where
  cwd := h.cwd
  dir hk := (h.lookup _).trans hk
  symlink hk := (h.lookup _).trans hk
  file hk := ⟨_, (h.lookup _).trans hk⟩
  absent hk := (h.lookup _).trans hk

theorem Rearranged.status (h : fs.Rearranged fs') (p : Bytes) : fs'.status p = fs.status p := by
  unfold FileSystem.status
  rw [h.alike.locate]
  exact congrArg _ (funext h.lookup)

theorem Rearranged.find (h : fs.Rearranged fs') (p : Bytes) : fs'.find p = fs.find p := by
  unfold FileSystem.find
  rw [h.alike.locate, funext h.lookup]

theorem Rearranged.isRegularFile (h : fs.Rearranged fs') (p : Bytes) :
    fs'.isRegularFile p = fs.isRegularFile p := by
  unfold FileSystem.isRegularFile
  rw [h.status]

theorem Rearranged.descends (h : fs.Rearranged fs') (follow : Bool) (k : Key) (p : Bytes) :
    fs'.descends follow k p = fs.descends follow k p := by
  unfold FileSystem.descends
  rw [h.lookup, h.alike.isDirectory]

theorem Rearranged.maxDepth (h : fs.Rearranged fs') : fs'.maxDepth = fs.maxDepth := by
  have hkeys : fs'.nodes.keys.length = fs.nodes.keys.length := (h.nodes.map Sigma.fst).length_eq
  rw [FileSystem.maxDepth, FileSystem.maxDepth, hkeys]

theorem Rearranged.way (h : fs.Rearranged fs') : fs'.Way follow p ns ↔ fs.Way follow p ns := by
  induction ns generalizing p with
  | nil => exact Iff.rfl
  | cons c ns ih =>
    unfold Way
    simp only [h.alike.locate, h.lookup, h.descends, ih]

theorem Rearranged.mem_recursiveDirectory (h : fs.Rearranged fs') :
    q ∈ fs'.recursiveDirectory follow p ↔ q ∈ fs.recursiveDirectory follow p := by
  unfold recursiveDirectory
  simp only [mem_listing, h.maxDepth, h.way]

section Shorter

/-- By whatever names something is reached from `q`, it is reached from `q'`. -/
def Covers (fs : FileSystem) (q' q : Bytes) : Prop :=
  ∀ (ns : List Bytes) (k : Key), (∀ n ∈ ns, ValidName n) → fs.locate (ns.foldl join q) = some k →
    fs.locate (ns.foldl join q') = some k

theorem Covers.next {q' : Bytes} (h : fs.Covers q' q) (hc : ValidName c) :
    fs.Covers (join q' c) (join q c) := fun ns k hns hk =>
  h (c :: ns) k (List.forall_mem_cons.mpr ⟨hc, hns⟩) hk

theorem exists_locate_foldl (h : fs.locate p = some o) (hd : fs.lookup o = some .dir)
    (h0 : 0 ∉ p) : ∃ m, ∀ ns, (∀ n ∈ ns, ValidName n) →
      fs.locate (ns.foldl join p) = fs.walk m o ns := by
  obtain ⟨m, hm⟩ := locate_join_joinAll h hd h0
  refine ⟨m, fun ns hns => ?_⟩
  by_cases hne : ns = []
  · rw [hne, walk_nil, List.foldl_nil, h]
  · rw [← join_joinAll (fun n hn => (hns n hn).plain) hne]
    exact hm ns fun n hn => ⟨(hns n hn).plain, (hns n hn).2.2.2.2⟩

theorem covers_of_circle (h : fs.locate p = some o) (hd : fs.lookup o = some .dir) (h0 : 0 ∉ p)
    (hbs : ∀ n ∈ bs, ValidName n) (hb : fs.locate (bs.foldl join p) = some o) :
    fs.Covers p (bs.foldl join p) := by
  obtain ⟨m, hm⟩ := exists_locate_foldl h hd h0
  intro ns k hns hk
  rw [← List.foldl_append, hm _ (List.forall_mem_append.mpr ⟨hbs, hns⟩)] at hk
  rw [hm bs hbs] at hb
  rw [hm ns hns]
  exact walk_of_append hb hk

theorem Way.dir (h : fs.Way follow p ns) (hne : ns ≠ []) :
    ∃ k, fs.locate p = some k ∧ fs.lookup k = some .dir := by
  obtain ⟨c, ns, rfl⟩ := List.exists_cons_of_ne_nil hne
  obtain ⟨k, hl, hc, -⟩ := h
  exact ⟨k, hl, lookup_parent hc⟩

theorem Way.drop (h : fs.Way follow p (as ++ bs)) : fs.Way follow (as.foldl join p) bs := by
  induction as generalizing p with
  | nil => exact h
  | cons a as ih =>
    obtain ⟨k, -, -, -, hw⟩ := h
    exact ih hw

theorem Way.of_covers {q' : Bytes} (h : fs.Way follow q ns) (hq : fs.Covers q' q) :
    fs.Way follow q' ns := by
  induction ns generalizing q q' with
  | nil => trivial
  | cons c ns ih =>
    obtain ⟨k, hl, hc, hd, hw⟩ := h
    have hnext := hq.next (validName_of_lookup hc)
    refine ⟨k, hq [] k (by simp) hl, hc, fun hne => ?_, ih hw hnext⟩
    obtain ⟨o, ho, hdir⟩ := hw.dir hne
    have hdesc := hd hne
    unfold descends at hdesc ⊢
    split at hdesc
    · rfl
    · rw [Bool.and_eq_true] at hdesc ⊢
      exact ⟨hdesc.1, isDirectory_iff.mpr ⟨o, hnext [] o (by simp) ho, hdir⟩⟩
    · exact hdesc

theorem Way.replace (h : fs.Way follow p (as ++ bs)) (hbs : bs ≠ [])
    (hcs : fs.Way follow (as.foldl join p) cs) : fs.Way follow p (as ++ cs) := by
  induction as generalizing p with
  | nil => exact hcs
  | cons a as ih =>
    obtain ⟨k, hl, ha, hd, hw⟩ := h
    exact ⟨k, hl, ha, fun _ => hd (by simp [hbs]), ih hw hcs⟩

/-- A part of a way that goes round in a circle can be left out, and what comes after it leads to
the same places. -/
theorem Way.shorten (h0 : 0 ∉ p) (h : fs.Way follow p (as ++ (bs ++ cs))) (hcs : cs ≠ [])
    (he : fs.locate (as.foldl join p) = fs.locate ((as ++ bs).foldl join p)) :
    fs.Way follow p (as ++ cs) ∧ fs.Covers (as.foldl join p) ((as ++ bs).foldl join p) := by
  have hv := h.validName
  have has : ∀ n ∈ as, ValidName n := fun n hn => hv n (by simp [hn])
  have hbs : ∀ n ∈ bs, ValidName n := fun n hn => hv n (by simp [hn])
  have hz : 0 ∉ as.foldl join p :=
    zero_notMem_foldl_join (fun n hn => ⟨(has n hn).plain, (has n hn).2.2.2.2⟩) h0
  have hrest : fs.Way follow ((as ++ bs).foldl join p) cs := by
    rw [List.foldl_append]
    exact h.drop.drop
  obtain ⟨o, ho, hd⟩ := hrest.dir hcs
  have hcov : fs.Covers (as.foldl join p) ((as ++ bs).foldl join p) := by
    rw [List.foldl_append] at ho he ⊢
    exact covers_of_circle (he.trans ho) hd hz hbs ho
  exact ⟨h.replace (by simp [hcs]) (hrest.of_covers hcov), hcov⟩

theorem filename_foldl_join (h : ∀ n ∈ ns, Plain n) (hne : ns ≠ []) :
    filename (ns.foldl join p) = ns.getLastD [] := by
  rw [filename, endsWithSlash_foldl_join h hne, if_neg (by simp), names_foldl_join h]
  obtain ⟨ms, n, rfl⟩ := (List.eq_nil_or_concat' ns).resolve_left hne
  rw [← List.append_assoc, List.getLastD_concat, List.getLastD_concat]

/-- No directory is gone through twice. -/
def Straight (fs : FileSystem) (p : Bytes) (ns : List Bytes) : Prop :=
  ∀ as bs cs, ns = as ++ (bs ++ cs) → bs ≠ [] → cs ≠ [] →
    fs.locate (as.foldl join p) ≠ fs.locate ((as ++ bs).foldl join p)

/-- What is at the end of a way is at the end of a straight one that is no longer, under the same
name. -/
theorem Way.exists_straight (h0 : 0 ∉ p) (h : fs.Way follow p ns) (hne : ns ≠ [])
    (hk : fs.locate (ns.foldl join p) = some k) : ∃ ms, fs.Way follow p ms ∧ ms ≠ [] ∧
      ms.length ≤ ns.length ∧ fs.locate (ms.foldl join p) = some k ∧
      ms.getLastD [] = ns.getLastD [] ∧ fs.Straight p ms := by
  induction hn : ns.length using Nat.strong_induction_on generalizing ns with
  | _ n ih =>
    subst hn
    by_cases hs : fs.Straight p ns
    · exact ⟨ns, h, hne, le_rfl, hk, rfl, hs⟩
    · unfold Straight at hs
      push Not at hs
      obtain ⟨as, bs, cs, rfl, hbs, hcs, he⟩ := hs
      obtain ⟨hw, hcov⟩ := h.shorten h0 hcs he
      have hlt : (as ++ cs).length < (as ++ (bs ++ cs)).length := by
        have hpos := List.length_pos_iff.mpr hbs
        simp only [List.length_append]
        omega
      have hk' : fs.locate ((as ++ cs).foldl join p) = some k := by
        rw [← List.append_assoc, List.foldl_append] at hk
        rw [List.foldl_append]
        exact hcov cs k (fun n hn => h.validName n (by simp [hn])) hk
      obtain ⟨ms, hms, hne', hlen, hl, hlast, hs⟩ := ih _ hlt hw (by simp [hcs]) hk' rfl
      refine ⟨ms, hms, hne', hlen.trans hlt.le, hl, hlast.trans ?_, hs⟩
      obtain ⟨cs, c, rfl⟩ := (List.eq_nil_or_concat' cs).resolve_left hcs
      simp only [← List.append_assoc, List.getLastD_concat]

end Shorter

section First

/-- The same files; the entries at certain keys are enumerated before all others. -/
def favouring (fs : FileSystem) (S : Key → Prop) [DecidablePred S] : FileSystem :=
  let es := fs.nodes.entries.filter (fun e => S e.1) ++
    fs.nodes.entries.filter fun e => !decide (S e.1)
  have hes : es.Perm fs.nodes.entries := List.filter_append_perm _ _
  let nodes : AList fun _ : Key => Node := ⟨es, (List.perm_nodupKeys hes).mpr fs.nodes.nodupKeys⟩
  { nodes := nodes
    cwd := fs.cwd
    root_dir := (AList.perm_lookup hes).trans fs.root_dir
    cwd_dir := (AList.perm_lookup hes).trans fs.cwd_dir
    parent_dir := fun hk => (AList.perm_lookup hes).trans (fs.parent_dir ((AList.mem_of_perm hes).mp hk))
    valid_name := fun hk => fs.valid_name ((AList.mem_of_perm hes).mp hk) }

variable {S : Key → Prop} [DecidablePred S]

theorem rearranged_favouring (fs : FileSystem) (S : Key → Prop) [DecidablePred S] :
    fs.Rearranged (fs.favouring S) :=
  ⟨List.filter_append_perm _ _, rfl⟩

theorem children_favouring (hc : S (k ++ [c])) (hk : fs.lookup (k ++ [c]) ≠ none)
    (hS : ∀ c', S (k ++ [c']) → c' = c) : ∃ cs, (fs.favouring S).children k = c :: cs := by
  have hkeys : (fs.favouring S).nodes.keys =
      fs.nodes.keys.filter (fun k => S k) ++ fs.nodes.keys.filter fun k => !decide (S k) := by
    rw [AList.keys, List.keys, AList.keys, List.keys, List.filter_map, List.filter_map,
      ← List.map_append]
    rfl
  unfold children
  rw [hkeys, List.filterMap_append]
  set cs := (fs.nodes.keys.filter fun k => S k).filterMap fun k' =>
    if k' ≠ [] ∧ k'.dropLast = k then k'.getLast? else none with hcs
  have hmem : c ∈ cs := by
    refine List.mem_filterMap.mpr ⟨k ++ [c], List.mem_filter.mpr ⟨?_, by simpa using hc⟩, by simp⟩
    rwa [← AList.mem_keys, mem_nodes_iff]
  have honly : ∀ c' ∈ cs, c' = c := by
    intro c' hc'
    obtain ⟨k', hk', hlast⟩ := List.mem_filterMap.mp hc'
    split_ifs at hlast with h
    obtain ⟨ms, rfl⟩ := List.getLast?_eq_some_iff.mp hlast
    obtain rfl : ms = k := by simpa using h.2
    exact hS c' (by simpa using (List.mem_filter.mp hk').2)
  obtain ⟨c', cs', hcs'⟩ := List.exists_cons_of_ne_nil (List.ne_nil_of_mem hmem)
  obtain rfl := honly c' (hcs' ▸ List.mem_cons_self)
  exact ⟨_, by rw [hcs', List.cons_append]⟩

theorem listing_of_first (hw : fs.Way follow p ns) (hne : ns ≠ []) (hn : ns.length ≤ n)
    (hfirst : ∀ as c bs k, ns = as ++ c :: bs → fs.locate (as.foldl join p) = some k →
      ∃ cs, fs.children k = c :: cs) :
    ∃ ds rest, fs.listing follow n p = ds ++ ns.foldl join p :: rest ∧
      ∀ d ∈ ds, fs.isDirectory d := by
  induction ns generalizing p n with
  | nil => exact absurd rfl hne
  | cons c ns ih =>
    obtain ⟨k, hl, hc, hd, hw⟩ := hw
    obtain ⟨cs, hcs⟩ := hfirst [] c ns k rfl hl
    cases n with
    | zero => simp at hn
    | succ n =>
      unfold listing
      simp only [hl, hcs, List.flatMap_cons, List.cons_append]
      by_cases hns : ns = []
      · subst hns
        exact ⟨[], _, rfl, by simp⟩
      · obtain ⟨ds, rest, hlist, hds⟩ := ih hw hns (by simpa using hn) fun as c' bs k' he hk' =>
          hfirst (c :: as) c' bs k' (by rw [he, List.cons_append]) hk'
        rw [if_pos (hd hns), hlist]
        exact ⟨join p c :: ds, _, congrArg (join p c :: ·) (List.append_assoc ..),
          List.forall_mem_cons.mpr ⟨isDirectory_iff.mpr (hw.dir hns), hds⟩⟩

/-- A regular file that the iterator yields is, in some order of enumeration, the first one. -/
theorem exists_first (h0 : 0 ∉ p) (hq : q ∈ fs.recursiveDirectory follow p)
    (hk : fs.locate q = some k) : ∃ fs' q' ds rest, fs.Rearranged fs' ∧
      fs'.recursiveDirectory follow p = ds ++ q' :: rest ∧ (∀ d ∈ ds, fs'.isDirectory d) ∧
      fs.locate q' = some k ∧ filename q' = filename q := by
  classical
  obtain ⟨ns, hne, hn, hw, rfl⟩ := mem_listing.mp hq
  obtain ⟨ms, hms, hne', hlen, hl, hlast, hs⟩ := hw.exists_straight h0 hne hk
  let S : Key → Prop := fun x => ∃ as c bs k, ms = as ++ c :: bs ∧
    fs.locate (as.foldl join p) = some k ∧ x = k ++ [c]
  have hre := rearranged_favouring fs S
  have hfirst : ∀ as c bs k, ms = as ++ c :: bs → (fs.favouring S).locate (as.foldl join p) = some k →
      ∃ cs, (fs.favouring S).children k = c :: cs := by
    intro as c bs k he hk
    rw [hre.alike.locate] at hk
    have hc : fs.lookup (k ++ [c]) ≠ none := by
      obtain ⟨k', hk', hc, -⟩ := (he ▸ hms).drop
      obtain ⟨⟩ := hk.symm.trans hk'
      exact hc
    refine children_favouring ⟨as, c, bs, k, he, hk, rfl⟩ hc ?_
    rintro c' ⟨as', _, bs', k', he', hk', hx⟩
    obtain ⟨rfl, ⟨⟩⟩ := List.append_inj' hx rfl
    rcases List.append_eq_append_iff.mp (he.symm.trans he') with ⟨ls, rfl, hls⟩ | ⟨ls, rfl, hls⟩
    · rcases ls with _ | ⟨l, ls⟩
      · exact (List.cons_eq_cons.mp hls).1.symm
      · exact absurd (hk.trans hk'.symm) (hs _ _ _ (he'.trans (List.append_assoc ..)) (by simp) (by simp))
    · rcases ls with _ | ⟨l, ls⟩
      · exact (List.cons_eq_cons.mp hls).1
      · exact absurd (hk'.trans hk.symm) (hs _ _ _ (he.trans (List.append_assoc ..)) (by simp) (by simp))
  have hdepth : ms.length ≤ (fs.favouring S).maxDepth := by
    rw [hre.maxDepth]
    exact hlen.trans hn
  obtain ⟨ds, rest, hlist, hds⟩ := listing_of_first (hre.way.mpr hms) hne' hdepth hfirst
  refine ⟨_, _, ds, rest, hre, hlist, hds, hl, ?_⟩
  rw [filename_foldl_join (fun n hn => (hms.validName n hn).plain) hne',
    filename_foldl_join (fun n hn => (hw.validName n hn).plain) hne, hlast]

end First

end Xfer.Posix.FileSystem
