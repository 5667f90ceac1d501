import Xfer.Posix.Ways
import Xfer.Transfer.Naming
import Xfer.Transfer.Reference

/-! # Records that can be stored

Records are accepted wherever nothing is in the way of their paths, if each path
leads below the output directory and none runs through another one. Others are
not accepted anywhere.
-/

namespace Xfer.Transfer

open Net Posix FileSystem Process Code

variable {options : ReceiverOptions} {dir rel : Bytes} {fs F : FileSystem} {o : Key}
  {r r' : Record} {rs : List Record}

/-- The receiver accepts the path, which consists of names that files can have. -/
structure Proper (rel : Bytes) : Prop where
  acceptable : Acceptable rel
  joined : rel = joinAll (names rel)
  valid : ∀ n ∈ names rel, ValidName n
  nonempty : names rel ≠ []

theorem Proper.eq (h : Proper rel) {rel' : Bytes} (h' : Proper rel') (he : names rel = names rel') :
    rel = rel' := by
  rw [h.joined, h'.joined, he]

/-- No path runs through another one. -/
def Apart (rels : Bytes → Prop) : Prop :=
  ∀ rel rel', rels rel → rels rel' → names rel <+: names rel' → rel = rel'

theorem acceptable_of_ok {safe : Bytes} (h : validateAndJoin dir rel = .ok safe) : Acceptable rel := by
  obtain ⟨ha, hdd, hb, -⟩ := validateAndJoin_iff.mp h
  exact acceptable_iff.mpr ⟨ha, hdd, hb⟩

theorem Accepted.acceptable (h : Accepted options dir fs rs F) : ∀ r ∈ rs, Acceptable r.path := by
  induction h with
  | nil => simp
  | cons r safe hv _ _ _ ih => exact List.forall_mem_cons.mpr ⟨acceptable_of_ok hv, ih⟩

theorem Accepted.extends (h : Accepted options dir fs rs F) : fs.Extends F := by
  induction h with
  | nil fs => exact .refl fs
  | cons r safe _ ho _ _ ih => exact (ho.extends r.payload).trans ih

theorem Accepted.noLinks (h : Accepted options dir fs rs F) (hl : fs.NoLinks o) : F.NoLinks o := by
  induction h with
  | nil => exact hl
  | cons r safe _ ho _ _ ih => exact ih (noLinks_place_file (ho.grows.noLinks hl) r.payload)

section Below

variable (h : fs.locate dir = some o) (hd : fs.lookup o = some .dir) (h0 : 0 ∉ dir)
  (hl : fs.NoLinks o)
include h hd h0 hl

/-- Records with proper paths that do not run through one another are accepted where there is room
for each of them. -/
theorem exists_accepted (hrs : ∀ r ∈ rs, Proper r.path ∧ fs.Room o (names r.path) ∧ Verified options r)
    (hapart : Apart (∃ r ∈ rs, r.path = ·)) : ∃ F, Accepted options dir fs rs F := by
  induction rs generalizing fs with
  | nil => exact ⟨fs, .nil fs⟩
  | cons r rs ih =>
    obtain ⟨⟨hp, hroom, hv⟩, hrest⟩ := List.forall_mem_cons.mp hrs
    have hpath : r.path = joinAll (names r.path) := hp.joined
    obtain ⟨hloc, hplace, halong⟩ := hroom.opens h hd h0 hl hp.valid hp.nonempty rfl
    rw [← hpath] at hloc hplace halong
    have ho : Opened fs (join dir r.path) _ (o ++ names r.path) := ⟨rfl, hloc, hplace⟩
    have he := ho.extends r.payload
    have hroom' : ∀ r' ∈ rs, Proper r'.path ∧ ((fs.createDirectories (parentPath
        (join dir r.path))).place (o ++ names r.path) (.file r.payload)).Room o (names r'.path) ∧
        Verified options r' := by
      intro r' hr'
      obtain ⟨hp', hroom', hv'⟩ := hrest r' hr'
      have hmem : ∃ r'' ∈ r :: rs, r''.path = r'.path := ⟨r', List.mem_cons_of_mem _ hr', rfl⟩
      have hmem₀ : ∃ r'' ∈ r :: rs, r''.path = r.path := ⟨r, List.mem_cons_self, rfl⟩
      refine ⟨hp', hroom'.place halong hplace hp.nonempty (fun hpre => ?_) (fun hpre => ?_) _, hv'⟩
      · rw [hapart _ _ hmem₀ hmem hpre]
      · rw [hapart _ _ hmem hmem₀ hpre]
    obtain ⟨F, hF⟩ := ih (he.locate h (by simp [hd])) (he.dir hd)
      (noLinks_place_file (ho.grows.noLinks hl) r.payload) hroom' fun rel rel' hr hr' =>
        hapart rel rel' (hr.imp fun _ hr => ⟨List.mem_cons_of_mem _ hr.1, hr.2⟩)
          (hr'.imp fun _ hr => ⟨List.mem_cons_of_mem _ hr.1, hr.2⟩)
    exact ⟨F, .cons r _ (hp.acceptable dir) ho hv hF⟩

/-- An accepted record is in the file that its names lead to. -/
theorem Accepted.locate (hF : Accepted options dir fs rs F) (hr : r ∈ rs) (hp : Proper r.path) :
    F.locate (join dir r.path) = some (o ++ names r.path) ∧
      ∃ b, F.lookup (o ++ names r.path) = some (.file b) := by
  have he := hF.extends
  obtain ⟨k, b, hk, hb⟩ := (hF.stored (.nil dir fs)).targets r hr
  obtain ⟨m, hm⟩ := locate_join_joinAll (he.locate h (by simp [hd])) (he.dir hd) h0
  have hw : F.locate (join dir r.path) = F.walk m o (names r.path) := by
    conv_lhs => rw [hp.joined]
    exact hm _ fun n hn => ⟨(hp.valid n hn).plain, (hp.valid n hn).2.2.2.2⟩
  obtain rfl := walk_validNames (hF.noLinks hl) hp.valid (hw ▸ hk)
  exact ⟨hk, b, hb⟩

omit hl in
theorem Accepted.ne_dot (hF : Accepted options dir fs rs F) (hr : r ∈ rs) : r.path ≠ dot := by
  intro hdot
  have he := hF.extends
  obtain ⟨k, b, hk, hb⟩ := (hF.stored (.nil dir fs)).targets r hr
  obtain ⟨m, hm⟩ := locate_join_joinAll (he.locate h (by simp [hd])) (he.dir hd) h0
  have hjoin : r.path = joinAll [dot] := hdot
  rw [hjoin, hm _ (by decide), walk_dot (he.dir hd), walk_nil, Option.some.injEq] at hk
  rw [← hk, he.dir hd] at hb
  cases hb

theorem Accepted.apart (hF : Accepted options dir fs rs F) (hp : ∀ r ∈ rs, Proper r.path) :
    Apart (∃ r ∈ rs, r.path = ·) := by
  rintro _ _ ⟨r, hr, rfl⟩ ⟨r', hr', rfl⟩ hpre
  obtain ⟨-, b, hb⟩ := hF.locate h hd h0 hl hr (hp r hr)
  obtain ⟨-, b', hb'⟩ := hF.locate h hd h0 hl hr' (hp r' hr')
  refine (hp r hr).eq (hp r' hr') ?_
  obtain ⟨ns, hns⟩ := hpre
  by_cases hnil : ns = []
  · rw [← hns, hnil, List.append_nil]
  · rw [← hns, ← List.append_assoc] at hb'
    rw [lookup_dir_of_append (by rw [hb']; simp) hnil] at hb
    cases hb

end Below

end Xfer.Transfer
