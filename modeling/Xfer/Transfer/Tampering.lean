import Xfer.Common.Distance
import Xfer.Posix.Between
import Xfer.Transfer.Damage

/-! # Payloads that pass for others

What a receiver makes of the other records of a session does not depend on the
payload of one of them. So a session in which a payload has been replaced is
accepted, where the genuine one is, exactly if the payload passes under the old
checksum: if that is zero, or for a choice of four bytes that is always there.
-/

namespace Xfer.Transfer

open Net Common Posix FileSystem Process Code

variable {options : ReceiverOptions} {dir safe : Bytes} {fs fs' : FileSystem} {r r' : Record}
  {rs : List Record} {s : Refs} {host : Host} {out : Bytes}

theorem createDirectories_alike (h : fs.Alike fs') (p : Bytes) :
    (fs.createDirectories p).Alike (fs'.createDirectories p) := by
  have hb : fs.Between (fs.createDirectories p) fs' :=
    ⟨h.toExtends, h.symm.toExtends.trans (mkdirs_grows fs _).extends⟩
  exact (hb.mkdirs (.refl _) (Or.inr (.refl _))).alike

theorem openTarget_alike (h : fs.Alike fs') (safe : Bytes) :
    (openTarget fs safe).1.Alike (openTarget fs' safe).1 ∧
      (openTarget fs' safe).2 = (openTarget fs safe).2 := by
  have hd := createDirectories_alike h (parentPath safe)
  refine ⟨hd, ?_⟩
  unfold openTarget
  simp only [hd.locate safe]
  congr 1
  funext k
  rw [decide_eq_decide]
  exact hd.canPlace_iff

theorem store_alike (h : fs.Alike fs') (hp : r'.path = r.path)
    (hr : (store options dir fs r).2 = true) :
    (store options dir fs r).1.Alike (store options dir fs' r').1 ∧
      (store options dir fs' r').2 = passes (expectedCrc options r'.crc) r'.payload := by
  unfold store at hr ⊢
  rw [hp]
  cases hv : validateAndJoin dir r.path with
  | error er => simp [hv] at hr
  | ok safe =>
    simp only [hv] at hr ⊢
    obtain ⟨hd, hk⟩ := openTarget_alike h safe
    rcases ho : openTarget fs safe with ⟨fs₁, _ | k⟩
    · simp [ho] at hr
    · rcases ho' : openTarget fs' safe with ⟨fs₁', k'⟩
      rw [ho, ho'] at hd hk
      obtain rfl : k' = some k := hk
      obtain ⟨rfl, hk⟩ := Prod.mk.inj ho
      obtain ⟨hl, hp⟩ := Option.filter_eq_some_iff.mp hk
      have hp := of_decide_eq_true hp
      have hs := not_symlink_of_locate hl
      have hs' := not_symlink_of_locate (hd.locate safe ▸ hl)
      refine ⟨(hd.toExtends.place_file (hd.canPlace_iff.mpr hp) hs' _ _).alike ?_, rfl⟩
      exact hd.symm.toExtends.place_file hp hs _ _

theorem store_again (h : fs.Alike fs') (hr : (store options dir fs r).2 = true) :
    (store options dir fs r).1.Alike (store options dir fs' r).1 ∧
      (store options dir fs' r).2 = true := by
  obtain ⟨hd, hok⟩ := store_alike h rfl hr
  exact ⟨hd, hok.trans ((store_alike (.refl fs) rfl hr).2.symm.trans hr)⟩

theorem storeAll_cons_ok (hok : (storeAll options dir fs (r :: rs)).2 = true) :
    (store options dir fs r).2 = true ∧
      (storeAll options dir (store options dir fs r).1 rs).2 = true := by
  rw [storeAll_cons] at hok
  rcases hs : store options dir fs r with ⟨T, _ | _⟩
  · rw [hs] at hok
    cases hok
  · rw [hs] at hok
    exact ⟨rfl, hok⟩

theorem storeAll_cons_of_ok (hr : (store options dir fs r).2 = true) :
    storeAll options dir fs (r :: rs) = storeAll options dir (store options dir fs r).1 rs := by
  rw [storeAll_cons]
  rcases hs : store options dir fs r with ⟨T, _ | _⟩
  · rw [hs] at hr
    cases hr
  · rfl

theorem storeAll_again (h : fs.Alike fs') (hok : (storeAll options dir fs rs).2 = true) :
    (storeAll options dir fs' rs).2 = true := by
  induction rs generalizing fs fs' with
  | nil => rfl
  | cons r rs ih =>
    obtain ⟨hr, hrs⟩ := storeAll_cons_ok hok
    obtain ⟨hd, hr'⟩ := store_again h hr
    rw [storeAll_cons_of_ok hr']
    exact ih hd hrs

/-- Where all records can be stored, another one in the place of one of them decides alone. -/
theorem storeAll_replaced {pre : List Record} (h : fs.Alike fs') (hp : r'.path = r.path)
    (hok : (storeAll options dir fs (pre ++ r :: rs)).2 = true) :
    (storeAll options dir fs' (pre ++ r' :: rs)).2 =
      passes (expectedCrc options r'.crc) r'.payload := by
  induction pre generalizing fs fs' with
  | nil =>
    obtain ⟨hr, hrs⟩ := storeAll_cons_ok hok
    obtain ⟨hd, hr'⟩ := store_alike h hp hr
    rw [← hr', List.nil_append]
    cases hs : (store options dir fs' r').2 with
    | false =>
      rw [storeAll_cons]
      rcases hs' : store options dir fs' r' with ⟨T, ok⟩
      rw [hs'] at hs
      obtain rfl : ok = false := hs
      rfl
    | true =>
      rw [storeAll_cons_of_ok hs]
      exact storeAll_again hd hrs
  | cons q pre ih =>
    obtain ⟨hq, hrest⟩ := storeAll_cons_ok hok
    obtain ⟨hd, hq'⟩ := store_again h hq
    rw [List.cons_append, storeAll_cons_of_ok hq']
    exact ih hd hrest

theorem SentSession.records_split (d : SentSession) (i : Fin d.records.length) :
    d.records.map (·.toRecord) = (d.records.take i).map (·.toRecord) ++
      (d.records.get i).toRecord :: (d.records.drop (i + 1)).map (·.toRecord) := by
  conv_lhs => rw [← List.take_append_drop i d.records, List.drop_eq_getElem_cons i.2]
  rw [List.map_append, List.map_cons]
  rfl

/-- A receiver without faults accepts a session in which a payload has been replaced, where it
accepts the genuine one, exactly if the payload passes under the old checksum. -/
theorem always_receiveStream_damaged (d : SentSession) (i : Fin d.records.length) :
    Always .none (receiveStream options) s ⟨host, d.stream, out⟩ fun ok _ _ => ok = true → ∀ p,
      Always .none (receiveStream options) s ⟨host, d.damaged i p, out⟩ fun ok' _ _ =>
        ok' = passes (expectedCrc options (Crc32.compute (d.records.get i).payload)) p.payload := by
  generalize hpre : (d.records.take i).map (·.toRecord) = pre
  generalize hpost : (d.records.drop (i + 1)).map (·.toRecord) = post
  have hsplit : d.records.map (·.toRecord) = pre ++ (d.records.get i).toRecord :: post := by
    rw [d.records_split i, hpre, hpost]
  have hnamed : ∀ r ∈ d.records.map (·.toRecord), r.path ≠ [] := by
    intro r hr
    obtain ⟨r', -, rfl⟩ := List.mem_map.mp hr
    exact r'.named
  have hgenuine : d.stream = encodeSessionHeader d.header ++
      ((pre ++ (d.records.get i).toRecord :: post).flatMap Record.encode ++ encodeDone) := by
    rw [← hsplit, List.flatMap_map]
    rfl
  have hdamaged : ∀ p, d.damaged i p = encodeSessionHeader d.header ++
      ((pre ++ p.apply :: post).flatMap Record.encode ++ encodeDone) := by
    intro p
    rw [SentSession.damaged, ← hpre, ← hpost, List.flatMap_append, List.flatMap_cons,
      List.flatMap_map, List.flatMap_map]
    simp only [List.append_assoc]
  have hcount : ∀ r, (pre ++ r :: post).length = d.header.totalFiles.toNat := by
    intro r
    have hlen := congrArg List.length hsplit
    rw [List.length_map, List.length_append, List.length_cons] at hlen
    rw [d.totalFiles_header, hlen, List.length_append, List.length_cons]
  have hnamed' : ∀ p : Replacement (d.records.get i).toRecord, ∀ r ∈ pre ++ p.apply :: post,
      r.path ≠ [] := by
    intro p r hr
    rw [hsplit] at hnamed
    rcases List.mem_append.mp hr with hr | hr
    · exact hnamed r (List.mem_append_left _ hr)
    · rcases List.mem_cons.mp hr with rfl | hr
      · exact hnamed (d.records.get i).toRecord (List.mem_append_right _ List.mem_cons_self)
      · exact hnamed r (List.mem_append_right _ (List.mem_cons_of_mem _ hr))
  apply wp_mono (always_receiveStream_deliver id id id hgenuine (hcount _) (hsplit ▸ hnamed))
  rintro ok s' w' ⟨hdel, -⟩ hok p
  apply wp_mono (always_receiveStream_deliver id id id (hdamaged p) (hcount _) (hnamed' p))
  rintro ok' s'' w'' ⟨hdel', -⟩
  change deliver options host.fs (pre ++ (d.records.get i).toRecord :: post) = _ at hdel
  change deliver options host.fs (pre ++ p.apply :: post) = _ at hdel'
  unfold deliver at hdel hdel'
  by_cases hd : (prepareOutput options host.fs).isDirectory (outputDir options host.fs)
  · simp only [if_pos hd] at hdel hdel'
    have hcrc : p.apply.crc = Crc32.compute (d.records.get i).payload := (d.records.get i).genuine
    have hpass := storeAll_replaced (.refl _) (show p.apply.path = (d.records.get i).path from rfl)
      ((congrArg Prod.snd hdel).trans hok)
    rw [hdel', hcrc] at hpass
    exact hpass
  · simp only [if_neg hd] at hdel
    rw [← (Prod.mk.inj hdel).2] at hok
    cases hok

/-- The payload with some of its bits flipped. -/
def flipped {r : Record} (e : Bytes) (h : r.payload.length = e.length) : Replacement r where
  payload := flipBits r.payload e
  same_length := by rw [flipBits, List.length_zipWith, ← h, Nat.min_self]

/-- Two bits flipped in a payload are accepted, where the payload is, exactly if its checksum is
zero or their distance is a multiple of 2³¹ - 1. -/
theorem two_flips_accepted_iff (options : ReceiverOptions) (hv : options.verifyCrc = true)
    (s : Refs) (host : Host) (out : Bytes) (d : SentSession) (i : Fin d.records.length) (e : Bytes)
    (hl : (d.records.get i).payload.length = e.length) {j k : ℕ} (h : TwoSet (messageBits e) j k) :
    Always .none (receiveStream options) s ⟨host, d.stream, out⟩ fun ok _ _ => ok = true →
      Always .none (receiveStream options) s ⟨host, d.damaged i (flipped e hl), out⟩ fun ok' _ _ =>
        ok' = true ↔ Crc32.compute (d.records.get i).payload = 0 ∨ 2 ^ 31 - 1 ∣ k - j := by
  apply wp_mono (always_receiveStream_damaged d i)
  intro ok _ _ hall hok
  apply wp_mono (hall hok (flipped e hl))
  rintro ok' _ _ rfl
  rw [← compute_flip_two_iff hl h]
  simp only [passes, expectedCrc, hv, if_true, decide_eq_true_eq]
  rfl

theorem twoSet_three : TwoSet (messageBits [0x03]) 0 1 := by
  refine ⟨Nat.zero_lt_one, fun n => ?_⟩
  have hbits : messageBits [0x03] = true :: true :: List.replicate 6 false := by decide
  rw [hbits]
  rcases n with _ | _ | n
  · simp
  · simp
  · rw [List.getElem?_cons_succ, List.getElem?_cons_succ]
    refine iff_of_false (fun hn => ?_) (by omega)
    cases List.eq_of_mem_replicate (List.mem_of_getElem? hn)

theorem adjacent_flips_refused :
    Always .none (receiveStream { outputDir := rootName }) {}
      ⟨⟨.empty, none⟩, (oneFile sampleRecord).stream, []⟩ fun ok _ _ => ok = true →
        Always .none (receiveStream { outputDir := rootName }) {}
          ⟨⟨.empty, none⟩, (oneFile sampleRecord).damaged ⟨0, Nat.one_pos⟩ (flipped [0x03] rfl), []⟩
          fun ok' _ _ => ok' = true ↔ Crc32.compute [0x62] = 0 ∨ 2 ^ 31 - 1 ∣ 1 - 0 :=
  two_flips_accepted_iff { outputDir := rootName } rfl {} ⟨.empty, none⟩ [] (oneFile sampleRecord)
    ⟨0, Nat.one_pos⟩ [0x03] rfl twoSet_three

/-- Wherever four bytes of a payload can be chosen freely, there is exactly one choice that passes
for it, unless every one does. -/
theorem existsUnique_accepted (options : ReceiverOptions) (hv : options.verifyCrc = true)
    (s : Refs) (host : Host) (out : Bytes) (d : SentSession) (i : Fin d.records.length)
    (h0 : Crc32.compute (d.records.get i).payload ≠ 0) (a b : Bytes)
    (hl : a.length + (4 + b.length) = (d.records.get i).payload.length) :
    Always .none (receiveStream options) s ⟨host, d.stream, out⟩ fun ok _ _ => ok = true →
      ∃! t : Bytes, ∃ p : Replacement (d.records.get i).toRecord, t.length = 4 ∧
        p.payload = a ++ (t ++ b) ∧
        Always .none (receiveStream options) s ⟨host, d.damaged i p, out⟩ fun ok' _ _ =>
          ok' = true := by
  have hpass : ∀ {m : Bytes}, passes (expectedCrc options (Crc32.compute (d.records.get i).payload)) m =
      true ↔ Crc32.compute m = Crc32.compute (d.records.get i).payload := by
    intro m
    simp only [passes, expectedCrc, hv, if_true, decide_eq_true_eq, h0, false_or]
  apply wp_mono (always_receiveStream_damaged d i)
  intro ok _ _ hall hok
  obtain ⟨t, ⟨ht, htc⟩, hunique⟩ := existsUnique_window a b (Crc32.compute (d.records.get i).payload)
  have hlen : (a ++ (t ++ b)).length = (d.records.get i).payload.length := by
    rw [List.length_append, List.length_append, ht, hl]
  refine ⟨t, ⟨⟨a ++ (t ++ b), hlen⟩, ht, rfl, ?_⟩, ?_⟩
  · apply wp_mono (hall hok _)
    rintro ok' _ _ rfl
    exact hpass.mpr htc
  · rintro t' ⟨p, ht', hp, haccepted⟩
    obtain ⟨ok', _, _, rfl, hok'⟩ := ((hall hok p).and haccepted).exists
    exact hunique t' ⟨ht', hp ▸ hpass.mp hok'⟩

/-- A record with four bytes. -/
def wordRecord : SentRecord :=
  ⟨⟨[0x62], Crc32.compute [0x01, 0x02, 0x03, 0x04], [0x01, 0x02, 0x03, 0x04], by decide, by decide⟩,
    by decide, rfl⟩

theorem existsUnique_accepted_word :
    Always .none (receiveStream { outputDir := rootName }) {}
      ⟨⟨.empty, none⟩, (oneFile wordRecord).stream, []⟩ fun ok _ _ => ok = true →
        ∃! t : Bytes, ∃ p : Replacement ((oneFile wordRecord).records.get ⟨0, Nat.one_pos⟩).toRecord, t.length = 4 ∧
          p.payload = [] ++ (t ++ []) ∧
          Always .none (receiveStream { outputDir := rootName }) {}
            ⟨⟨.empty, none⟩, (oneFile wordRecord).damaged ⟨0, Nat.one_pos⟩ p, []⟩
            fun ok' _ _ => ok' = true :=
  existsUnique_accepted { outputDir := rootName } rfl {} ⟨.empty, none⟩ [] (oneFile wordRecord)
    ⟨0, Nat.one_pos⟩ (by rw [Crc32.compute_eq]; decide +kernel) [] [] rfl

end Xfer.Transfer
