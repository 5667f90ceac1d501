import Xfer.Transfer.Damage
import Xfer.Transfer.Emission

/-! # Sessions that fall short

A sender that cannot deliver one of its entries stops before the end of its
records, whatever else goes wrong on the way.
-/

namespace Xfer.Transfer

open Net Common Posix Process Code FileSystem

variable {f : Faults} {sock : Socket} {signals : ℕ} {s s' : Refs} {w w' : Side}
  {paths : List Bytes} {options : SenderOptions} {fs : FileSystem} {e : FileEntry}
  {es : List FileEntry} {r : Record} {sent : Bytes} {n : ℕ}

/-- The bytes are a part of `n` records, but not all of them. -/
def Lacking (n : ℕ) (sent : Bytes) : Prop :=
  ∃ rs : List Record, rs.length = n ∧ (∀ r ∈ rs, r.path ≠ []) ∧
    ∃ t, t ≠ [] ∧ sent ++ t = rs.flatMap Record.encode

theorem Record.encode_ne_nil (r : Record) : r.encode ≠ [] := by
  intro h
  have := congrArg List.length h
  rw [r.length_encode, List.length_nil] at this
  omega

theorem Lacking.after (hr : r.path ≠ []) (h : Lacking n sent) : Lacking (n + 1) (r.encode ++ sent) := by
  obtain ⟨rs, rfl, hrs, t, ht, he⟩ := h
  refine ⟨r :: rs, rfl, List.forall_mem_cons.mpr ⟨hr, hrs⟩, t, ht, ?_⟩
  rw [List.append_assoc, he, List.flatMap_cons]

theorem lacking_nil (n : ℕ) : Lacking (n + 1) [] := by
  refine ⟨List.replicate (n + 1) (.small 0x61 0 0), List.length_replicate, fun r hr => ?_,
    _, ?_, List.nil_append _⟩
  · rw [List.eq_of_mem_replicate hr]
    exact List.cons_ne_nil _ _
  · rw [List.replicate_succ, List.flatMap_cons]
    exact fun h => Record.encode_ne_nil _ (List.append_eq_nil_iff.mp h).1

theorem lacking_of_prefix (hr : r.path ≠ []) (h : sent <+: r.encode) (hn : sent = r.encode → n ≠ 0) :
    Lacking (n + 1) sent := by
  obtain ⟨t, ht⟩ := h
  cases n with
  | zero =>
    refine ⟨[r], rfl, by simpa using hr, t, ?_, by rw [ht, List.flatMap_singleton]⟩
    rintro rfl
    exact hn ((List.append_nil _).symm.trans ht) rfl
  | succ n =>
    obtain ⟨rs, hl, hrs, t', ht', he⟩ := (lacking_nil n).after hr
    refine ⟨rs, hl, hrs, t ++ t', ?_, ?_⟩
    · exact fun h => ht' (List.append_eq_nil_iff.mp h).2
    · rw [← List.append_assoc, ht, ← he, List.append_nil]

theorem length_payload_le {k : Key} {size : UInt64} {b : Bytes} (h : payload fs k size = some b) :
    b.length ≤ size.toNat := by
  unfold payload at h
  split at h
  · obtain rfl := Option.some.inj h
    exact Nat.zero_le _
  · split at h
    · obtain rfl := Option.some.inj h
      exact List.length_take_le _ _
    · cases h

theorem lacking_offered (hne : e.relPath ≠ []) (hread : readBack fs paths e ≠ none)
    (hno : ∀ r, ¬ Sends fs paths e r) (h : sent <+: offered fs paths e) (n : ℕ) :
    Lacking (n + 1) sent := by
  unfold offered at h
  split at h
  · rename_i hfit
    obtain ⟨b, hb⟩ := Option.ne_none_iff_exists'.mp hread
    rw [hb, Option.getD_some] at h
    have hle : b.length ≤ e.size.toNat := by
      obtain ⟨k, -, hk⟩ := Option.bind_eq_some_iff.mp hb
      exact length_payload_le hk
    have hshort : b.length ≠ e.size.toNat := fun hl => by
      obtain ⟨r, hr, -⟩ := exists_sends hb hl hfit
      exact hno r hr
    -- what is missing of the payload
    let rest : Bytes := List.replicate (e.size.toNat - b.length) 0
    have hlen : (b ++ rest).length = e.size.toNat := by
      rw [List.length_append, List.length_replicate]
      omega
    let r : Record := ⟨e.relPath, e.crc32, b ++ rest, hfit, hlen ▸ e.size.toNat_lt⟩
    have hent : r.entry = e := by
      rw [Record.entry, hlen, UInt64.ofNat_toNat]
    have henc : r.encode = encodeFileHeader e ++ b ++ rest := by
      rw [Record.encode, hent, List.append_assoc]
    refine lacking_of_prefix (r := r) hne (henc ▸ h.trans (List.prefix_append _ _)) fun he => ?_
    have hl := h.length_le
    rw [he, henc, List.length_append, List.length_replicate] at hl
    omega
  · rw [List.prefix_nil.mp h]
    exact lacking_nil n

theorem always_sendRecords_lacking (hs : Addressable w.host.fs) (hne : ∀ e ∈ es, e.relPath ≠ [])
    (hread : ∀ e ∈ es, readBack w.host.fs paths e ≠ none)
    (hno : ∃ e ∈ es, ∀ r, ¬ Sends w.host.fs paths e r) :
    Always f (sendRecords sock signals paths options es) s w fun ok _ w' =>
      ok = false ∧ ∃ sent, Lacking es.length sent ∧ w' = w.sent sent := by
  induction es generalizing s w with
  | nil =>
    obtain ⟨e, he, -⟩ := hno
    cases he
  | cons e es ih =>
    obtain ⟨hne₁, hne⟩ := List.forall_mem_cons.mp hne
    obtain ⟨hread₁, hread⟩ := List.forall_mem_cons.mp hread
    unfold sendRecords
    rw [Always, wp_bind]
    apply wp_mono (always_sendRecord hs)
    rintro _ t _ (⟨rfl, r, hr, rfl⟩ | ⟨rfl, ⟨sent, hsent, rfl⟩, -⟩)
    · simp only [Bool.not_true, Bool.false_eq_true, if_false]
      have hrest : ∃ e ∈ es, ∀ r, ¬ Sends w.host.fs paths e r := by
        obtain ⟨e', he', hno'⟩ := hno
        rcases List.mem_cons.mp he' with rfl | he'
        · exact absurd hr (hno' r)
        · exact ⟨e', he', hno'⟩
      apply wp_mono (ih (w := w.sent r.encode) hs hne hread hrest)
      rintro _ t _ ⟨rfl, sent, hsent, rfl⟩
      have hnamed : r.path ≠ [] := by
        rw [← r.relPath_entry, hr.entry]
        exact hne₁
      exact ⟨rfl, _, hsent.after hnamed, World.sent_sent ..⟩
    · refine ⟨rfl, sent, ?_, rfl⟩
      by_cases hdel : ∃ r, Sends w.host.fs paths e r
      · obtain ⟨r, hr⟩ := hdel
        have hnamed : r.path ≠ [] := by
          rw [← r.relPath_entry, hr.entry]
          exact hne₁
        refine lacking_of_prefix hnamed (hr.offered ▸ hsent) fun _ h0 => ?_
        -- the entry that cannot be delivered comes later
        obtain rfl := List.length_eq_zero_iff.mp h0
        obtain ⟨e', he', hno'⟩ := hno
        obtain rfl := List.mem_singleton.mp he'
        exact hno' r hr
      · exact lacking_offered hne₁ hread₁ (not_exists.mp hdel) hsent es.length

theorem Lacking.interrupted (hl : es.length < 2 ^ 64) (h : Lacking es.length sent) :
    Interrupted (encodeSessionHeader (sessionHeader es) ++ sent) := by
  obtain ⟨rs, hn, hrs, t, ht, he⟩ := h
  refine ⟨sessionHeader es, rs, ?_, hrs, t, ht, by rw [List.append_assoc, he]⟩
  rw [hn, sessionHeader]
  exact UInt64.toNat_ofNat_of_lt' hl

theorem interrupted_of_prefix (hl : es.length < 2 ^ 64) (hne : es ≠ [])
    (h : sent <+: encodeSessionHeader (sessionHeader es)) : Interrupted sent := by
  obtain ⟨n, hn⟩ := Nat.exists_eq_succ_of_ne_zero fun h0 => hne (List.length_eq_zero_iff.mp h0)
  have hnil : Lacking es.length [] := hn ▸ lacking_nil n
  obtain ⟨header, rs, hlen, hrs, t, ht, he⟩ := hnil.interrupted hl
  obtain ⟨t', ht'⟩ := h
  refine ⟨header, rs, hlen, hrs, t' ++ t, fun h => ht (List.append_eq_nil_iff.mp h).2, ?_⟩
  rw [← List.append_assoc, ht', ← he, List.append_nil]

theorem ReadOutcome.outgoing {α : Type} {len : ℕ} {parse : Bytes → Option α} {a : Option α}
    (h : ReadOutcome f len parse s w a s' w') : w'.outgoing = w.outgoing ∧ w'.host = w.host := by
  cases h with
  | lost hl => cases hl <;> exact ⟨rfl, rfl⟩
  | _ => exact ⟨rfl, rfl⟩

/-- It fails, and what it has sent by then is no session. -/
def Falters (w : Side) (ok : Bool) (w' : Side) : Prop :=
  ok = false ∧ ∃ sent, Interrupted sent ∧ w'.outgoing = w.outgoing ++ sent

theorem always_sendManifest_falters (hs : Addressable w.host.fs) (hl : es.length < 2 ^ 64)
    (hne : ∀ e ∈ es, e.relPath ≠ []) (hread : ∀ e ∈ es, readBack w.host.fs paths e ≠ none)
    (hno : ∃ e ∈ es, ∀ r, ¬ Sends w.host.fs paths e r) :
    Always f (sendManifest sock signals paths options es) s w fun ok _ w' => Falters w ok w' := by
  have hes : es ≠ [] := by
    rintro rfl
    obtain ⟨e, he, -⟩ := hno
    cases he
  unfold sendManifest
  rw [Always, wp_bind]
  apply wp_mono (wp_sendAll (by simp) fun _ _ _ _ => trivial)
  rintro _ t _ (_ | ⟨ec, sent, hsent, -, -⟩)
  · simp only [Bool.not_true, Bool.false_eq_true, if_false, wp_bind]
    apply wp_mono (wp_readAck fun _ _ _ _ => trivial)
    intro r t w₁ hr
    obtain ⟨hout, hhost⟩ := hr.outgoing
    cases r with
    | none => exact ⟨rfl, _, interrupted_of_prefix hl hes List.prefix_rfl, hout⟩
    | some v =>
      simp only [startProgress, wp_bind, wp_modify]
      have hhost : w₁.host = w.host := hhost
      rw [← hhost] at hs hread hno
      apply wp_mono (always_sendRecords_lacking hs hne hread hno)
      rintro _ u _ ⟨rfl, sent, hsent, rfl⟩
      refine ⟨rfl, _, hsent.interrupted hl, ?_⟩
      rw [World.outgoing_sent, hout, World.outgoing_sent, List.append_assoc]
  · exact ⟨rfl, sent, interrupted_of_prefix hl hes hsent, rfl⟩

/-- With an item that cannot be delivered in its manifest, the sender sends less than it has
announced. -/
theorem always_sendPaths_falters {std : StdSort} {items : List Collected} (hf : ¬ f.scan)
    (hs : Addressable w.host.fs) (h0 : s.ec = none) (hsel : selected std w.host.fs options paths = some items)
    (hl : items.length < 2 ^ 64) (hno : ∃ c ∈ items, ∀ r, ¬ Emits w.host.fs paths c r) :
    Always f (sendPaths std sock signals paths options) s w fun ok _ w' => Falters w ok w' := by
  have hitems : items ≠ [] := by
    rintro rfl
    obtain ⟨c, hc, -⟩ := hno
    cases hc
  have hne : items.map Collected.entry ≠ [] := by simpa using hitems
  have hnamed : ∀ e ∈ items.map Collected.entry, e.relPath ≠ [] :=
    List.forall_mem_map.mpr (relPath_ne_nil hsel)
  unfold sendPaths
  rw [Always, wp_bind]
  apply wp_mono (always_collectFiles hf)
  rintro es t w ⟨rfl, rfl, hec⟩
  have hman : manifestOf (selected std w.host.fs options paths) = items.map Collected.entry := by
    rw [hsel]
    rfl
  obtain rfl := hec (by simp [hsel])
  rw [hman, if_neg hne, wp_bind]
  apply wp_mono (always_computeCrcs hs h0 _)
  rintro r t w₁ ⟨rfl, ⟨es, rfl, hes, rfl⟩ | ⟨rfl, -, -⟩⟩
  · have hlen : es.length = items.length := by rw [← hes.length_eq, List.length_map]
    have hfrom : ∀ e' ∈ es, ∃ e ∈ items.map Collected.entry, summed w₁.host.fs paths e e' := fun _ =>
      exists_of_mem_forall₂ hes
    refine always_sendManifest_falters hs (hlen ▸ hl) ?_ ?_ ?_
    · intro e' he'
      obtain ⟨e, he, p, -, rfl⟩ := hfrom e' he'
      exact hnamed e he
    · intro e' he' hnone
      obtain ⟨e, -, p, hp, rfl⟩ := hfrom e' he'
      rw [show readBack w₁.host.fs paths e = none from hnone] at hp
      cases hp
    · obtain ⟨c, hc, hno⟩ := hno
      obtain ⟨e', he', hsum⟩ := mem_of_forall₂ (List.forall₂_map_left_iff.mp hes) hc
      refine ⟨e', he', fun r hr => ?_⟩
      obtain ⟨r', hr', -⟩ := emits_of_sends (relPath_ne_nil hsel c hc) hsum hr
      exact hno r' hr'
  · have hlen : (items.map Collected.entry).length < 2 ^ 64 := by simpa using hl
    exact ⟨rfl, [], interrupted_of_prefix hlen hne List.nil_prefix, (List.append_nil _).symm⟩

end Xfer.Transfer
