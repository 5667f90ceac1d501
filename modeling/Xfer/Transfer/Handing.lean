import Xfer.Net.Watching
import Xfer.Transfer.Codec
import Xfer.Transfer.Phases

/-! # What the sender hands to the socket

Next to any peer, and with files that others change at any time, each function
of the sender hands over all the bytes that it is there for and leaves the error
code alone, or a part of them and fails for a reason.
-/

namespace Xfer.Transfer

open Net Common Posix Process Code

variable {f : Faults} {short : Prop} {M : Machine Call.Result Book} {G : Book → Call → Prop}
  {s s' t : Refs} {w w' w₁ : Book} {D F D₁ F₁ : Bytes → Prop} {k : Fd} {offset remaining size : UInt64}
  {e : FileEntry} {es : List FileEntry}

/-- Steps that a party can make next to any peer; with bytes already sent, a file ends before it
has been read only if `short`. -/
structure Steps (f : Faults) (short : Prop) (M : Machine Call.Result Book) : Prop where
  observed : Observed f M
  ends : ∀ {w k want offset r w'}, M w (.pread k want offset) (.ok r) w' → w.sent ≠ [] →
    r.1 = [] → short

/-- Bytes in `D` are handed over, or a part of some in `F`. -/
inductive Handing (f : Faults) (short : Prop) (D F : Bytes → Prop) (s : Refs) (w : Book) :
    Bool → Refs → Book → Prop
  | done (bs : Bytes) {s' : Refs} {w' : Book} : D bs → s'.ec = s.ec → w'.sent = w.sent ++ bs →
      Handing f short D F s w true s' w'
  | failed (bs rest : Bytes) {s' : Refs} {w' : Book} : F (bs ++ rest) →
      f.stall ∨ s'.ec ≠ none ∨ short → w'.sent = w.sent ++ bs → Handing f short D F s w false s' w'

theorem Handing.after {bs : Bytes} {ok : Bool} (h : Handing f short D₁ F₁ t w₁ ok s' w')
    (hec : t.ec = s.ec) (hw : w₁.sent = w.sent ++ bs) (hD : ∀ cs, D₁ cs → D (bs ++ cs))
    (hF : ∀ cs, F₁ cs → F (bs ++ cs)) : Handing f short D F s w ok s' w' := by
  cases h with
  | done cs hd he hs => exact .done (bs ++ cs) (hD cs hd) (he.trans hec) (by rw [hs, hw, List.append_assoc])
  | failed cs rest hf he hs =>
    refine .failed (bs ++ cs) rest ?_ he (by rw [hs, hw, List.append_assoc])
    rw [List.append_assoc]
    exact hF _ hf

theorem Handing.mono {ok : Bool} (h : Handing f short D₁ F₁ s w ok s' w')
    (hD : ∀ bs, D₁ bs → D bs) (hF : ∀ bs, F₁ bs → F bs) : Handing f short D F s w ok s' w' := by
  cases h with
  | done bs hd he hs => exact .done bs (hD bs hd) he hs
  | failed bs rest hf he hs => exact .failed bs rest (hF _ hf) he hs

theorem Handing.congr {ok : Bool} (h : Handing f short D F t w₁ ok s' w') (hec : t.ec = s.ec)
    (hw : w₁.sent = w.sent) : Handing f short D F s w ok s' w' := by
  refine h.after hec (by rw [hw, List.append_nil]) ?_ ?_
  · exact fun _ h => h
  · exact fun _ h => h

theorem Handing.level {ok : Bool} (h : Handing f short D F s w ok s' w₁)
    (hw : w'.sent = w₁.sent) : Handing f short D F s w ok s' w' := by
  cases h with
  | done bs hd he hs => exact .done bs hd he (hw.trans hs)
  | failed bs rest hf he hs => exact .failed bs rest hf he (hw.trans hs)

theorem Handing.cut (h : Handing f short D₁ F₁ s w false s' w')
    (hF : ∀ cs, F₁ cs → ∃ ds, F (cs ++ ds)) : Handing f short D F s w false s' w' := by
  cases h with
  | failed bs rest hf he hs =>
    obtain ⟨ds, hds⟩ := hF _ hf
    exact .failed bs (rest ++ ds) (by rwa [← List.append_assoc]) he hs

/-- One function after the other, unless the first one fails. -/
theorem Handing.andThen {x y : Session Bool} (hx : wp M G x t w₁ (Handing f short D₁ F₁ s w))
    (hy : ∀ bs u w₂, D₁ bs → u.ec = s.ec → w₂.sent = w.sent ++ bs →
      wp M G y u w₂ (Handing f short D F s w))
    (hF : ∀ cs, F₁ cs → ∃ ds, F (cs ++ ds)) :
    wp M G (do if !(← x) then pure false else y) t w₁ (Handing f short D F s w) := by
  rw [wp_bind]
  refine wp_mono hx fun ok u w₂ h => ?_
  cases ok with
  | true =>
    cases h with
    | done bs hd he hs => exact hy bs u w₂ hd he hs
  | false => exact h.cut hF

theorem Only.sent (hM : Observed f M) {α : Type} {x : Session α} {Q : α → Refs → Book → Prop}
    (hx : Only NoWrite x) (h : Ends M x s w Q) :
    Ends M x s w fun a s' w' => Q a s' w' ∧ w'.sent = w.sent :=
  hx.keep h rfl (fun hi hc hm => (sent_of_not_writes hM hm hc).trans hi) fun _ _ => trivial

theorem handing_sendAll (hM : Observed f M) {data : Bytes} (hl : data.length < 2 ^ 31) :
    Ends M (sendAll data) s w (Handing f short (· = data) (· = data) s w) := by
  refine wp_mono (wp_sendAll_watched hM hl fun _ _ _ _ _ _ => trivial) ?_
  rintro _ _ w' (h | ⟨e, sent, ⟨rest, hr⟩, he, h⟩)
  · exact .done data rfl rfl h.2
  · exact .failed sent rest hr (he.imp_right Or.inl) h.2

theorem handing_writeFileHeader (hM : Observed f M) (hl : e.relPath.length ≤ 0xFFFF) :
    Ends M (writeFileHeader e) s w
      (Handing f short (· = encodeFileHeader e) (· = encodeFileHeader e) s w) := by
  unfold writeFileHeader
  rw [if_neg (by omega)]
  have hn := toNat_pathLen hl
  refine Handing.andThen (handing_sendAll hM (by simp)) ?_ ?_
  · rintro _ t w₁ rfl hec hw
    split
    · rw [hn, List.take_length]
      refine wp_mono (handing_sendAll hM (by omega)) fun _ _ _ h => h.after hec hw ?_ ?_
      · rintro _ rfl
        rfl
      · rintro _ rfl
        rfl
    · rename_i h0
      exact .done (encodeFixed e) (encodeFileHeader_of_not_pos hl h0).symm hec hw
  · rintro _ rfl
    exact ⟨e.relPath, rfl⟩

/-- Where it fails, it has set the error code, and otherwise it has left it alone. -/
def Reports {α : Type} (s : Refs) (r : Option α) (s' : Refs) (_ : Book) : Prop :=
  (r ≠ none → s'.ec = s.ec) ∧ (r = none → s'.ec ≠ none)

theorem reports_openEntry (paths : List Bytes) (e : FileEntry) :
    Ends M (openEntry paths e) s w (Reports s) := by
  unfold openEntry resolveOnDisk openForRead
  rw [Ends, wp_bind, wp_bind, wp_perform]
  refine ⟨trivial, fun fs w₁ _ => ?_⟩
  cases resolve fs paths e with
  | none => exact ⟨fun h => absurd rfl h, fun _ => by simp⟩
  | some p =>
    simp only [wp_pure, wp_bind]
    refine ⟨trivial, fun fd w₂ _ => ?_⟩
    cases fd with
    | none => exact ⟨fun h => absurd rfl h, fun _ => by simp⟩
    | some fd => exact ⟨fun _ => rfl, fun h => by cases h⟩

theorem reports_crcLoop (crc : Crc32) :
    Ends M (crcLoop k remaining offset crc) s w (Reports s) := by
  fun_induction crcLoop k remaining offset crc generalizing s w with
  | case1 => exact ⟨fun _ => rfl, fun h => by cases h⟩
  | case2 remaining offset crc h want =>
    rename_i ih
    rw [Ends, wp_bind, wp_perform]
    refine ⟨trivial, fun r w₁ _ => ?_⟩
    rcases r with er | bs
    · exact ⟨fun h => absurd rfl h, fun _ => by simp⟩
    · simp only
      split
      · exact ⟨fun _ => rfl, fun h => by cases h⟩
      · exact ih _ ‹_›

theorem reports_sumEntry (paths : List Bytes) (e : FileEntry) :
    Ends M (sumEntry paths e) s w fun r s' w' => Reports s r s' w' ∧
      ∀ e', r = some e' → e'.relPath = e.relPath ∧ e'.size = e.size := by
  unfold sumEntry
  rw [Ends, wp_bind]
  refine wp_mono (reports_openEntry paths e) fun r t w₁ hr => ?_
  cases r with
  | none => exact ⟨⟨fun h => absurd rfl h, fun _ => hr.2 rfl⟩, fun _ h => by cases h⟩
  | some fd =>
    have ht : t.ec = s.ec := hr.1 (by simp)
    unfold crcOfFd
    simp only [wp_bind]
    refine wp_mono (reports_crcLoop _) fun c u w₂ hc => ?_
    have hu : u.ec = s.ec ∨ u.ec ≠ none := by
      cases c with
      | none => exact Or.inr (hc.2 rfl)
      | some crc => exact Or.inl ((hc.1 (by simp)).trans ht)
    have hrest : ∀ crc, wp M (fun _ _ => True) (do
        perform (.close fd)
        if (← get).ec ≠ none then pure none else pure (some { e with crc32 := crc })) u w₂
        fun r s' w' => Reports s r s' w' ∧
          ∀ e', r = some e' → e'.relPath = e.relPath ∧ e'.size = e.size := by
      intro crc
      rw [wp_bind, wp_perform]
      refine ⟨trivial, fun _ w₃ _ => ?_⟩
      rw [wp_bind, wp_get]
      split
      · rename_i hne
        exact ⟨⟨fun h => absurd rfl h, fun _ => hne⟩, fun _ h => by cases h⟩
      · rename_i hno
        refine ⟨⟨fun _ => hu.resolve_right hno, fun h => by cases h⟩, ?_⟩
        rintro _ ⟨⟩
        exact ⟨rfl, rfl⟩
    cases c with
    | none => exact hrest 0
    | some crc => exact hrest crc.final

/-- The same entries, with checksums. -/
def Filled : List FileEntry → List FileEntry → Prop :=
  List.Forall₂ fun e e' => e'.relPath = e.relPath ∧ e'.size = e.size

/-- What a pass over the manifest leaves: the same entries, and the error code alone. -/
def Passes (es : List FileEntry) (s : Refs) (r : Option (List FileEntry)) (s' : Refs)
    (w' : Book) : Prop :=
  Reports s r s' w' ∧ ∀ es', r = some es' → Filled es es'

/-- What a pass does to each entry it does to the manifest. -/
theorem Pass.passes {one : FileEntry → Session (Option FileEntry)}
    {pass : List FileEntry → Session (Option (List FileEntry))} (hp : Pass one pass)
    (hone : ∀ e s w, Ends M (one e) s w fun r s' w' => Reports s r s' w' ∧
      ∀ e', r = some e' → e'.relPath = e.relPath ∧ e'.size = e.size) :
    Ends M (pass es) s w (Passes es s) := by
  induction es generalizing s w with
  | nil =>
    rw [hp.nil]
    refine ⟨⟨fun _ => rfl, fun h => by cases h⟩, ?_⟩
    rintro _ ⟨⟩
    exact .nil
  | cons e es ih =>
    rw [hp.cons, Ends, wp_bind]
    refine wp_mono (hone e s w) ?_
    rintro r t w₁ ⟨hr, he⟩
    cases r with
    | none => exact ⟨⟨fun h => absurd rfl h, fun _ => hr.2 rfl⟩, fun _ h => by cases h⟩
    | some e' =>
      simp only [wp_bind]
      refine wp_mono (ih (s := t) (w := w₁)) ?_
      rintro r u w₂ ⟨hr', hes⟩
      cases r with
      | none => exact ⟨⟨fun h => absurd rfl h, fun _ => hr'.2 rfl⟩, fun _ h => by cases h⟩
      | some es' =>
        refine ⟨⟨fun _ => (hr'.1 (by simp)).trans (hr.1 (by simp)), fun h => by cases h⟩, ?_⟩
        rintro _ ⟨⟩
        exact .cons (he e' rfl) (hes es' rfl)

theorem passes_computeCrcs (paths : List Bytes) (es : List FileEntry) :
    Ends M (computeCrcs paths es) s w (Passes es s) :=
  (pass_computeCrcs paths).passes fun e _ _ => reports_sumEntry paths e

theorem passes_fillCrcs (paths : List Bytes) (es : List FileEntry) :
    Ends M (fillCrcs paths es) s w (Passes es s) := by
  refine (pass_fillCrcs paths).passes fun e s w => ?_
  unfold fillEntry
  split
  · exact reports_sumEntry paths e
  · refine ⟨⟨fun _ => rfl, fun h => by cases h⟩, ?_⟩
    rintro _ ⟨⟩
    exact ⟨rfl, rfl⟩

theorem reports_readAck (hM : Observed f M) : Ends M readAck s w (Reports s) := by
  unfold readAck
  rw [Ends, wp_bind]
  refine wp_mono (wp_recvAll_watched hM (by omega) fun _ _ _ _ => trivial) ?_
  rintro r t w₁ (⟨buf, -, -⟩ | ⟨er, bs, -, -⟩)
  · simp only
    split
    · exact ⟨fun h => absurd rfl h, fun _ => by simp⟩
    · exact ⟨fun _ => rfl, fun h => by cases h⟩
  · exact ⟨fun h => absurd rfl h, fun _ => by simp⟩

section Payload

/-- So many bytes. -/
def OfLength (n : ℕ) (bs : Bytes) : Prop := bs.length = n

theorem Handing.stop {n : ℕ} (h : f.stall ∨ s'.ec ≠ none ∨ short) (hw : w'.sent = w.sent) :
    Handing f short D (OfLength n) s w false s' w' :=
  .failed [] (List.replicate n 0) List.length_replicate h (by rw [hw, List.append_nil])

theorem Handing.nothing (hw : w'.sent = w.sent) (he : s'.ec = s.ec) :
    Handing f short (OfLength 0) F s w true s' w' :=
  .done [] rfl he (by rw [hw, List.append_nil])

theorem Handing.rest {bs : Bytes} {ok : Bool}
    (h : Handing f short (OfLength (remaining - UInt64.ofNat bs.length).toNat)
      (OfLength (remaining - UInt64.ofNat bs.length).toNat) t w₁ ok s' w')
    (hle : bs.length ≤ remaining.toNat) (hec : t.ec = s.ec) (hw : w₁.sent = w.sent ++ bs) :
    Handing f short (OfLength remaining.toNat) (OfLength remaining.toNat) s w ok s' w' := by
  have hlen : ∀ cs, OfLength (remaining - UInt64.ofNat bs.length).toNat cs →
      OfLength remaining.toNat (bs ++ cs) := by
    intro cs hcs
    rw [OfLength, toNat_sub_ofNat hle] at hcs
    rw [OfLength, List.length_append, hcs]
    omega
  exact h.after hec hw hlen hlen

theorem handing_preadLoop (hM : Steps f short M) (hw : w.sent ≠ []) :
    Ends M (preadLoop k offset remaining) s w
      (Handing f short (OfLength remaining.toNat) (OfLength remaining.toNat) s w) := by
  induction hn : remaining.toNat using Nat.strong_induction_on
    generalizing remaining offset s w with
  | _ n ih =>
    subst hn
    unfold preadLoop
    split
    · rename_i h0
      subst h0
      exact .nothing rfl rfl
    · rename_i h0
      have hr0 : remaining.toNat ≠ 0 := fun he => h0 (UInt64.toNat_inj.mp he)
      have hc := toNat_chunk remaining
      rw [Ends, wp_bind, wp_perform]
      refine ⟨trivial, fun r w₁ hm => ?_⟩
      have hs₁ : w₁.sent = w.sent := sent_of_not_writes hM.observed hm id
      rcases r with e | ⟨bs, hbs⟩
      · exact .stop (Or.inr (Or.inl (by simp))) hs₁
      · simp only
        split
        · rename_i hz
          exact .stop (Or.inr (Or.inr (hM.ends hm hw (List.length_eq_zero_iff.mp hz)))) hs₁
        · rename_i hz
          have hle : bs.length ≤ remaining.toNat := by omega
          have hrem := toNat_sub_ofNat hle
          have hcut : ∀ cs, cs = bs → ∃ ds, OfLength remaining.toNat (cs ++ ds) := by
            intro cs hcs
            refine ⟨List.replicate (remaining.toNat - bs.length) 0, ?_⟩
            rw [OfLength, List.length_append, List.length_replicate, hcs]
            omega
          have hsend : Ends M (sendAll bs) s w₁ (Handing f short (· = bs) (· = bs) s w) :=
            wp_mono (handing_sendAll hM.observed (by omega)) fun _ _ _ h => h.congr rfl hs₁
          refine Handing.andThen hsend ?_ hcut
          intro cs t w₂ hcs hec h₂
          rw [hcs] at h₂
          have hw₂ : w₂.sent ≠ [] := by
            rw [h₂]
            exact fun h => hw (List.append_eq_nil_iff.mp h).1
          rw [wp_bind, wp_progress]
          exact wp_mono (ih _ (by omega) hw₂ rfl) fun _ _ _ h => h.rest hle hec h₂

theorem sent_of_sendfile (hM : Observed f M) {signals off want : ℕ}
    {r : Sendfile signals want} (hm : M w (.sendfile signals k off want) r w') :
    ∃ bs, bs.length = r.count ∧ w'.sent = w.sent ++ bs := by
  obtain ⟨a, ⟨g, ⟨-, hk⟩, -⟩, ha⟩ := hM hm
  have hno : a = .silent ∨ a = .hangup → w'.sent = w.sent ++ [] := by
    rintro (rfl | rfl)
    · exact ha.2.trans (List.append_nil _).symm
    · exact ha.2.trans (List.append_nil _).symm
  cases r with
  | sent n hle =>
    obtain ⟨c, -, ⟨hs, rfl, -⟩ | ⟨rfl, -, hlen⟩⟩ := hk
    · exact ⟨[], rfl, hno (Or.inl hs)⟩
    · exact ⟨c.take n, List.length_take_of_le hlen, ha.2⟩
  | interrupted hp => exact ⟨[], rfl, hno (Or.inl hk)⟩
  | error e => exact ⟨[], rfl, hno (hk.imp And.left And.left)⟩

theorem handing_sendfileLoop (hM : Observed f M) (signals : ℕ) :
    Ends M (sendfileLoop k signals offset remaining) s w fun p =>
      Handing f short (OfLength remaining.toNat) (OfLength remaining.toNat) s w p.ok := by
  fun_induction sendfileLoop k signals offset remaining generalizing s w with
  | case1 => exact .nothing rfl rfl
  | case2 signals offset remaining h0 want ih₁ =>
    rename_i ih₂
    rw [Ends, wp_bind, wp_perform]
    refine ⟨trivial, fun r w₁ hm => ?_⟩
    obtain ⟨bs, hl, h₁⟩ := sent_of_sendfile hM hm
    have hno : bs.length = 0 → w₁.sent = w.sent := by
      intro hz
      rw [h₁, List.length_eq_zero_iff.mp hz, List.append_nil]
    cases r with
    | interrupted hp => exact wp_mono (ih₁ hp) fun p _ _ h => h.congr rfl (hno hl)
    | error e => exact .stop (Or.inr (Or.inl (by simp))) (hno hl)
    | sent n hle =>
      obtain rfl : bs.length = n := hl
      simp only
      split
      · rename_i hz
        exact .stop (Or.inr (Or.inl (by simp))) (hno hz)
      · rename_i hz
        have hwant : want.toNat ≤ remaining.toNat := by
          unfold want
          split
          · rename_i hlt
            exact Nat.le_of_lt hlt
          · exact le_rfl
        rw [wp_map]
        exact wp_mono (ih₂ _ hle hz) fun p _ _ h => h.rest (hle.trans hwant) rfl h₁

theorem handing_zeroCopyLoop (hM : Observed f M) (sock : Socket) (signals : ℕ) :
    Ends M (zeroCopyLoop sock signals k offset remaining) s w
      (Handing f short (OfLength remaining.toNat) (OfLength remaining.toNat) s w) := by
  unfold zeroCopyLoop
  split
  · rename_i h0
    subst h0
    exact .nothing rfl rfl
  · rename_i h0
    rw [Ends, wp_bind]
    have hpush : Ends M (sendFromFd sock signals k offset remaining) s w fun p =>
        Handing f short (OfLength remaining.toNat) (OfLength remaining.toNat) s w p.ok := by
      unfold sendFromFd
      split
      · exact .stop (Or.inr (Or.inl (by simp))) rfl
      · exact handing_sendfileLoop hM signals
    refine wp_mono hpush ?_
    rintro ⟨ok, reached, all⟩ t w₁ h
    cases ok with
    | false => exact h
    | true =>
      -- everything has been sent in one go, so the loop comes to its end
      have hr : reached - offset = remaining := by
        rw [all rfl, UInt64.add_comm, UInt64.add_sub_cancel]
      simp only [dite_true, hr, h0, if_false]
      rw [wp_bind, wp_progress, UInt64.sub_self]
      unfold zeroCopyLoop
      rw [dif_pos rfl, wp_pure]
      cases h with
      | done bs hl he hw => exact .done bs hl he hw

theorem handing_sendFileBytes (hM : Steps f short M) (sock : Socket) (signals : ℕ)
    (zeroCopy : Bool) (hw : w.sent ≠ []) :
    Ends M (sendFileBytes sock signals k size zeroCopy) s w
      (Handing f short (OfLength size.toNat) (OfLength size.toNat) s w) := by
  unfold sendFileBytes
  split
  · rename_i h0
    subst h0
    exact .nothing rfl rfl
  · split
    · exact handing_zeroCopyLoop hM.observed sock signals
    · exact handing_preadLoop hM hw

end Payload

end Xfer.Transfer
