import Xfer.Process.Watched

/-! # The parties of a run, each alone

What happens to a party in a run of the pair can happen to it alone, on the
bytes that the other one sends, if its kernel may fail where the peer is gone.
So what each party does alone decides how the pair ends.
-/

namespace Xfer.Process

open Program Relation

variable {C : Type} {R : C → Type} {H β α α₁ α₂ : Type} {K K' : Kernel R H β}
  {reads writes : C → Prop} {cap : ℕ}

section Inevitably

variable {S : Type} {step : S → S → Prop} {Done : S → Prop} {s s' : S}

theorem Inevitably.exists (h : Inevitably step Done s) : ∃ s', ReflTransGen step s s' ∧ Done s' := by
  induction h with
  | done hd => exact ⟨_, .refl, hd⟩
  | step hs _ ih =>
    obtain ⟨s₁, hs₁⟩ := hs
    obtain ⟨s₂, hr, hd⟩ := ih s₁ hs₁
    exact ⟨s₂, .head hs₁ hr, hd⟩

theorem Inevitably.mono (h : Inevitably step Done s) {Done' : S → Prop} (hd : ∀ s, Done s → Done' s) :
    Inevitably step Done' s := by
  induction h with
  | done h => exact .done (hd _ h)
  | step hs _ ih => exact .step hs ih

theorem Inevitably.of_final (h : Inevitably step Done s) (hd : ∀ {s}, Done s → ¬ ∃ s', step s s')
    (hr : ReflTransGen step s s') (hs' : ¬ ∃ s'', step s' s'') : Done s' := by
  induction h with
  | done hs =>
    rcases ReflTransGen.cases_head hr with rfl | ⟨s₁, hs₁, -⟩
    · exact hs
    · exact absurd ⟨s₁, hs₁⟩ (hd hs)
  | step hs _ ih =>
    rcases ReflTransGen.cases_head hr with rfl | ⟨s₁, hs₁, hr₁⟩
    · exact absurd hs hs'
    · exact ih s₁ hs₁ hr₁

end Inevitably

theorem Net.final {n : Net R H β α₁ α₂} {a : α₁} {b : α₂} (ha : n.left = ret a)
    (hb : n.right = ret b) : ¬ ∃ n', Net.Step K cap n n' := by
  rintro ⟨n', hs⟩
  cases hs with
  | left => cases ha
  | right => cases hb

section Beside

variable {done : Prop} {p : Program R α} {a : α}

/-- The machine of a party in the pair while the other one, which is done or not, makes no call. -/
def beside (K : Kernel R H β) (cap : ℕ) (done : Prop) : Machine R (World H β) := fun w c r w' =>
  ∃ a, K w.host c a r w'.host ∧ a.channels cap done w.outgoing w.incoming w'.outgoing w'.incoming

theorem Exec.incoming_suffix {w w' : World H β} (he : Exec (alone K) p w a w') :
    w'.incoming <:+ w.incoming := by
  induction he with
  | ret => exact List.suffix_rfl
  | @call c k w w₁ w' r a hm _ ih =>
    obtain ⟨a, -, ha⟩ := hm
    refine ih.trans ?_
    cases a with
    | silent => exact ha.1 ▸ List.suffix_rfl
    | out bs => exact ha.1 ▸ List.suffix_rfl
    | inp bs => exact ⟨bs, ha.1.symm⟩
    | eof => exact ha.2.1 ▸ List.nil_suffix
    | hangup => exact ha.elim

theorem Exec.beside {w w' : World H β} (he : Exec (alone K) p w a w') {i i' u : List β} (hu : u ≠ [])
    (hi : w.incoming = i ++ u) (hi' : w'.incoming = i' ++ u) (hcap : w'.outgoing.length ≤ cap)
    (hd : ¬ done) : Exec (beside K cap done) p (w.reading i) a (w'.reading i') := by
  induction he generalizing i with
  | ret a w =>
    obtain rfl := List.append_cancel_right (hi.symm.trans hi')
    exact .ret a _
  | @call c k w w₁ w' r a hm he ih =>
    obtain ⟨j, hj⟩ := Exec.incoming_suffix he
    have hi₁ : w₁.incoming = (j ++ i') ++ u := by rw [← hj, hi', List.append_assoc]
    refine .call ?_ (ih hi₁ hi' hcap)
    obtain ⟨a, hk, ha⟩ := hm
    refine ⟨a, hk, ?_⟩
    rw [hi, hi₁] at ha
    cases a with
    | silent => exact ⟨ha.2, List.append_cancel_right ha.1⟩
    | out bs =>
      have hroom := Nat.le_trans (Exec.outgoing_prefix he).length_le hcap
      rw [ha.2, List.length_append] at hroom
      exact ⟨hd, hroom, ha.2, List.append_cancel_right ha.1⟩
    | inp bs =>
      refine ⟨List.append_cancel_right (ha.1.trans ?_), ha.2⟩
      exact (List.append_assoc ..).symm
    | eof => exact absurd (List.append_eq_nil_iff.mp ha.1).2 hu
    | hangup => exact ha.elim

theorem Net.left_of_exec {w w' : World H β} {f : α → Program R α₁} {q : Program R α₂} {g : H}
    (he : Exec (beside K cap (Closed q)) p w a w') : ReflTransGen (Net.Step K cap)
      ⟨p >>= f, w.host, q, g, w.outgoing, w.incoming⟩
      ⟨f a, w'.host, q, g, w'.outgoing, w'.incoming⟩ := by
  induction he with
  | ret => exact .refl
  | call hm _ ih =>
    obtain ⟨a, hk, ha⟩ := hm
    exact .head (.left hk ha) ih

theorem Net.right_of_exec {w w' : World H β} {f : α → Program R α₂} {q : Program R α₁} {g : H}
    (he : Exec (beside K cap (Closed q)) p w a w') : ReflTransGen (Net.Step K cap)
      ⟨q, g, p >>= f, w.host, w.incoming, w.outgoing⟩
      ⟨q, g, f a, w'.host, w'.incoming, w'.outgoing⟩ := by
  induction he with
  | ret => exact .refl
  | call hm _ ih =>
    obtain ⟨a, hk, ha⟩ := hm
    exact .head (.right hk ha) ih

end Beside

/-- `K'` does all that `K` does, and fails where `K` finds the peer gone. -/
structure Tolerates (K K' : Kernel R H β) : Prop where
  le : ∀ {h c a r h'}, K h c a r h' → K' h c a r h'
  hangup : ∀ {h c r h'}, K h c .hangup r h' → K' h c .silent r h'

theorem Exec.alone_call {c : C} {k : R c → Program R α} {h h' : H} {i o i' o' : List β} {r : R c}
    {a : Action β} {x : α} {w : World H β} (hk : K h c a r h') (ha : a.alone i o i' o')
    (he : Exec (alone K) (k r) ⟨h', i', o'⟩ x w) : Exec (alone K) (.call c k) ⟨h, i, o⟩ x w :=
  .call ⟨a, hk, ha⟩ he

theorem Exec.prepend (hK : Tolerates K K') {c : C} {k : R c → Program R α} {done : Prop} {h h' h'' : H}
    {tx ty tx' ty' ux uy rest : List β} {r : R c} {a : Action β} {x : α} (hk : K h c a r h')
    (ha : a.channels cap done tx ty tx' ty') (hdone : done → uy = [])
    (he : ∀ xs, Exec (alone K') (k r) ⟨h', ty' ++ uy, xs⟩ x ⟨h'', rest, xs ++ ux⟩) :
    ∃ bs, tx' = tx ++ bs ∧
      ∀ xs, Exec (alone K') (.call c k) ⟨h, ty ++ uy, xs⟩ x ⟨h'', rest, xs ++ (bs ++ ux)⟩ := by
  cases a with
  | silent =>
    obtain ⟨rfl, rfl⟩ := ha
    exact ⟨[], (List.append_nil _).symm, fun xs => Exec.alone_call (hK.le hk) ⟨rfl, rfl⟩ (he xs)⟩
  | out bs =>
    obtain ⟨-, -, rfl, rfl⟩ := ha
    refine ⟨bs, rfl, fun xs => Exec.alone_call (hK.le hk) ⟨rfl, rfl⟩ ?_⟩
    rw [← List.append_assoc]
    exact he (xs ++ bs)
  | inp bs =>
    obtain ⟨rfl, rfl⟩ := ha
    refine ⟨[], (List.append_nil _).symm, fun xs => Exec.alone_call (hK.le hk) ⟨?_, rfl⟩ (he xs)⟩
    exact List.append_assoc ..
  | eof =>
    obtain ⟨hd, rfl, rfl, rfl⟩ := ha
    obtain rfl := hdone hd
    exact ⟨[], (List.append_nil _).symm, fun xs => Exec.alone_call (hK.le hk) ⟨rfl, rfl, rfl⟩ (he xs)⟩
  | hangup =>
    obtain ⟨-, rfl, rfl⟩ := ha
    exact ⟨[], (List.append_nil _).symm, fun xs => Exec.alone_call (hK.hangup hk) ⟨rfl, rfl⟩ (he xs)⟩

theorem Closed.nothing {p : Program R α} {x : α} {h h' : H} {i i' u : List β} (hp : Closed p)
    (he : ∀ o, Exec (alone K) p ⟨h, i, o⟩ x ⟨h', i', o ++ u⟩) : u = [] := by
  obtain ⟨a, rfl⟩ := hp
  cases he [] with
  | ret => rfl

/-- A run of the pair to its end is a run of each party alone, on what the other one sends. -/
theorem Net.apart (hK : Tolerates K K') {n n' : Net R H β α₁ α₂} {a : α₁} {b : α₂}
    (hr : ReflTransGen (Net.Step K cap) n n') (ha : n'.left = ret a) (hb : n'.right = ret b) :
    ∃ ux uy,
      (∀ xs, Exec (alone K') n.left ⟨n.leftHost, n.toLeft ++ uy, xs⟩ a
        ⟨n'.leftHost, n'.toLeft, xs ++ ux⟩) ∧
      ∀ ys, Exec (alone K') n.right ⟨n.rightHost, n.toRight ++ ux, ys⟩ b
        ⟨n'.rightHost, n'.toRight, ys ++ uy⟩ := by
  induction hr using ReflTransGen.head_induction_on with
  | refl =>
    refine ⟨[], [], fun xs => ?_, fun ys => ?_⟩
    · rw [ha, List.append_nil, List.append_nil]
      exact .ret _ _
    · rw [hb, List.append_nil, List.append_nil]
      exact .ret _ _
  | head hs _ ih =>
    obtain ⟨ux, uy, hp, hq⟩ := ih
    cases hs with
    | left hk hc =>
      obtain ⟨bs, rfl, hp'⟩ := Exec.prepend hK hk hc (fun hd => hd.nothing hq) hp
      exact ⟨bs ++ ux, uy, hp', fun ys => by simpa only [List.append_assoc] using hq ys⟩
    | right hk hc =>
      obtain ⟨bs, rfl, hq'⟩ := Exec.prepend hK hk hc (fun hd => hd.nothing hp) hq
      exact ⟨ux, bs ++ uy, fun xs => by simpa only [List.append_assoc] using hp xs, hq'⟩

theorem watched_of_alone {w w' : World H β} {c : C} {r : R c} (hm : alone K w c r w')
    (received : List β) : ∃ bs, w.incoming = bs ++ w'.incoming ∧
      watched K ⟨w.host, received, w.outgoing⟩ c r ⟨w'.host, received ++ bs, w'.outgoing⟩ := by
  obtain ⟨a, hk, ha⟩ := hm
  cases a with
  | silent => exact ⟨[], ha.1.symm, .silent, hk, List.append_nil _, ha.2⟩
  | out bs => exact ⟨[], ha.1.symm, .out bs, hk, List.append_nil _, ha.2⟩
  | inp bs => exact ⟨bs, ha.1, .inp bs, hk, rfl, ha.2⟩
  | eof => exact ⟨[], ha.1.trans ha.2.1.symm, .eof, hk, List.append_nil _, ha.2.2⟩
  | hangup => exact ha.elim

theorem Exec.watched {p : Program R α} {w w' : World H β} {a : α} (he : Exec (alone K) p w a w')
    (received : List β) : ∃ bs, w.incoming = bs ++ w'.incoming ∧
      Exec (watched K) p ⟨w.host, received, w.outgoing⟩ a ⟨w'.host, received ++ bs, w'.outgoing⟩ := by
  induction he generalizing received with
  | ret a w =>
    refine ⟨[], rfl, ?_⟩
    rw [List.append_nil]
    exact .ret _ _
  | call hm _ ih =>
    obtain ⟨bs, hbs, hm'⟩ := watched_of_alone hm received
    obtain ⟨cs, hcs, he⟩ := ih (received ++ bs)
    refine ⟨bs ++ cs, by rw [hbs, hcs, List.append_assoc], .call hm' ?_⟩
    rwa [← List.append_assoc]

section Pair

variable {P : α → World H β → Prop} {P₁ : α₁ → World H β → Prop} {P₂ : α₂ → World H β → Prop}
  {G Gp Gq : Ledger H β → C → Prop} {p : Program R α₁} {q : Program R α₂} {h g : H}
  {X Y xs ys ux uy tx ty tx' ty' : List β}

/-- The party, which has received `ys` and sent `xs`, heeds its guard, and alone, on the input `is`,
it ends in `P`, having sent all of `X`. -/
structure Plays (K : Kernel R H β) (G : Ledger H β → C → Prop) (P : α → World H β → Prop)
    (X : List β) (p : Program R α) (h : H) (ys is xs : List β) : Prop where
  heeds : Heeds K G p ⟨h, ys, xs⟩
  ends : Ensures (alone K) (fun _ _ => True) p ⟨h, is, xs⟩ fun a w' => P a w' ∧ w'.outgoing = X

theorem Plays.ret {a : α} {is : List β} (hp : Plays K G P X (ret a) h ys is xs) :
    P a ⟨h, is, xs⟩ ∧ xs = X := hp.ends

theorem Plays.not_out (hK : Responsive K reads writes) {c : C} {k : R c → Program R α} {is : List β}
    (hp : Plays K G P X (.call c k) h ys is X) {b : β} {r : R c} {h' : H} : ¬ K h c (.out [b]) r h' := by
  intro hk
  have hlen := (hK.outgoing_prefix (hp.ends.2 r ⟨h', _, _⟩ ⟨.out [b], hk, rfl, rfl⟩)).length_le
  simp only [List.length_append, List.length_cons] at hlen
  omega

/-- A step of the first party in the pair is a step of that party alone, provided that it does not
write to a peer that is gone. -/
theorem Plays.step (hK : Responsive K reads writes) {c : C} {k : R c → Program R α₁} {h' : H} {r : R c}
    {a : Action β} (hp : Plays K Gp P₁ X (.call c k) h ys (ty ++ uy) (xs ++ tx))
    (hq : Plays K Gq P₂ Y q g xs (tx ++ ux) (ys ++ ty)) (hX : X = xs ++ tx ++ ux)
    (hY : Y = ys ++ ty ++ uy) (hread : Closed q → tx ++ ux = []) (hk : K h c a r h')
    (ha : a.channels cap (Closed q) tx ty tx' ty') :
    ∃ bs ux', X = xs ++ tx' ++ ux' ∧ Y = ys ++ bs ++ ty' ++ uy ∧
      Plays K Gp P₁ X (k r) h' (ys ++ bs) (ty' ++ uy) (xs ++ tx') ∧
      Plays K Gq P₂ Y q g xs (tx' ++ ux') (ys ++ bs ++ ty') := by
  obtain ⟨bs, rfl, hheeds⟩ := hp.heeds.step hk ha
  have hcall : ∀ {i' o' : List β}, a.alone (bs ++ ty' ++ uy) (xs ++ tx) i' o' →
      Ensures (alone K) (fun _ _ => True) (k r) ⟨h', i', o'⟩ fun a w' => P₁ a w' ∧ w'.outgoing = X :=
    fun hal => hp.ends.2 r ⟨h', _, _⟩ ⟨a, hk, hal⟩
  rw [← List.append_assoc] at hY hq
  refine ⟨bs, ?_⟩
  cases a with
  | silent =>
    obtain ⟨rfl, hb⟩ := ha
    exact ⟨ux, hX, hY, ⟨hheeds, hcall ⟨by rw [← hb], rfl⟩⟩, hq⟩
  | out cs =>
    obtain ⟨-, -, rfl, hb⟩ := ha
    have hp' := @hcall (ty' ++ uy) (xs ++ tx ++ cs) ⟨by rw [← hb], rfl⟩
    obtain ⟨ux', hux⟩ := hK.outgoing_prefix hp'
    obtain rfl : ux = cs ++ ux' := by
      rw [hX, List.append_assoc] at hux
      exact (List.append_cancel_left hux).symm
    rw [List.append_assoc] at hp'
    refine ⟨ux', ?_, hY, ⟨hheeds, hp'⟩, ?_⟩
    · rw [hX]
      simp only [List.append_assoc]
    · rwa [List.append_assoc]
  | inp cs =>
    obtain ⟨hb, rfl⟩ := ha
    obtain rfl := List.append_cancel_right hb
    exact ⟨ux, hX, hY, ⟨hheeds, hcall ⟨List.append_assoc .., rfl⟩⟩, hq⟩
  | eof =>
    obtain ⟨⟨b, rfl⟩, hb, rfl, rfl⟩ := ha
    obtain rfl : uy = [] := by
      have hys := hq.ret.2
      rw [hY] at hys
      exact List.append_right_eq_self.mp hys.symm
    exact ⟨ux, hX, hY, ⟨hheeds, hcall ⟨by rw [hb, List.append_nil], rfl, rfl⟩⟩, hq⟩
  | hangup =>
    obtain ⟨hd, -⟩ := ha
    exfalso
    obtain ⟨rfl, rfl⟩ := List.append_eq_nil_iff.mp (hread hd)
    obtain ⟨b, r, h'', hk'⟩ := hK.out_of_hangup hk
    rw [List.append_nil] at hX
    exact (hX ▸ hp).not_out hK hk'

/-- Each party plays its part, with what is in flight and what the other one is still to send. -/
def Net.Playing (K : Kernel R H β) (Gp Gq : Ledger H β → C → Prop) (P₁ : α₁ → World H β → Prop)
    (P₂ : α₂ → World H β → Prop) (X Y : List β) (n : Net R H β α₁ α₂) : Prop :=
  ∃ xs ux ys uy, X = xs ++ n.toRight ++ ux ∧ Y = ys ++ n.toLeft ++ uy ∧
    Plays K Gp P₁ X n.left n.leftHost ys (n.toLeft ++ uy) (xs ++ n.toRight) ∧
    Plays K Gq P₂ Y n.right n.rightHost xs (n.toRight ++ ux) (ys ++ n.toLeft)

theorem Plays.nothing {p : Program R α} {is : List β} (hp : Plays K G P X p h ys is xs)
    (hc : Closed p) (hP : ∀ a w, P a w → w.incoming = []) : is = [] := by
  obtain ⟨a, rfl⟩ := hc
  exact hP a _ hp.ret.1

theorem Net.Playing.step (hK : Responsive K reads writes) {n n' : Net R H β α₁ α₂}
    (hn : n.Playing K Gp Gq P₁ P₂ X Y) (hs : Net.Step K cap n n')
    (hP₁ : ∀ a w, P₁ a w → w.incoming = [])
    (hP₂ : Closed n.right → ∀ b w, P₂ b w → w.incoming = []) : n'.Playing K Gp Gq P₁ P₂ X Y := by
  obtain ⟨xs, ux, ys, uy, hX, hY, hp, hq⟩ := hn
  cases hs with
  | left hk ha =>
    obtain ⟨bs, ux', hX', hY', hp', hq'⟩ :=
      hp.step hK hq hX hY (fun hc => hq.nothing hc (hP₂ hc)) hk ha
    exact ⟨xs, ux', ys ++ bs, uy, hX', hY', hp', hq'⟩
  | right hk ha =>
    obtain ⟨bs, uy', hY', hX', hq', hp'⟩ := hq.step hK hp hY hX (fun hc => hp.nothing hc hP₁) hk ha
    exact ⟨xs ++ bs, ux, ys, uy', hX', hY', hp', hq'⟩

/-- Both parties have returned, as each of them ends alone. -/
def Net.Finished (A : α₁ → H → Prop) (B : α₂ → H → Prop) (n : Net R H β α₁ α₂) : Prop :=
  ∃ a b, n.left = ret a ∧ n.right = ret b ∧ A a n.leftHost ∧ B b n.rightHost

variable {A : α₁ → H → Prop} {B : α₂ → H → Prop}

theorem Net.Playing.finished {n : Net R H β α₁ α₂} (hn : n.Playing K Gp Gq P₁ P₂ X Y)
    (hl : Closed n.left) (hr : Closed n.right) (hA : ∀ a w, P₁ a w → A a w.host)
    (hB : ∀ b w, P₂ b w → B b w.host) : n.Finished A B := by
  obtain ⟨p, h, q, g, tx, ty⟩ := n
  obtain ⟨a, rfl⟩ := hl
  obtain ⟨b, rfl⟩ := hr
  obtain ⟨xs, ux, ys, uy, -, -, hp, hq⟩ := hn
  exact ⟨a, b, rfl, rfl, hA a _ hp.ret.1, hB b _ hq.ret.1⟩

theorem Plays.silent_of_closed (hK : Responsive K reads writes) {p : Program R α}
    {q : Program R α₂} (hp : Plays K G P X p h ys (ty ++ uy) (xs ++ tx))
    (hq : Plays K Gq P₂ Y q g xs (tx ++ ux) (ys ++ ty)) (hX : X = xs ++ tx ++ ux) (hc : Closed q)
    (hP₂ : ∀ b w, P₂ b w → w.incoming = []) : ¬ Outspoken K p h := by
  rintro ⟨c, k, b, r, h', rfl, hk⟩
  obtain ⟨rfl, rfl⟩ := List.append_eq_nil_iff.mp (hq.nothing hc hP₂)
  rw [List.append_nil] at hX
  exact (hX ▸ hp).not_out hK hk

/-- If each party alone consumes exactly what the other one alone produces, then the pair always
finishes, as the two parties alone do; neither of them ever writes to one that is gone. -/
theorem Net.inevitably (hK : Responsive K reads writes) (hw : NeverBothWait reads writes Gp Gq)
    (hcap : 0 < cap) (hp : Plays K Gp (fun a w => A a w.host ∧ w.incoming = []) X p h [] Y [])
    (hq : Plays K Gq (fun b w => B b w.host ∧ w.incoming = []) Y q g [] X []) :
    Inevitably (Net.Step K cap) (Net.Finished A B) ⟨p, h, q, g, [], []⟩ := by
  refine .of_invariant (I := Net.Playing K Gp Gq (fun a w => A a w.host ∧ w.incoming = [])
      (fun b w => B b w.host ∧ w.incoming = []) X Y) (Net.terminates _)
    ⟨[], X, [], Y, rfl, rfl, hp, hq⟩ (fun hn hs => hn.step hK hs (fun _ _ h => h.2) fun _ _ _ h => h.2)
    fun n hn => ?_
  by_cases hc : Closed n.left ∧ Closed n.right
  · exact Or.inl (hn.finished hc.1 hc.2 (fun _ _ h => h.1) fun _ _ h => h.1)
  · obtain ⟨xs, ux, ys, uy, hX, hY, hp, hq⟩ := hn
    have hn' : n.Heedful K Gp Gq := ⟨xs, ys, hp.heeds, hq.heeds⟩
    rcases hn'.progress hK hcap hw hc with hs | ⟨hr, hout⟩ | ⟨hl, hout⟩
    · exact Or.inr hs
    · exact absurd hout (hp.silent_of_closed hK hq hX hr fun _ _ h => h.2)
    · exact absurd hout (hq.silent_of_closed hK hp hY hl fun _ _ h => h.2)

section Run

variable (hK : Live K reads writes) (hw : NeverBothWait reads writes Gp Gq)
include hK hw

theorem Net.inevitably_of_final (hcap : 0 < cap) (hp : Heeds K Gp p ⟨h, [], []⟩)
    (hq : Heeds K Gq q ⟨g, [], []⟩) {Done : Net R H β α₁ α₂ → Prop}
    (hd : ∀ n, ReflTransGen (Net.Step K cap) ⟨p, h, q, g, [], []⟩ n → Closed n.left →
      Closed n.right → Done n) :
    Inevitably (Net.Step K cap) Done ⟨p, h, q, g, [], []⟩ := by
  refine .of_invariant (I := ReflTransGen (Net.Step K cap) ⟨p, h, q, g, [], []⟩) (Net.terminates _)
    .refl (fun hn hs => hn.tail hs) fun n hn => ?_
  by_cases hc : Closed n.left ∧ Closed n.right
  · exact Or.inl (hd n hn hc.1 hc.2)
  · exact Or.inr (Net.never_stuck hK hcap hw hp hq hn hc)

theorem Net.Playing.advance {m : ℕ} {n : Net R H β α₁ α₂} (hX : X.length < cap) (hY : Y.length < cap)
    (hturn : ∀ {h ys xs c}, reads c → Gp ⟨h, ys, xs⟩ c → xs.length ≤ m)
    (hP₁ : ∀ a w, P₁ a w → w.incoming = [])
    (hP₂ : ∀ b w, P₂ b w → w.incoming.length + m < X.length) (hn : n.Playing K Gp Gq P₁ P₂ X Y)
    (hopen : ¬ Closed n.right) : ∃ n', Net.Step K cap n n' ∧ (Closed n'.right → Closed n'.left) := by
  have hstep : ∀ {n'}, Net.Step K cap n n' → n'.Playing K Gp Gq P₁ P₂ X Y := fun hs =>
    hn.step hK.responsive hs hP₁ fun hc => absurd hc hopen
  obtain ⟨p, h, q, g, tx, ty⟩ := n
  obtain ⟨xs, ux, ys, uy, hXe, hYe, hp, hq⟩ := hn
  have hroom : tx.length < cap ∧ ty.length < cap := by
    rw [hXe, List.length_append, List.length_append] at hX
    rw [hYe, List.length_append, List.length_append] at hY
    simp only at hX hY
    omega
  cases q with
  | ret b => exact absurd ⟨b, rfl⟩ hopen
  | call d l =>
    cases p with
    | ret a =>
      rcases hK.channels_or_waits cap g d (Closed (ret a : Program R α₁)) ty tx with
        ⟨_, _, _, _, _, hk, ha⟩ | ⟨hd, -⟩
      · exact ⟨_, .right hk ha, fun _ => ⟨a, rfl⟩⟩
      · exact absurd ⟨a, rfl⟩ hd
    | call c k =>
      rcases hK.channels_or_waits cap h c (Closed (.call d l : Program R α₂)) tx ty with
        ⟨_, _, _, _, _, hk, ha⟩ | ⟨-, ⟨-, hfull⟩ | ⟨hc, rfl⟩⟩
      · exact ⟨_, .left hk ha, fun hc => absurd hc hopen⟩
      · exact absurd hfull (Nat.not_le.mpr hroom.1)
      · rcases hK.channels_or_waits cap g d (Closed (.call c k : Program R α₁)) [] tx with
          ⟨a, r, g', ty', tx', hk, ha⟩ | ⟨-, ⟨-, hfull⟩ | ⟨hd, rfl⟩⟩
        · refine ⟨_, .right hk ha, fun hret => ?_⟩
          exfalso
          obtain ⟨xs', ux', ys', uy', hX', -, hp', hq'⟩ := hstep (.right hk ha)
          obtain ⟨b, hb⟩ := hret
          have hlate := hP₂ b _ (hb ▸ hq').ret.1
          have hsent := hturn hc hp'.heeds.1
          simp only [hX', List.length_append] at hlate hsent
          omega
        · exact absurd hfull (Nat.not_le.mpr hroom.2)
        · exfalso
          have hp₁ := hp.heeds.1
          have hq₁ := hq.heeds.1
          simp only [List.append_nil] at hp₁ hq₁
          exact hw.reading hc hd hp₁ hq₁

/-- Where the channels have room for everything, and the second party still has to read something
when the first one no longer waits for it, some run ends as the two parties alone do, although the
second one does not read all that it is sent. -/
theorem Net.exists_finished {m : ℕ} (hX : X.length < cap) (hY : Y.length < cap)
    (hturn : ∀ {h ys xs c}, reads c → Gp ⟨h, ys, xs⟩ c → xs.length ≤ m)
    (hp : Plays K Gp (fun a w => A a w.host ∧ w.incoming = []) X p h [] Y [])
    (hq : Plays K Gq (fun b w => B b w.host ∧ w.incoming.length + m < X.length) Y q g [] X [])
    (hopen : ¬ Closed q) :
    ∃ n, ReflTransGen (Net.Step K cap) ⟨p, h, q, g, [], []⟩ n ∧ n.Finished A B := by
  have hstart : Net.Playing K Gp Gq (fun a w => A a w.host ∧ w.incoming = [])
      (fun b w => B b w.host ∧ w.incoming.length + m < X.length) X Y ⟨p, h, q, g, [], []⟩ :=
    ⟨[], X, [], Y, rfl, rfl, hp, hq⟩
  have hacc : Acc (fun n' n => Net.Step K cap n n') ⟨p, h, q, g, [], []⟩ := Net.terminates _
  have hopen' : ¬ Closed (Net.right ⟨p, h, q, g, ([] : List β), ([] : List β)⟩) := hopen
  generalize (⟨p, h, q, g, [], []⟩ : Net R H β α₁ α₂) = n at hstart hacc hopen' ⊢
  induction hacc with
  | intro n _ ih =>
    obtain ⟨n', hs, hlast⟩ :=
      hstart.advance hK hw hX hY hturn (fun _ _ h => h.2) (fun _ _ h => h.2) hopen'
    have hn' := hstart.step hK.responsive hs (fun _ _ h => h.2) fun hc => absurd hc hopen'
    by_cases hc : Closed n'.right
    · exact ⟨n', .single hs, hn'.finished (hlast hc) hc (fun _ _ h => h.1) fun _ _ h => h.1⟩
    · obtain ⟨n'', hr, hf⟩ := ih n' hs hn' hc
      exact ⟨n'', .head hs hr, hf⟩

end Run

end Pair

end Xfer.Process
