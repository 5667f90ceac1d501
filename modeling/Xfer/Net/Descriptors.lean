import Xfer.Net.Lifetime

/-! # Descriptors and their owners

After every operation the open descriptors that sockets have obtained are owned by
one live object each. Every system call finds them so, and what is closed is
what the object owns.
-/

namespace Xfer.Net.Lifetime

open Process Code

variable {ι : Type} {w w' : State ι} {i j : ι} {n m : ℤ} {ec : ErrorCode}

namespace State

/-- The descriptors that live objects own. -/
def owned (w : State ι) : ι → Option ℤ := fun i => (w.sockets i).filter (0 ≤ ·)

theorem owned_of_nonneg (h : w.sockets i = some n) (hn : 0 ≤ n) : w.owned i = some n := by
  simp [owned, h, hn]

theorem owned_of_neg (h : w.sockets i = some n) (hn : n < 0) : w.owned i = none := by
  simp [owned, h, hn]

theorem owned_of_none (h : w.sockets i = none) : w.owned i = none := by
  simp [owned, h]

theorem owned_eq_some_iff : w.owned i = some n ↔ w.sockets i = some n ∧ 0 ≤ n := by
  simp [owned, Option.filter_eq_some_iff]

theorem owned_congr (h : w'.sockets = w.sockets) : w'.owned = w.owned := by
  funext i
  rw [owned, owned, h]

/-- What holds between any two operations. -/
structure Sound (w : State ι) : Prop where
  exclusive : Exclusive w.owned w.held
  apart : w.Apart
  turn : InTurn w.log w.held

end State

theorem State.Sound.same (h : w.Sound) (hs : w.Same w') : w'.Sound where
  exclusive := by
    rw [State.owned_congr hs.1, hs.2.1]
    exact h.exclusive
  apart := hs.2.2.2
  turn := by
    rw [hs.2.1, hs.2.2.1]
    exact h.turn

theorem State.Obtains.sockets (h : w.Obtains w' n) : w'.sockets = w.sockets := by
  rcases h with ⟨-, h⟩ | ⟨-, -, -, h, -⟩
  · exact h.1
  · exact h

theorem State.Obtains.of_neg (h : w.Obtains w' n) (hn : n < 0) : w.Same w' := by
  rcases h with ⟨-, h⟩ | ⟨hp, -⟩
  · exact h
  · exact absurd hn (not_lt.mpr hp)

/-- Objects are constructed where there is none and used while they live, every system call finds
each open descriptor owned by one object, and an object closes what it owns. -/
def Orderly (w : State ι) : Call ι → Prop
  | .construct i _ => w.sockets i = none
  | .fd i | .setFd i _ | .drop i => w.sockets i ≠ none
  | .adopt fd => 0 ≤ fd → fd ∈ w.foreign
  | .close self fd => Exclusive w.owned w.held ∧ w.owned self = some fd
  | _ => Exclusive w.owned w.held

variable [DecidableEq ι]

namespace State

@[simp] theorem set_sockets (i : ι) (v : Option ℤ) :
    (w.set i v).sockets = Function.update w.sockets i v := rfl

@[simp] theorem set_held (i : ι) (v : Option ℤ) : (w.set i v).held = w.held := rfl

theorem owned_set (i : ι) (v : Option ℤ) :
    (w.set i v).owned = Function.update w.owned i (v.filter (0 ≤ ·)) := by
  funext j
  by_cases h : j = i
  · rw [h, Function.update_self]
    simp [owned]
  · rw [Function.update_of_ne h]
    simp [owned, h]

end State

namespace State.Sound

variable (h : w.Sound)
include h

theorem set (hi : w.owned i = none) {v : Option ℤ} (hv : v.filter (0 ≤ ·) = none) :
    (w.set i v).Sound where
  exclusive := by
    rw [owned_set, hv, ← hi, Function.update_eq_self]
    exact h.exclusive
  apart := h.apart
  turn := h.turn

theorem gain (hi : w.owned i = none) (hn : 0 ≤ n) (hheld : n ∉ w.held)
    (hs : w'.sockets = w.sockets) (he : w'.held = insert n w.held)
    (hl : w'.log = w.log ++ [.acquired n]) (hd : w'.Apart) :
    (w'.set i (some n)).Sound where
  exclusive := by
    rw [owned_set, owned_congr hs, Option.filter_some_pos (by simpa using hn), set_held, he]
    exact h.exclusive.acquire hi hheld
  apart := hd
  turn := by
    change InTurn w'.log w'.held
    rw [hl, he]
    exact h.turn.acquire hheld

theorem obtain (hi : w.owned i = none) (ho : w.Obtains w' n) : (w'.set i (some n)).Sound := by
  rcases ho with ⟨hn, hs⟩ | ⟨hn, hheld, -, hs, he, hl, hd⟩
  · refine (h.same hs).set ?_ ?_
    · rw [owned_congr hs.1, hi]
    · simpa using hn
  · exact h.gain hi hn hheld hs he hl hd

theorem adopt (hi : w.owned i = none) (hn : 0 ≤ n) (hf : n ∈ w.foreign) :
    (State.set { w with held := insert n w.held, foreign := w.foreign \ {n},
                        log := w.log ++ [.acquired n] } i (some n)).Sound := by
  have hheld : n ∉ w.held := fun hm => h.apart n hf hm
  refine h.gain hi hn hheld rfl rfl rfl ?_
  rintro fd ⟨hfd, hne⟩ hm
  rcases hm with he | hm
  · exact hne he
  · exact h.apart fd hfd hm

theorem close (hi : w.owned i = some n) (hs : w'.sockets = w.sockets) (he : w'.held = w.held \ {n})
    (hl : w'.log = w.log ++ [.released n]) (hd : w'.Apart) :
    (w'.set i (some (-1))).Sound where
  exclusive := by
    rw [owned_set, owned_congr hs, set_held, he]
    exact h.exclusive.release hi
  apart := hd
  turn := by
    change InTurn w'.log w'.held
    rw [hl, he]
    exact h.turn.release (h.exclusive.mem hi)

theorem move (hi : w.owned i = none) (hij : i ≠ j) (hj : w.sockets j = some n) :
    ((w.set i (some n)).set j (some (-1))).Sound where
  exclusive := by
    have : w.owned j = (some n).filter (0 ≤ ·) := congrArg _ hj
    rw [owned_set, owned_set, ← this]
    exact h.exclusive.transfer hi hij
  apart := h.apart
  turn := h.turn

end State.Sound

/-! ## Each member function -/

section Calls

variable {α : Type} {Q : α → ErrorCode → State ι → Prop}

theorem wp_fd {Q : ℤ → ErrorCode → State ι → Prop} (hi : w.sockets i = some n) (hQ : Q n ec w) :
    wp kernel Orderly (issue (.fd i)) ec w Q := by
  refine wp_issue.mpr ⟨by simp [Orderly, hi], ?_⟩
  rintro r w' ⟨hr, rfl⟩
  cases hi.symm.trans hr
  exact hQ

theorem wp_setFd {Q : Unit → ErrorCode → State ι → Prop} (hi : w.sockets i = some m)
    (hQ : Q () ec (w.set i (some n))) : wp kernel Orderly (issue (.setFd i n)) ec w Q := by
  refine wp_issue.mpr ⟨by simp [Orderly, hi], ?_⟩
  rintro r w' rfl
  exact hQ

theorem wp_construct {Q : Unit → ErrorCode → State ι → Prop} (hi : w.sockets i = none)
    (hQ : Q () ec (w.set i (some n))) : wp kernel Orderly (issue (.construct i n)) ec w Q := by
  refine wp_issue.mpr ⟨hi, ?_⟩
  rintro r w' rfl
  exact hQ

theorem wp_same {c : Call ι} {Q : c.Result → ErrorCode → State ι → Prop} (h : w.Sound)
    (hc : Orderly w c = Exclusive w.owned w.held) (hs : ∀ r w', kernel w c r w' → w.Same w')
    (hQ : ∀ r w', w'.Sound → w'.sockets = w.sockets → Q r ec w') :
    wp kernel Orderly (issue c) ec w Q := by
  refine wp_issue.mpr ⟨hc ▸ h.exclusive, fun r w' hm => ?_⟩
  have := hs r w' hm
  exact hQ r w' (h.same this) this.1

theorem wp_lastError {Q : Unit → ErrorCode → State ι → Prop} (h : w.Sound)
    (hQ : ∀ ec' w', w'.Sound → w'.sockets = w.sockets → Q () ec' w') :
    wp kernel Orderly lastError ec w Q := by
  refine wp_bind.mpr (wp_same h rfl (fun _ _ hm => hm) fun e w' h' hs => ?_)
  exact wp_set.mpr (hQ _ w' h' hs)

theorem wp_valid {Q : Bool → ErrorCode → State ι → Prop} (hi : w.sockets i = some n)
    (hQ : Q (0 ≤ n) ec w) : wp kernel Orderly (Socket.valid i) ec w Q :=
  wp_bind.mpr (wp_fd hi hQ)

theorem wp_obtain {c : Call ι} {Q : c.Result → ErrorCode → State ι → Prop} (h : w.Sound)
    (hc : Orderly w c = Exclusive w.owned w.held)
    (hQ : ∀ r w', kernel w c r w' → Q r ec w') :
    wp kernel Orderly (issue c) ec w Q :=
  wp_issue.mpr ⟨hc ▸ h.exclusive, hQ⟩

theorem wp_close {Q : Unit → ErrorCode → State ι → Prop} (h : w.Sound) (hi : w.sockets i = some n)
    (hQ : ∀ w' m, w'.Sound → m < 0 → w'.sockets = Function.update w.sockets i (some m) →
      Q () ec w') : wp kernel Orderly (Socket.close i) ec w Q := by
  refine wp_bind.mpr (wp_fd hi ?_)
  split
  · rename_i hn
    have ho := State.owned_of_nonneg hi hn
    refine wp_bind.mpr (wp_issue.mpr ⟨⟨h.exclusive, ho⟩, ?_⟩)
    rintro - w' ⟨hs, he, hl, hd⟩
    refine wp_setFd (hs ▸ hi) ?_
    exact hQ _ (-1) (h.close ho hs he hl hd) (by decide) (by rw [State.set_sockets, hs])
  · rename_i hn
    refine hQ w n h (not_le.mp hn) ?_
    rw [← hi, Function.update_eq_self]

theorem wp_tryEach {Q : Unit → ErrorCode → State ι → Prop} (ps : List AddrInfo) (h : w.Sound)
    (hi : w.sockets i = some n) (hn : n < 0)
    (hQ : ∀ ec' w' m, w'.Sound → w'.sockets i = some m → Q () ec' w') :
    wp kernel Orderly (Socket.tryEach i ps) ec w Q := by
  induction ps generalizing w n ec with
  | nil => exact hQ _ w n h hi
  | cons p ps ih =>
    refine wp_bind.mpr (wp_obtain h rfl fun fd w' ho => ?_)
    have hs : w'.sockets = w.sockets := State.Obtains.sockets ho
    have h' := h.obtain (State.owned_of_neg hi hn) ho
    have hi' : (w'.set i (some fd)).sockets i = some fd := Function.update_self ..
    refine wp_bind.mpr (wp_setFd (hs ▸ hi) ?_)
    split
    · exact ih h' hi' ‹_›
    · refine wp_bind.mpr (wp_same h' rfl (fun _ _ hm => hm) fun connected w'' h'' hs'' => ?_)
      rw [hs''.symm] at hi'
      split
      · exact hQ _ w'' fd h'' hi'
      · refine wp_bind.mpr (wp_close h'' hi' fun w₃ m h₃ hm hs₃ => ?_)
        exact ih h₃ (by rw [hs₃, Function.update_self]) hm

end Calls

theorem sound_connect {host : Bytes} {port : ℤ} (h : w.Sound) (hi : w.sockets i ≠ none) :
    wp kernel Orderly (Socket.connect i host port) ec w fun _ _ w' => w'.Sound := by
  obtain ⟨n, hi⟩ := Option.ne_none_iff_exists'.mp hi
  refine wp_bind.mpr (wp_close h hi fun w₁ m h₁ hm hs₁ => ?_)
  refine wp_bind.mpr (wp_same h₁ rfl (fun _ _ hm => hm) fun r w₂ h₂ hs₂ => ?_)
  have hi₂ : w₂.sockets i = some m := by rw [hs₂, hs₁, Function.update_self]
  cases r with
  | error rc => exact h₂
  | ok info =>
    cases info with
    | nil => exact h₂
    | cons p ps =>
      refine wp_bind.mpr (wp_tryEach _ h₂ hi₂ hm fun _ w₃ m' h₃ hi₃ => ?_)
      refine wp_bind.mpr (wp_valid hi₃ ?_)
      split
      · exact h₃
      · exact wp_bind.mpr (wp_lastError h₃ fun _ w₄ h₄ _ => h₄)

theorem sound_bind {port : ℤ} (h : w.Sound) (hi : w.sockets i ≠ none) :
    wp kernel Orderly (Socket.bind i port) ec w fun _ _ w' => w'.Sound := by
  obtain ⟨n, hi⟩ := Option.ne_none_iff_exists'.mp hi
  refine wp_bind.mpr (wp_close h hi fun w₁ m h₁ hm hs₁ => ?_)
  have hi₁ : w₁.sockets i = some m := by rw [hs₁, Function.update_self]
  refine wp_bind.mpr (wp_obtain h₁ rfl fun fd w₂ ho => ?_)
  have h₂ := h₁.obtain (State.owned_of_neg hi₁ hm) ho
  have hi₂ : (w₂.set i (some fd)).sockets i = some fd := Function.update_self ..
  refine wp_bind.mpr (wp_setFd (ho.sockets ▸ hi₁) ?_)
  split
  · exact wp_bind.mpr (wp_lastError h₂ fun _ w₃ h₃ _ => h₃)
  · refine wp_bind.mpr (wp_same h₂ rfl (fun _ _ hm => hm) fun _ w₃ h₃ hs₃ => ?_)
    refine wp_bind.mpr (wp_same h₃ rfl (fun _ _ hm => hm) fun _ w₄ h₄ hs₄ => ?_)
    refine wp_bind.mpr (wp_same h₄ rfl (fun _ _ hm => hm) fun bound w₅ h₅ hs₅ => ?_)
    split
    · exact h₅
    · refine wp_bind.mpr (wp_lastError h₅ fun _ w₆ h₆ hs₆ => ?_)
      have hi₆ : w₆.sockets i = some fd := by rw [hs₆, hs₅, hs₄, hs₃, hi₂]
      exact wp_bind.mpr (wp_close h₆ hi₆ fun w₇ _ h₇ _ _ => h₇)

theorem sound_listen {backlog : ℤ} (h : w.Sound) (hi : w.sockets i ≠ none) :
    wp kernel Orderly (Socket.listen i backlog) ec w fun _ _ w' => w'.Sound := by
  obtain ⟨n, hi⟩ := Option.ne_none_iff_exists'.mp hi
  refine wp_bind.mpr (wp_valid hi ?_)
  split
  · refine wp_bind.mpr (wp_fd hi ?_)
    refine wp_bind.mpr (wp_same h rfl (fun _ _ hm => hm) fun listening w₁ h₁ _ => ?_)
    split
    · exact h₁
    · exact wp_bind.mpr (wp_lastError h₁ fun _ w₂ h₂ _ => h₂)
  · exact h

theorem sound_accept {result : ι} (h : w.Sound) (hi : w.sockets i ≠ none)
    (hr : w.sockets result = none) :
    wp kernel Orderly (Socket.accept i result) ec w fun _ _ w' => w'.Sound := by
  obtain ⟨n, hi⟩ := Option.ne_none_iff_exists'.mp hi
  refine wp_bind.mpr (wp_fd hi ?_)
  refine wp_bind.mpr (wp_obtain h rfl fun peer w₁ ho => ?_)
  have hr₁ : w₁.sockets result = none := ho.sockets ▸ hr
  split
  · rename_i hneg
    have h₁ : w₁.Sound := h.same (ho.of_neg hneg)
    refine wp_bind.mpr (wp_lastError h₁ fun _ w₂ h₂ hs₂ => ?_)
    rw [← hs₂] at hr₁
    exact wp_construct hr₁ (h₂.set (State.owned_of_none hr₁) rfl)
  · exact wp_construct hr₁ (h.obtain (State.owned_of_none hr) ho)

theorem sound_ofFd (h : w.Sound) (hi : w.sockets i = none) (hf : 0 ≤ n → n ∈ w.foreign) :
    wp kernel Orderly (Socket.ofFd i n) ec w fun _ _ w' => w'.Sound := by
  refine wp_bind.mpr (wp_issue.mpr ⟨hf, ?_⟩)
  rintro - w' rfl
  have ho := State.owned_of_none hi
  split
  · rename_i hn
    exact wp_construct hi (h.adopt ho hn (hf hn))
  · rename_i hn
    exact wp_construct hi (h.set ho (by simpa using hn))

theorem sound_moveFrom (h : w.Sound) (hi : w.sockets i = none) (hj : w.sockets j ≠ none) :
    wp kernel Orderly (Socket.moveFrom i j) ec w fun _ _ w' => w'.Sound := by
  obtain ⟨n, hj'⟩ := Option.ne_none_iff_exists'.mp hj
  have hij : i ≠ j := by
    rintro rfl
    exact hj hi
  refine wp_bind.mpr (wp_fd hj' ?_)
  refine wp_bind.mpr (wp_construct hi ?_)
  refine wp_setFd (m := n) ?_ (h.move (State.owned_of_none hi) hij hj')
  rw [State.set_sockets, Function.update_of_ne hij.symm, hj']

theorem sound_assign (h : w.Sound) (hi : w.sockets i ≠ none) (hj : w.sockets j ≠ none) :
    wp kernel Orderly (Socket.assign i j) ec w fun _ _ w' => w'.Sound := by
  obtain ⟨n, hi⟩ := Option.ne_none_iff_exists'.mp hi
  obtain ⟨m, hj⟩ := Option.ne_none_iff_exists'.mp hj
  unfold Socket.assign
  split
  · rename_i hij
    refine wp_bind.mpr (wp_close h hi fun w₁ k h₁ hk hs₁ => ?_)
    have hi₁ : w₁.sockets i = some k := by rw [hs₁, Function.update_self]
    have hj₁ : w₁.sockets j = some m := by rw [hs₁, Function.update_of_ne (Ne.symm hij), hj]
    refine wp_bind.mpr (wp_fd hj₁ ?_)
    refine wp_bind.mpr (wp_setFd hi₁ ?_)
    refine wp_setFd (m := m) ?_ (h₁.move (State.owned_of_neg hi₁ hk) hij hj₁)
    rw [State.set_sockets, Function.update_of_ne (Ne.symm hij), hj₁]
  · exact h

theorem sound_destroy (h : w.Sound) (hi : w.sockets i ≠ none) :
    wp kernel Orderly (Socket.destroy i) ec w fun _ _ w' => w'.Sound := by
  obtain ⟨n, hi⟩ := Option.ne_none_iff_exists'.mp hi
  refine wp_bind.mpr (wp_close h hi fun w₁ m h₁ hm hs₁ => ?_)
  have hi₁ : w₁.sockets i = some m := by rw [hs₁, Function.update_self]
  refine wp_issue.mpr ⟨by simp [Orderly, hi₁], ?_⟩
  rintro - w' rfl
  exact h₁.set (State.owned_of_neg hi₁ hm) rfl

/-- Every operation is orderly and leaves every descriptor with one owner. -/
theorem sound_op (op : Op ι) (h : w.Sound) (ha : op.Allowed w) :
    wp kernel Orderly op.code ec w fun _ _ w' => w'.Sound := by
  cases op with
  | default i => exact wp_construct ha (h.set (State.owned_of_none ha) rfl)
  | ofFd i fd => exact sound_ofFd h ha.1 ha.2
  | moveFrom i j => exact sound_moveFrom h ha.1 ha.2
  | assign i j => exact sound_assign h ha.1 ha.2
  | close i =>
    obtain ⟨n, hi⟩ := Option.ne_none_iff_exists'.mp ha
    exact wp_close h hi fun w' _ h' _ _ => h'
  | connect i host port => exact wp_map.mpr (sound_connect h ha)
  | bind i port => exact wp_map.mpr (sound_bind h ha)
  | listen i backlog => exact wp_map.mpr (sound_listen h ha)
  | accept i result => exact sound_accept h ha.1 ha.2
  | destroy i => exact sound_destroy h ha

omit [DecidableEq ι] in
theorem sound_start (foreign : Set ℤ) : (State.start foreign : State ι).Sound where
  exclusive := .empty fun _ => rfl
  apart fd _ := Set.notMem_empty fd
  turn := .nil

theorem Run.sound {ops : List (Op ι)} (h : Run w ops w') (hw : w.Sound) : w'.Sound := by
  induction h with
  | nil => exact hw
  | snoc _ ha he ih => exact (sound_op _ ih ha).of_exec he

/-- Every open descriptor that sockets have obtained is owned by one live object, all have been
closed once for each time they were obtained but those that are still open, none is open without
an object, and whatever operation comes next keeps to that at each of its system calls. -/
structure Ownership (w : State ι) : Prop where
  owner : ∀ n ∈ w.held, ∃! i, w.sockets i = some n
  held : ∀ i n, w.sockets i = some n → 0 ≤ n → n ∈ w.held
  turn : InTurn w.log w.held
  none_left : (∀ i, w.sockets i = none) →
    w.held = ∅ ∧ ∀ n, ∃ k, eventsOf n w.log = rounds n k
  orderly : ∀ (op : Op ι) (ec : ErrorCode), op.Allowed w →
    wp kernel Orderly op.code ec w fun _ _ _ => True

/-- Descriptor ownership, for every sequence of operations. -/
theorem run_ownership (foreign : Set ℤ) (ops : List (Op ι)) (w : State ι)
    (h : Run (State.start foreign) ops w) : Ownership w := by
  have hw := h.sound (sound_start foreign)
  constructor
  · intro n hn
    obtain ⟨i, hi, huniq⟩ := hw.exclusive.existsUnique hn
    obtain ⟨hs, hpos⟩ := State.owned_eq_some_iff.mp hi
    exact ⟨i, hs, fun j hj => huniq j (State.owned_of_nonneg hj hpos)⟩
  · intro i n hi hn
    exact hw.exclusive.mem (State.owned_of_nonneg hi hn)
  · exact hw.turn
  · intro hnone
    have he := hw.exclusive.held_eq_empty fun i => State.owned_of_none (hnone i)
    exact ⟨he, (he ▸ hw.turn).of_empty⟩
  · intro op ec ha
    exact wp_mono (sound_op op hw ha) fun _ _ _ _ => trivial

/-- A descriptor is handed over to an object, moved to another one and closed by it. -/
theorem run_handed_over : ∃ w : State Bool, Run (State.start {7})
      ([] ++ [.ofFd false 7] ++ [.moveFrom true false] ++ [.destroy false] ++ [.destroy true]) w ∧
    w.log = [.acquired 7, .released 7] ∧ Ownership w := by
  let w₁ : State Bool := ⟨Function.update (fun _ => none) false (some 7), {7}, ∅, [.acquired 7]⟩
  let w₂ := (w₁.set true (some 7)).set false (some (-1))
  let w₃ := w₂.set false none
  let w₄ : State Bool := { w₃ with held := {7} \ {7}, log := [.acquired 7, .released 7] }
  have h₁ : Run (State.start {7}) ([] ++ [.ofFd false 7]) w₁ := by
    refine @Run.snoc Bool _ _ _ _ _ _ none ((), none) (.nil _) ⟨rfl, fun _ => rfl⟩ ?_
    refine .call (r := ()) rfl (.call (r := ()) ?_ (.ret _ _))
    simp [kernel, State.start, State.set, w₁]
  have h₂ : Run (State.start {7}) ([] ++ [.ofFd false 7] ++ [.moveFrom true false]) w₂ :=
    @Run.snoc Bool _ _ _ _ _ _ none ((), none) h₁ ⟨rfl, nofun⟩
      (.call ⟨rfl, rfl⟩ (.call (r := ()) rfl (.call (r := ()) rfl (.ret _ _))))
  have h₃ : Run (State.start {7})
      ([] ++ [.ofFd false 7] ++ [.moveFrom true false] ++ [.destroy false]) w₃ :=
    @Run.snoc Bool _ _ _ _ _ _ none ((), none) h₂ nofun
      (.call ⟨rfl, rfl⟩ (.call (r := ()) rfl (.ret _ _)))
  have h₄ : Run (State.start {7})
      ([] ++ [.ofFd false 7] ++ [.moveFrom true false] ++ [.destroy false] ++ [.destroy true])
      ((w₄.set true (some (-1))).set true none) := by
    refine @Run.snoc Bool _ _ _ _ _ _ none ((), none) h₃ nofun ?_
    refine .call ⟨rfl, rfl⟩ (.call (r := ()) ?_ (.call (r := ()) rfl (.call (r := ()) rfl
      (.ret _ _))))
    exact (⟨rfl, rfl, rfl, by simp [w₄, w₃, w₂, w₁, State.set, State.Apart]⟩ : kernel w₃ (.close true 7) () w₄)
  exact ⟨_, h₄, rfl, run_ownership _ _ _ h₄⟩

end Xfer.Net.Lifetime
