import Xfer.Net.Exchange

/-! # Counts

`Send` and `Recv` return the kernel's count as an `int`. Against every sequence
of results that the calls may have, `SendAll` and `RecvAll` cover their buffer
exactly as long as no count is too large for an `int`, and only then.
-/

namespace Xfer.Net

open Process Code

/-- A call and its result. -/
abbrev Entry := (c : Call) × c.Result

/-- The machine on which every call may have every result. It writes them down. -/
def noted : Machine Call.Result (List Entry) := fun log c r log' => log' = log ++ [⟨c, r⟩]

namespace Entry

/-- The bytes that a call has put into its buffer. -/
def piece : Entry → Bytes
  | ⟨.recv _, .ok bs⟩ => bs.1
  | _ => []

/-- How many bytes a call has transferred, which is none if it returns -1. -/
def moved : Entry → ℕ
  | ⟨.send _, .ok n⟩ => n.1
  | ⟨.recv _, .ok bs⟩ => bs.1.length
  | _ => 0

@[simp] theorem moved_send {data : Bytes} (n : { n : ℕ // n ≤ data.length }) :
    moved ⟨.send data, .ok n⟩ = n.1 := rfl

@[simp] theorem moved_recv {len : ℕ} (bs : { bs : Bytes // bs.length ≤ len }) :
    moved ⟨.recv len, .ok bs⟩ = bs.1.length := rfl

end Entry

open Entry

/-- How many bytes the calls have transferred. -/
def total (log : List Entry) : ℕ := (log.map moved).sum

/-- The contents of a buffer that the calls fill one after the other. -/
def filled (log : List Entry) : Bytes := log.flatMap piece

/-- The counts that an `int` can hold. -/
def Fits (t : Entry) : Prop := t.moved < 2 ^ 31

/-- The calls cover a buffer of `len` bytes: each is the one due after the bytes before it, and
the verdict is whether the counts add up to `len` before a call transfers nothing. -/
structure Covers (due : ℕ → Call) (len : ℕ) (log : List Entry) (ok : Bool) : Prop where
  consecutive : ∀ before t after, log = before ++ t :: after → t.1 = due (total before)
  verdict : ok = true ↔ (∀ t ∈ log, t.moved ≠ 0) ∧ total log = len
  stopped : ok = false → ∃ t ∈ log, t.moved = 0

variable {due : ℕ → Call} {len : ℕ} {t : Entry} {log : List Entry} {ok : Bool} {s : Refs}
  {data : Bytes}

@[simp] theorem total_nil : total [] = 0 := rfl

@[simp] theorem total_cons : total (t :: log) = t.moved + total log := by
  rw [total, List.map_cons, List.sum_cons]
  rfl

@[simp] theorem filled_cons : filled (t :: log) = t.piece ++ filled log := List.flatMap_cons

theorem covers_nil : Covers due 0 [] true where
  consecutive before t after he := by simp at he
  verdict := by simp
  stopped h := by cases h

theorem covers_cons (hd : t.1 = due 0) (ht : t.moved ≠ 0) (hl : t.moved ≤ len) :
    Covers due len (t :: log) ok ↔
      Covers (fun n => due (t.moved + n)) (len - t.moved) log ok := by
  constructor
  · intro h
    refine ⟨fun before u after he => ?_, ?_, fun hok => ?_⟩
    · rw [h.consecutive (t :: before) u after (by rw [he, List.cons_append]), total_cons]
    · rw [h.verdict, List.forall_mem_cons, and_iff_right ht, total_cons]
      refine and_congr_right fun _ => ?_
      omega
    · obtain ⟨u, hu, h0⟩ := h.stopped hok
      rcases List.mem_cons.mp hu with rfl | hu
      · exact absurd h0 ht
      · exact ⟨u, hu, h0⟩
  · intro h
    refine ⟨fun before u after he => ?_, ?_, fun hok => ?_⟩
    · rcases before with _ | ⟨b, before⟩
      · obtain ⟨rfl, -⟩ := List.cons.inj he
        exact hd
      · obtain ⟨rfl, he'⟩ := List.cons.inj he
        rw [h.consecutive before u after he', total_cons]
    · rw [h.verdict, List.forall_mem_cons, and_iff_right ht, total_cons]
      refine and_congr_right fun _ => ?_
      omega
    · obtain ⟨u, hu, h0⟩ := h.stopped hok
      exact ⟨u, List.mem_cons_of_mem _ hu, h0⟩

theorem covers_given_up (hd : t.1 = due 0) : Covers due len [t] false ↔ t.moved = 0 := by
  constructor
  · intro h
    obtain ⟨u, hu, h0⟩ := h.stopped rfl
    rwa [List.mem_singleton.mp hu] at h0
  · intro h0
    refine ⟨fun before u after he => ?_, ?_, fun _ => ⟨t, by simp, h0⟩⟩
    · rcases before with _ | ⟨b, before⟩
      · obtain ⟨rfl, -⟩ := List.cons.inj he
        exact hd
      · simp at he
    · simp [h0]

theorem not_covers_of_skip {u : Entry} (hu : u.1 ≠ due t.moved) :
    ¬ Covers due len (t :: u :: log) ok := fun h =>
  hu (by simpa using h.consecutive [t] u log rfl)

theorem moved_eq_zero_iff {n : ℕ} (h : toInt n ≤ 0) : n = 0 ↔ n < 2 ^ 31 := by
  constructor
  · omega
  · intro hn
    rw [toInt_of_lt hn] at h
    omega

theorem toNat_toInt_lt {n : ℕ} (h : 2 ^ 31 ≤ n) : (toInt n).toNat < n := by
  unfold toInt
  have := Int.bmod_lt (x := (n : ℤ)) (m := 2 ^ 32) (by omega)
  omega

/-- A first call whose count the loop takes to be positive. Only when the count is too large
does the loop go on in another place. -/
theorem covers_cons_iff_fits {k : ℤ} (hk : toInt t.moved = k) (h0 : ¬ k ≤ 0) (hd : t.1 = due 0)
    (hl : t.moved ≤ len) (hdue : ∀ a b, a < b → b ≤ len → due a ≠ due b)
    (hnext : len - k.toNat ≠ 0 → ∃ r rest, log = ⟨due k.toNat, r⟩ :: rest)
    (hlog : Covers (fun n => due (k.toNat + n)) (len - k.toNat) log ok ↔ ∀ u ∈ log, Fits u) :
    Covers due len (t :: log) ok ↔ ∀ u ∈ t :: log, Fits u := by
  rw [List.forall_mem_cons]
  rcases Nat.lt_or_ge t.moved (2 ^ 31) with hm | hm
  · rw [toInt_of_lt hm] at hk
    obtain rfl := hk
    rw [Int.toNat_natCast] at hlog
    rw [covers_cons hd (by omega) hl, hlog]
    exact (and_iff_right hm).symm
  · have hlt := toNat_toInt_lt hm
    rw [hk] at hlt
    obtain ⟨r, rest, rfl⟩ := hnext (by omega)
    refine iff_of_false (not_covers_of_skip (hdue _ _ hlt hl)) fun h => ?_
    exact absurd h.1 (Nat.not_lt.mpr hm)

/-- What `SendAll` has to do with its calls. -/
abbrev Sends (data : Bytes) (log : List Entry) (ok : Bool) : Prop :=
  Covers (fun n => .send (data.drop n)) data.length log ok

/-- What `RecvAll` has to do with its calls, and what its buffer holds when it succeeds. -/
structure Receives (len : ℕ) (log : List Entry) (r : Option Bytes) : Prop where
  covers : Covers (fun n => .recv (len - n)) len log r.isSome
  contents : ∀ bs, r = some bs → bs = filled log

theorem wp_send_noted {Q : ℤ → Refs → List Entry → Prop} :
    wp noted (fun _ _ => True) (send data) s log Q ↔
      (∀ n, Q (toInt n.1) s (log ++ [⟨.send data, .ok n⟩])) ∧
        ∀ e, Q (-1) { s with ec := some e } (log ++ [⟨.send data, .error e⟩]) := by
  unfold send
  rw [wp_bind, perform, wp_issue]
  constructor
  · rintro ⟨-, h⟩
    constructor
    · intro n
      have := h (.ok n) _ rfl
      rwa [wp_pure] at this
    · intro e
      exact h (.error e) _ rfl
  · rintro ⟨hn, he⟩
    refine ⟨trivial, ?_⟩
    rintro (e | n) _ rfl
    · exact he e
    · rw [wp_pure]
      exact hn n

theorem wp_recv_noted {Q : ℤ × Bytes → Refs → List Entry → Prop} :
    wp noted (fun _ _ => True) (recv len) s log Q ↔
      (∀ bs, Q (toInt bs.1.length, bs.1) s (log ++ [⟨.recv len, .ok bs⟩])) ∧
        ∀ e, Q (-1, []) { s with ec := some e } (log ++ [⟨.recv len, .error e⟩]) := by
  unfold recv
  rw [wp_bind, perform, wp_issue]
  constructor
  · rintro ⟨-, h⟩
    constructor
    · intro bs
      have := h (.ok bs) _ rfl
      rwa [wp_pure] at this
    · intro e
      exact h (.error e) _ rfl
  · rintro ⟨hn, he⟩
    refine ⟨trivial, ?_⟩
    rintro (e | bs) _ rfl
    · exact he e
    · rw [wp_pure]
      exact hn bs

theorem wp_sendAll_noted :
    wp noted (fun _ _ => True) (sendAll data) s log fun ok _ log' =>
      ∃ calls, log' = log ++ calls ∧ (data ≠ [] → ∃ r rest, calls = ⟨.send data, r⟩ :: rest) ∧
        (∀ t ∈ calls, t.moved ≤ data.length) ∧ (Sends data calls ok ↔ ∀ t ∈ calls, Fits t) := by
  induction hn : data.length using Nat.strong_induction_on generalizing data log with
  | _ n ih =>
    unfold sendAll
    split
    · rename_i hd
      subst hd
      rw [wp_pure]
      exact ⟨[], by simp, by simp, by simp, iff_of_true covers_nil (by simp)⟩
    · rename_i hd
      have hpos := List.length_pos_iff.mpr hd
      have hdue : Call.send data = .send (data.drop 0) := by rw [List.drop_zero]
      rw [wp_bind, wp_send_noted]
      constructor
      · intro m
        generalize hk : toInt m = k
        by_cases h0 : k ≤ 0
        · rw [dif_pos h0, wp_pure]
          refine ⟨_, rfl, fun _ => ⟨_, _, rfl⟩, by simpa using hn ▸ m.2, ?_⟩
          rw [Sends, covers_given_up (by exact hdue)]
          simp only [List.forall_mem_singleton, Fits, moved_send]
          exact moved_eq_zero_iff (hk ▸ h0)
        · have hlt : (data.drop k.toNat).length < n := by rw [List.length_drop]; omega
          rw [dif_neg h0]
          apply wp_mono (ih _ hlt rfl)
          rintro ok _ _ ⟨calls, rfl, hnext, hle, hcalls⟩
          refine ⟨_ :: calls, List.append_assoc _ _ _, fun _ => ⟨_, _, rfl⟩, ?_, ?_⟩
          · exact List.forall_mem_cons.mpr ⟨hn ▸ m.2, fun t ht => (hle t ht).trans hlt.le⟩
          refine covers_cons_iff_fits hk h0 hdue m.2 (fun a b hab hb he => ?_) ?_ ?_
          · have := congrArg List.length (Call.send.inj he)
            rw [List.length_drop, List.length_drop] at this
            omega
          · rwa [← List.length_drop, ne_eq, List.length_eq_zero_iff]
          · simpa only [Sends, List.drop_drop, List.length_drop] using hcalls
      · intro e
        rw [dif_pos (by omega), wp_pure]
        refine ⟨_, rfl, fun _ => ⟨_, _, rfl⟩, by simp [moved], ?_⟩
        rw [Sends, covers_given_up (by exact hdue)]
        simp [Fits, moved]

theorem wp_recvAll_noted :
    wp noted (fun _ _ => True) (recvAll len) s log fun r _ log' =>
      ∃ calls, log' = log ++ calls ∧ (len ≠ 0 → ∃ r rest, calls = ⟨.recv len, r⟩ :: rest) ∧
        (∀ t ∈ calls, t.moved ≤ len) ∧
        (Covers (fun n => .recv (len - n)) len calls r.isSome ↔ ∀ t ∈ calls, Fits t) ∧
        ((∀ t ∈ calls, Fits t) → ∀ bs, r = some bs → bs = filled calls) := by
  induction len using Nat.strong_induction_on generalizing log with
  | _ len ih =>
    unfold recvAll
    split
    · rename_i hl
      subst hl
      rw [wp_pure]
      refine ⟨[], by simp, by simp, by simp, iff_of_true covers_nil (by simp), fun _ bs hbs => ?_⟩
      exact (Option.some.inj hbs).symm
    · rename_i hl
      rw [wp_bind, wp_recv_noted]
      constructor
      · intro ⟨buf, hbuf⟩
        generalize hk : toInt (buf.length) = k
        simp only
        by_cases h0 : k ≤ 0
        · rw [dif_pos h0]
          have hstop : Covers (fun n => .recv (len - n)) len [⟨.recv len, .ok ⟨buf, hbuf⟩⟩] false ↔
              ∀ t ∈ [(⟨.recv len, .ok ⟨buf, hbuf⟩⟩ : Entry)], Fits t := by
            rw [covers_given_up (by rfl)]
            simp only [List.forall_mem_singleton, Fits, moved_recv]
            exact moved_eq_zero_iff (hk ▸ h0)
          split <;>
            exact ⟨_, rfl, fun _ => ⟨_, _, rfl⟩, by simpa using hbuf, hstop, fun _ _ h => by cases h⟩
        · have hlt : len - k.toNat < len := by omega
          rw [dif_neg h0, wp_bind]
          apply wp_mono (ih _ hlt)
          rintro r _ _ ⟨calls, rfl, hnext, hle, hcalls, hfill⟩
          rw [wp_pure]
          refine ⟨_ :: calls, List.append_assoc _ _ _, fun _ => ⟨_, _, rfl⟩, ?_, ?_, ?_⟩
          · exact List.forall_mem_cons.mpr ⟨hbuf, fun t ht => (hle t ht).trans hlt.le⟩
          · rw [Option.isSome_map]
            refine covers_cons_iff_fits hk h0 rfl hbuf (fun a b hab hb he => ?_) hnext ?_
            · have := Call.recv.inj he
              omega
            · simpa only [Nat.sub_sub] using hcalls
          · intro hfits bs hbs
            rw [List.forall_mem_cons, Fits, moved_recv] at hfits
            obtain ⟨rest, rfl, rfl⟩ := Option.map_eq_some_iff.mp hbs
            rw [toInt_of_lt hfits.1] at hk
            rw [filled_cons, hfill hfits.2 rest rfl, ← hk, Int.toNat_natCast, List.take_length]
            rfl
      · intro e
        simp only
        rw [dif_pos (by omega), if_neg (by omega)]
        refine ⟨_, rfl, fun _ => ⟨_, _, rfl⟩, by simp [moved], ?_, fun _ _ h => by cases h⟩
        rw [Option.isSome_none, covers_given_up (by rfl)]
        simp [Fits, moved]

/-- `SendAll` and `RecvAll` cover their buffers, whatever the calls return, as long as every count
fits an `int`, and only then. -/
theorem cover_iff_fits (data : Bytes) (len : ℕ) (s : Refs) :
    wp noted (fun _ _ => True) (sendAll data) s [] (fun ok _ log =>
        Sends data log ok ↔ ∀ t ∈ log, Fits t) ∧
      wp noted (fun _ _ => True) (recvAll len) s [] fun r _ log =>
        Receives len log r ↔ ∀ t ∈ log, Fits t := by
  constructor
  · apply wp_mono wp_sendAll_noted
    rintro ok _ _ ⟨calls, rfl, -, -, h⟩
    exact h
  · apply wp_mono wp_recvAll_noted
    rintro r _ _ ⟨calls, rfl, -, -, h, hc⟩
    exact ⟨fun hr => h.mp hr.covers, fun hfits => ⟨h.mpr hfits, hc hfits⟩⟩

theorem not_sends_of_le (hl : 2 ^ 31 ≤ data.length) :
    ¬ wp noted (fun _ _ => True) (sendAll data) s [] fun ok _ log => Sends data log ok := by
  intro h
  have hd : data ≠ [] := List.length_pos_iff.mp (by omega)
  unfold sendAll at h
  rw [dif_neg hd, wp_bind, wp_send_noted] at h
  have hk : toInt (2 ^ 31) ≤ 0 := by decide
  generalize toInt = g at h hk
  have hall := h.1 ⟨2 ^ 31, hl⟩
  rw [dif_pos hk, wp_pure] at hall
  obtain ⟨t, ht, h0⟩ := hall.stopped rfl
  rw [List.nil_append, List.mem_singleton] at ht
  rw [ht, moved_send] at h0
  simp at h0

theorem not_receives_of_le (hl : 2 ^ 31 ≤ len) :
    ¬ wp noted (fun _ _ => True) (recvAll len) s [] fun r _ log => Receives len log r := by
  intro h
  unfold recvAll at h
  rw [dif_neg (by omega), wp_bind, wp_recv_noted] at h
  have hk : toInt (List.replicate (2 ^ 31) (0 : UInt8)).length < 0 := by
    rw [List.length_replicate]
    decide
  have hr : (List.replicate (2 ^ 31) (0 : UInt8)).length = 2 ^ 31 := List.length_replicate ..
  generalize List.replicate (2 ^ 31) (0 : UInt8) = buf at hk hr
  generalize toInt = g at h hk
  have hall := h.1 ⟨buf, by omega⟩
  simp only at hall
  rw [dif_pos hk.le, if_neg hk.ne, wp_pure] at hall
  obtain ⟨t, ht, h0⟩ := hall.covers.stopped rfl
  rw [List.nil_append, List.mem_singleton] at ht
  have h0 : buf.length = 0 := by rwa [ht] at h0
  omega

/-- Up to the range of an `int`, nothing can go wrong with the length of a buffer. -/
theorem always_covered_iff_lt :
    (wp noted (fun _ _ => True) (sendAll data) s [] (fun ok _ log => Sends data log ok) ↔
        data.length < 2 ^ 31) ∧
      (wp noted (fun _ _ => True) (recvAll len) s [] (fun r _ log => Receives len log r) ↔
        len < 2 ^ 31) := by
  constructor
  · constructor
    · exact fun h => Nat.lt_of_not_le fun hl => not_sends_of_le hl h
    · intro hl
      apply wp_mono wp_sendAll_noted
      rintro ok _ _ ⟨calls, rfl, -, hle, h⟩
      exact h.mpr fun t ht => (hle t ht).trans_lt hl
  · constructor
    · exact fun h => Nat.lt_of_not_le fun hl => not_receives_of_le hl h
    · intro hl
      apply wp_mono wp_recvAll_noted
      rintro r _ _ ⟨calls, rfl, -, hle, h, hc⟩
      have hfits := fun t ht => (hle t ht).trans_lt hl
      exact ⟨h.mpr hfits, hc hfits⟩

theorem huge_sendAll_not_covered :
    ¬ wp noted (fun _ _ => True) (sendAll (List.replicate (2 ^ 31) 0)) {} [] fun ok _ log =>
      Sends (List.replicate (2 ^ 31) 0) log ok :=
  not_sends_of_le (List.length_replicate ..).ge

end Xfer.Net
