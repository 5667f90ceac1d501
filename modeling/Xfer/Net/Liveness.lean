import Xfer.Net.Exchange

/-! # Liveness of the kernel

The kernel answers every call, and only a call that waits for the peer needs the
peer for its answer. So a party alone always comes to an end.
-/

namespace Xfer.Net

open Process Posix Code Program

variable {f : Faults} {s : Refs} {w : Side}

theorem kernel_live (f : Faults) : Live (kernel f) Call.Reads Call.Writes where
  offers h c := by
    cases c with
    | send data =>
      cases data with
      | nil => exact Or.inl ⟨.ok ⟨0, le_rfl⟩, h, rfl, Or.inl ⟨rfl, rfl, Or.inl rfl⟩⟩
      | cons b data =>
        refine Or.inr (Or.inl ⟨trivial, ⟨b, .ok ⟨1, by simp⟩, h, rfl, Or.inr ⟨rfl, Nat.one_pos⟩⟩, ?_⟩)
        exact ⟨.error .brokenPipe, h, rfl, Or.inr ⟨rfl, rfl, by simp⟩⟩
    | recv len =>
      cases len with
      | zero => exact Or.inl ⟨.ok ⟨[], le_rfl⟩, h, rfl, Or.inl ⟨rfl, rfl, rfl⟩⟩
      | succ len =>
        refine Or.inr (Or.inr ⟨trivial, fun b => ?_, ?_⟩)
        · exact ⟨.ok ⟨[b], by simp⟩, h, rfl, Or.inr (Or.inl ⟨rfl, by simp⟩)⟩
        · exact ⟨.ok ⟨[], by simp⟩, h, rfl, Or.inr (Or.inr ⟨rfl, rfl, by simp⟩)⟩
    | sendfile signals fd offset want =>
      cases hr : h.readable fd offset with
      | none => exact Or.inl ⟨.error .ioError, h, rfl, Or.inl ⟨rfl, Or.inr (Or.inr hr)⟩⟩
      | some c =>
        by_cases hz : c = [] ∨ want = 0
        · exact Or.inl ⟨.sent 0 (Nat.zero_le _), h, rfl, c, hr, Or.inl ⟨rfl, rfl, hz⟩⟩
        · obtain ⟨hc, hw⟩ := not_or.mp hz
          obtain ⟨b, c, rfl⟩ := List.exists_cons_of_ne_nil hc
          refine Or.inr (Or.inl ⟨trivial, ⟨b, .sent 1 (Nat.one_le_iff_ne_zero.mpr hw), h, rfl, _, hr,
            Or.inr ⟨rfl, Nat.one_pos, by simp⟩⟩, ?_⟩)
          exact ⟨.error .brokenPipe, h, rfl, Or.inr ⟨rfl, rfl, _, hr, hc, hw⟩⟩
    | look => exact Or.inl ⟨h.fs, h, rfl, rfl, rfl⟩
    | pathExists path => exact Or.inl ⟨h.fs.pathExists path, h, rfl, rfl, Or.inl rfl⟩
    | stat path => exact Or.inl ⟨h.fs.status path, h, rfl, rfl, Or.inl rfl⟩
    | relative path base => exact Or.inl ⟨h.fs.relative path base, h, rfl, rfl, Or.inl rfl⟩
    | iterate follow path =>
      exact Or.inl ⟨h.fs.recursiveDirectory follow path, h, rfl, rfl, Or.inl rfl⟩
    | currentPath => exact Or.inl ⟨h.fs.currentPath, h, rfl, rfl, rfl⟩
    | openRead path =>
      left
      by_cases hn : ∃ k, h.fs.locate path = some k ∧ h.fs.lookup k ≠ none
      · obtain ⟨k, hk, hn⟩ := hn
        exact ⟨some k, h, rfl, rfl, hk, hn⟩
      · refine ⟨none, h, rfl, rfl, Or.inr fun k hk => ?_⟩
        by_contra hne
        exact hn ⟨k, hk, hne⟩
    | pread fd want offset =>
      left
      cases hr : h.readable fd offset with
      | none => exact ⟨.error .ioError, h, rfl, rfl, Or.inr hr⟩
      | some c =>
        refine ⟨.ok ⟨c.take want, List.length_take_le _ _⟩, h, rfl, rfl, c, hr,
          List.take_prefix _ _, fun he => ?_⟩
        exact (List.take_eq_nil_iff.mp he).symm.imp_right id
    | close fd => exact Or.inl ⟨(), h, rfl, rfl⟩
    | createDirectories path =>
      exact Or.inl ⟨(), ⟨h.fs.createDirectories path, h.stream⟩, rfl, rfl, leads path,
        List.prefix_rfl, Or.inl rfl, rfl⟩
    | openTrunc path =>
      left
      cases ho : h.fs.openTrunc path with
      | none => exact ⟨false, h, rfl, rfl, Or.inr ho⟩
      | some p => exact ⟨true, _, rfl, p.1, p.2, ho, rfl⟩
    | write data =>
      left
      obtain ⟨fs, _ | ⟨k, held⟩⟩ := h
      · exact ⟨false, _, rfl, rfl, rfl⟩
      · exact ⟨true, _, rfl, ⟨[], held ++ data, rfl, rfl⟩, Or.inl rfl⟩
    | closeStream =>
      left
      obtain ⟨fs, _ | ⟨k, held⟩⟩ := h
      · exact ⟨(), _, rfl, rfl⟩
      · exact ⟨(), _, rfl, held, [], (List.append_nil _).symm, Or.inl rfl, rfl⟩
    | elapsed => exact Or.inl ⟨0, h, rfl, rfl⟩
  out_of_hangup {h c r h'} hk := by
    cases c with
    | send data =>
      obtain ⟨rfl, hk⟩ := hk
      cases r with
      | ok n => rcases hk with ⟨ha, _⟩ | ⟨ha, _⟩ <;> cases ha
      | error e =>
        rcases hk with ⟨ha, _⟩ | ⟨_, _, hne⟩
        · cases ha
        · obtain ⟨b, data, rfl⟩ := List.exists_cons_of_ne_nil hne
          exact ⟨b, .ok ⟨1, by simp⟩, h', rfl, Or.inr ⟨rfl, Nat.one_pos⟩⟩
    | recv len =>
      obtain ⟨rfl, hk⟩ := hk
      cases r with
      | ok bs => rcases hk with ⟨ha, _⟩ | ⟨ha, _⟩ | ⟨ha, _⟩ <;> cases ha
      | error e => cases hk.1
    | sendfile signals fd offset want =>
      obtain ⟨rfl, hk⟩ := hk
      cases r with
      | sent n hn =>
        obtain ⟨_, _, ⟨ha, _⟩ | ⟨ha, _⟩⟩ := hk <;> cases ha
      | interrupted => cases hk
      | error e =>
        rcases hk with ⟨ha, _⟩ | ⟨_, _, c, hr, hc, hw⟩
        · cases ha
        · obtain ⟨b, c, rfl⟩ := List.exists_cons_of_ne_nil hc
          exact ⟨b, .sent 1 (Nat.one_le_iff_ne_zero.mpr hw), h', rfl, _, hr,
            Or.inr ⟨rfl, Nat.one_pos, by simp⟩⟩
    | _ => cases hk.1

theorem Always.exists_exec {α : Type} {x : Session α} {Q : α → Refs → Side → Prop}
    (h : Always f x s w Q) : ∃ a s' w', Exec (machine f) (x.run s) w (a, s') w' ∧ Q a s' w' := by
  obtain ⟨⟨a, s'⟩, w', he⟩ := Program.exists_exec (kernel_live f).alone_total (x.run s) w
  exact ⟨a, s', w', he, h.of_exec he⟩

/-- A property of every run is a property of some run. -/
theorem Always.exists {α : Type} {x : Session α} {Q : α → Refs → Side → Prop}
    (h : Always f x s w Q) : ∃ a s' w', Q a s' w' := by
  obtain ⟨a, s', w', -, hq⟩ := h.exists_exec
  exact ⟨a, s', w', hq⟩

theorem kernel_of_none {h h' : Host} {c : Call} {a : Action UInt8} {r : c.Result}
    (hk : kernel .none h c a r h') : kernel f h c a r h' := by
  cases c <;> simp only [kernel, Faults.none] at hk ⊢ <;> grind

theorem exec_of_none {α : Type} {p : Program Call.Result α} {w w' : Side} {a : α}
    (he : Exec (machine .none) p w a w') : Exec (machine f) p w a w' :=
  he.mono fun ⟨a, hk, ha⟩ => ⟨a, kernel_of_none hk, ha⟩

theorem Always.none {α : Type} {x : Session α} {Q : α → Refs → Side → Prop}
    (h : Always f x s w Q) : Always .none x s w Q :=
  ensures_iff_exec.mpr fun _ _ he => h.of_exec (exec_of_none he)

theorem Always.and {α : Type} {x : Session α} {Q Q' : α → Refs → Side → Prop}
    (h : Always f x s w Q) (h' : Always f x s w Q') :
    Always f x s w fun a s' w' => Q a s' w' ∧ Q' a s' w' :=
  ensures_iff_exec.mpr fun _ _ he => ⟨h.of_exec he, h'.of_exec he⟩

theorem Always.false_iff {x : Session Bool} {Q : Bool → Refs → Side → Prop} {v : Bool}
    (h : Always f x s w Q) (hv : ∀ {ok s' w'}, Q ok s' w' → ok = v) :
    (Always f x s w fun ok _ _ => ok = false) ↔ v = false := by
  constructor
  · intro h'
    obtain ⟨ok, s', w', hq, rfl⟩ := (h.and h').exists
    exact (hv hq).symm
  · rintro rfl
    exact wp_mono h fun _ _ _ => hv

end Xfer.Net
