import Xfer.Cli.Commands

/-! # Which command is first

A command that listens comes to wait at its port. Once it does, the one who
dials is not refused there, so the files arrive. Two commands that both listen
wait for ever, and two that both dial give up.
-/

namespace Xfer.Cli

open Net Transfer Posix Process Code Program FileSystem Lifetime

variable {net : Resolver} {e e' : Endpoint Object} {h : Host} {port : ℤ} {host : Bytes}
  {work work' : Main Bool} {fs g : FileSystem} {std std' : StdSort} {signals signals' cap : ℕ}
  {argv argv' : List Bytes} {opts opts' : Options} {root : Bytes} {base o : Key}

section Listening

/-- A party that listens somewhere has a place. -/
def Placed (p : Proc) (place : Option ℤ) : Prop := p.endpoint.listening ≠ none → place ≠ none

theorem listening_of_solo {ι : Type} [DecidableEq ι] {e e' : Endpoint ι} {c : Lifetime.Call ι}
    {d : Deed UInt8 ℤ} {r : c.Result} {answers : ℤ → Prop} {a a' : Option ℤ}
    (hi : e.listening ≠ none → a ≠ none) (hd : switchboard net False e c d r e')
    (hs : d.solo answers a a') : e'.listening ≠ none → a' ≠ none := by
  have hsame : e'.listening = e.listening → a' = a → e'.listening ≠ none → a' ≠ none := fun he ha => by
    rwa [he, ha]
  cases c with
  | listen fd backlog =>
    cases r with
    | true =>
      obtain ⟨x, -, rfl, -⟩ := hd
      obtain rfl : a' = some x := hs
      exact fun _ => nofun
    | false =>
      obtain ⟨rfl, rfl, -⟩ := hd
      exact hsame rfl hs
  | close self fd =>
    obtain ⟨rfl, rfl⟩ := hd
    by_cases hl : e.listening = some fd
    · exact fun hno => absurd (by simp [Endpoint.release, hl]) hno
    · rw [if_neg hl] at hs
      obtain rfl : a' = a := hs
      refine fun hno => hi fun hnone => hno ?_
      simp [Endpoint.release, hnone]
  | connect fd addr =>
    cases r with
    | true =>
      obtain ⟨x, -, rfl, -⟩ := hd
      exact hs.elim
    | false =>
      obtain ⟨rfl, ⟨rfl, -⟩ | ⟨x, -, rfl⟩⟩ := hd
      · exact hsame rfl hs
      · exact hsame rfl hs.1
  | accept fd =>
    obtain ⟨rfl, -⟩ | ⟨rfl, -, -, rfl⟩ := hd
    · exact hs.elim
    · exact hsame rfl hs
  | socket domain type protocol =>
    obtain ⟨rfl, ⟨-, rfl⟩ | ⟨-, -, rfl⟩⟩ := hd <;> exact hsame rfl hs
  | bind fd port =>
    cases r with
    | true =>
      obtain ⟨rfl, rfl⟩ := hd
      exact hsame rfl hs
    | false =>
      obtain ⟨rfl, rfl, -⟩ := hd
      exact hsame rfl hs
  | fd i =>
    obtain ⟨rfl, rfl, -⟩ := hd
    exact hsame rfl hs
  | getaddrinfo host port =>
    obtain ⟨rfl, rfl, -⟩ := hd
    exact hsame rfl hs
  | _ =>
    obtain ⟨rfl, rfl⟩ := hd
    exact hsame rfl hs

theorem placed_of_solo {p p' : Proc} {c : Sys} {d : Deed UInt8 ℤ} {r : c.Result} {a a' : Option ℤ}
    {answers : ℤ → Prop} (hi : Placed p a) (hd : process net False .none p c d r p')
    (hs : d.solo answers a a') : Placed p' a' := by
  cases c with
  | socket c => exact listening_of_solo hi hd.2 hs
  | session c =>
    obtain ⟨he, ⟨-, act, rfl, -⟩ | ⟨-, rfl, -⟩⟩ := hd
    · cases act with
      | silent =>
        obtain rfl : a' = a := hs
        rwa [Placed, he]
      | _ => exact hs.elim
    · obtain rfl : a' = a := hs
      rwa [Placed, he]

theorem listening_of_waiting {α : Type} {p : Program Sys.Result α} {u : Proc}
    (hp : Waiting (process net False .none) p u) : u.endpoint.listening ≠ none := by
  obtain ⟨c, k, -, ⟨r, u', hd⟩, -⟩ := hp
  cases c with
  | session c =>
    obtain ⟨-, ⟨-, act, he, -⟩ | ⟨-, he, -⟩⟩ := hd <;> cases he
  | socket c =>
    by_cases hplain : Lifetime.Plain c
    · rcases deed_of_plain hplain hd.2 with he | he <;> cases he
    · cases c with
      | accept fd =>
        obtain ⟨-, ⟨-, hl, -⟩ | ⟨he, -⟩⟩ := hd
        · simp [hl]
        · cases he
      | listen fd backlog =>
        cases r with
        | true => obtain ⟨-, x, -, he, -⟩ := hd; cases he
        | false => cases hd.2.1
      | connect fd addr =>
        cases r with
        | true => obtain ⟨-, x, -, he, -⟩ := hd; cases he
        | false => obtain ⟨-, -, ⟨he, -⟩ | ⟨x, -, he⟩⟩ := hd <;> cases he
      | _ => exact absurd trivial hplain

end Listening

/-- The name of the host that is dialled resolves to an address that leads to the port. -/
def Resolves (net : Resolver) (host : Bytes) (port : ℤ) : Prop :=
  ∃ info p, net.getaddrinfo host port = .ok info ∧ p ∈ info ∧ net.leads p.addr = some port

/-- A command that listens, started on its own, comes to wait at its port, ready for its session. -/
theorem inevitably_waiting {T : Book → Xfer.Call → Prop} {P : ℕ × Refs → World Proc UInt8 → Prop}
    {Y is : Bytes} (hport : port % 2 ^ 16 = port) (he : Unused e)
    (hwork : ∀ {e'}, Connected e' → Plays (paired net) (Turn T) P Y
      ((work >>= fun ok => finish (if ok then 0 else 3)).run {}) ⟨e', h⟩ [] is []) :
    Inevitably (Party.Step (process net False .none)) (fun y => y.place = some port ∧
        Waiting (process net False .none) y.program y.host ∧
        Plays (paired net) (Turn T) P Y y.program y.host [] is [])
      ⟨(command (bindAndAccept port .sock) work).run {}, ⟨e, h⟩, none⟩ := by
  have hlast : Lasting (process net False .none) fun p u =>
      Plays (paired net) (Turn T) P Y p u [] is [] := lasting_plays
  have hsolo : Solo (process net False .none) (· = port % 2 ^ 16) (fun u => u.host = h)
      (fun _ => True) (fun _ _ _ => False) (fun _ _ => False)
      ((command (bindAndAccept port .sock) work).run {}) ⟨e, h⟩ := solo_await he
  have hstart : Placed ⟨e, h⟩ none := fun hno => absurd he.listening hno
  refine (hsolo.inevitably_rests (process_prompt net) @hlast placed_of_solo (plays_await he hwork)
    hstart nofun).mono ?_
  rintro y ⟨⟨_, -, hno⟩ | ⟨hwait, -⟩, hplays, hplaced, hplace⟩
  · exact hno.elim
  · obtain ⟨x, hx⟩ := Option.ne_none_iff_exists'.mp (hplaced (listening_of_waiting hwait))
    exact ⟨by rw [hx, hplace x hx, hport], hwait, hplays⟩

section First

variable {receiving : ReceiverOptions} {X : Bytes}
  (hready : Ready net fs g base o X work work' receiving) (hcap : 0 < cap)
  (hreach : Resolves net host port)
include hready hcap hreach

theorem inevitably_copied_of_waiting {q : Program Sys.Result (ℕ × Refs)} {v : Proc} (he : Unused e)
    (hwait : Waiting (process net False .none) q v)
    (hq : Plays (paired net) (Turn ReceiverTurn) (ReceiverEnds fs g base o receiving) (encodeAck 0)
      q v [] X []) :
    Inevitably (Meeting.Step (process net False .none) cap) (Copied fs g base o receiving)
      (.apart ((command (dialOut host port .sock) work).run {}) ⟨e, ⟨fs, none⟩⟩ none q v (some port)) := by
  have hsolo : Solo (process net False .none) (fun _ => False) (fun _ => False) (· ≠ port) _ _
      ((command (dialOut host port .sock) work).run {}) ⟨e, ⟨fs, none⟩⟩ :=
    solo_dial_plays he hready.sender
  refine Meeting.inevitably_met (process_prompt net) (fun hj => inevitably_copied hcap hj.2 hq)
    (fun _ hd => hd) ?_ hsolo hwait
  rintro p u a (⟨_, -, -, -, hU⟩ | ⟨-, hno⟩) -
  · obtain ⟨info, p', hinfo, hp', hx⟩ := hreach
    exact absurd rfl (hU info hinfo p' hp' hx)
  · exact hno.elim

theorem inevitably_copied_of_waiting' {p : Program Sys.Result (ℕ × Refs)} {u : Proc} (he' : Unused e')
    (hwait : Waiting (process net False .none) p u)
    (hp : Plays (paired net) (Turn SenderTurn) SenderEnds X p u [] (encodeAck 0) []) :
    Inevitably (Meeting.Step (process net False .none) cap) (Copied fs g base o receiving)
      (.apart p u (some port)
        ((command (dialOut host port .sock) work').run {}) ⟨e', ⟨g, none⟩⟩ none) := by
  have hsolo : Solo (process net False .none) (fun _ => False) (fun _ => False) (· ≠ port) _ _
      ((command (dialOut host port .sock) work').run {}) ⟨e', ⟨g, none⟩⟩ :=
    solo_dial_plays he' hready.receiver
  -- the meeting the other way round
  have hend : Inevitably (Meeting.Step (process net False .none) cap)
      (fun m => Copied fs g base o receiving m.swap)
      (.apart ((command (dialOut host port .sock) work').run {}) ⟨e', ⟨g, none⟩⟩ none p u (some port)) := by
    refine Meeting.inevitably_met (process_prompt net)
      (fun hj => Net.inevitably_swap (inevitably_copied hcap hp hj.2))
      (fun _ hd => hd) ?_ hsolo hwait
    rintro q v a (⟨_, -, -, -, hU⟩ | ⟨-, hno⟩) -
    · obtain ⟨info, p', hinfo, hp', hx⟩ := hreach
      exact absurd rfl (hU info hinfo p' hp' hx)
    · exact hno.elim
  refine (Meeting.inevitably_swap hend).mono fun m hm => ?_
  rwa [Meeting.swap_swap] at hm

end First

theorem port_mod (h : parse argv {} = .ok opts) : opts.port.toInt % 2 ^ 16 = opts.port.toInt := by
  have := port_of_parse h
  omega

/-- Where the command that listens is first, the files always arrive: started on its own it comes to
where, if the other one is started then, nothing can keep them from it. -/
theorem commands_copy (hp : Partners argv argv' opts opts') (hport : opts.port = opts'.port)
    (hreach : ∀ opts₁ ∈ [opts, opts'], awaits opts₁ = false →
      Resolves net opts₁.host opts₁.port.toInt)
    (he : Unused e) (he' : Unused e') (hs : Addressable fs) (ht : Tree fs root base)
    (hrec : opts.recursive = true) (hpaths : opts.paths = [root])
    (hc : Clear (receiverOptions opts') g o (fs.files base))
    (hb : ∀ ns b, (ns, b) ∈ fs.files base → backslash ∉ ns) (hcap : 0 < cap) :
    (awaits opts = true → Inevitably (Party.Step (process net False .none))
      (fun y => Inevitably (Meeting.Step (process net False .none) cap)
        (Copied fs g base o (receiverOptions opts')) (.apart y.program y.host y.place
          ((main std' signals' argv').run {}) ⟨e', ⟨g, none⟩⟩ none))
      ⟨(main std signals argv).run {}, ⟨e, ⟨fs, none⟩⟩, none⟩) ∧
    (awaits opts' = true → Inevitably (Party.Step (process net False .none))
      (fun y => Inevitably (Meeting.Step (process net False .none) cap)
        (Copied fs g base o (receiverOptions opts'))
          (.apart ((main std signals argv).run {}) ⟨e, ⟨fs, none⟩⟩ none y.program y.host y.place))
      ⟨(main std' signals' argv').run {}, ⟨e', ⟨g, none⟩⟩, none⟩) := by
  obtain ⟨X, hready⟩ := exists_ready net std signals hs ht hrec hpaths hc hb
  rw [main_send hp.sends.1 hp.sends.2, main_receive hp.receives.1 hp.receives.2]
  constructor
  · intro ha
    have hd : awaits opts' = false := by rw [hp.roles, ha]; rfl
    have hreach' := hreach opts' (by simp) hd
    rw [← hport] at hreach'
    rw [ha, hd, getConnected, getConnected, if_pos rfl, if_neg (by simp), ← hport]
    refine (inevitably_waiting (port_mod hp.sends.1) he hready.sender).mono ?_
    rintro ⟨p, u, _⟩ ⟨rfl, hwait, hplays⟩
    exact inevitably_copied_of_waiting' hready hcap hreach' he' hwait hplays
  · intro ha
    have hd : awaits opts = false := by simpa [ha] using hp.roles
    have hreach' := hreach opts (by simp) hd
    rw [hport] at hreach'
    rw [ha, hd, getConnected, getConnected, if_pos rfl, if_neg (by simp), hport]
    refine (inevitably_waiting (port_mod hp.receives.1) he' hready.receiver).mono ?_
    rintro ⟨q, v, _⟩ ⟨rfl, hwait, hplays⟩
    exact inevitably_copied_of_waiting hready hcap hreach' he hwait hplays

theorem resolves_twoHosts (host : Bytes) : Resolves twoHosts host 9876 :=
  ⟨_, _, rfl, List.mem_singleton_self _, by decide⟩

/-- A receiver that is first is sent the files. -/
theorem nested_copied : Inevitably (Party.Step (process twoHosts False .none))
    (fun y => Inevitably (Meeting.Step (process twoHosts False .none) 1)
      (Copied nested .empty [] [] { outputDir := rootName })
        (.apart ((main insertionSort 0 sendArgv).run {})
          ⟨{ state := State.start ∅ }, ⟨nested, none⟩⟩ none y.program y.host y.place))
    ⟨(main insertionSort 0 receiveArgv).run {}, ⟨{ state := State.start ∅ }, ⟨.empty, none⟩⟩,
      none⟩ := by
  refine (commands_copy partners_example rfl ?_ unused_start unused_start addressable_nested
    tree_nested rfl rfl clear_nested plain_nested Nat.one_pos).2 rfl
  rintro opts₁ h₁ -
  rcases List.mem_pair.mp h₁ with rfl | rfl <;> exact resolves_twoHosts _

/-- Both commands wait for ever, or both have given up; nothing has changed on their hosts. -/
def Stranded (net : Resolver) (cap : ℕ) (waits : Bool) (h g : Host)
    (m : Meeting Sys.Result Proc UInt8 ℤ (ℕ × Refs) (ℕ × Refs)) : Prop :=
  (¬ ∃ m', Meeting.Step (process net False .none) cap m m') ∧ match m with
  | .joined _ => False
  | .apart p u _ q v _ => u.host = h ∧ v.host = g ∧ if waits then
      Waiting (process net False .none) p u ∧ Waiting (process net False .none) q v
    else (∃ s, p = ret (2, s)) ∧ ∃ t, q = ret (2, t)

/-- A command, either of them. -/
structure Transfers (argv : List Bytes) (opts : Options) : Prop where
  parses : parse argv {} = .ok opts
  mode : opts.mode = .send ∨ opts.mode = .receive

theorem Transfers.exists_work (h : Transfers argv opts) (std : StdSort) (signals : ℕ) :
    ∃ work, main std signals argv = command (getConnected opts (awaits opts)) work := by
  rcases h.mode with hm | hm
  · exact ⟨_, main_send h.parses hm⟩
  · exact ⟨_, main_receive h.parses hm⟩

/-- Two commands that both listen, or that both dial, never get connected. -/
theorem commands_stranded (hp : Transfers argv opts) (hp' : Transfers argv' opts')
    (hroles : awaits opts' = awaits opts) (he : Unused e) (he' : Unused e') :
    Inevitably (Meeting.Step (process net False .none) cap)
      (Stranded net cap (awaits opts) ⟨fs, none⟩ ⟨g, none⟩)
      (started std std' signals signals' argv argv' e e' fs g) := by
  obtain ⟨work, hmain⟩ := hp.exists_work std signals
  obtain ⟨work', hmain'⟩ := hp'.exists_work std' signals'
  have hany : Lasting (process net False .none) fun (_ : Program Sys.Result (ℕ × Refs)) _ => True :=
    fun _ _ => trivial
  unfold started
  rw [hmain, hmain', hroles]
  cases awaits opts with
  | true =>
    have hsolo : Solo (process net False .none) (· = opts.port.toInt % 2 ^ 16)
        (fun u => u.host = ⟨fs, none⟩) (fun _ => True) (fun _ _ _ => False) (fun _ _ => False)
        ((command (bindAndAccept opts.port.toInt .sock) work).run {}) ⟨e, ⟨fs, none⟩⟩ := solo_await he
    have hsolo' : Solo (process net False .none) (· = opts'.port.toInt % 2 ^ 16)
        (fun v => v.host = ⟨g, none⟩) (fun _ => True) (fun _ _ _ => False) (fun _ _ => False)
        ((command (bindAndAccept opts'.port.toInt .sock) work').run {}) ⟨e', ⟨g, none⟩⟩ :=
      solo_await he'
    refine Meeting.inevitably (process_prompt net) @hany @hany
      (fun hj => hj.elim) (fun hj => hj.elim) (fun _ (hd : False) => hd.elim) ?_ hsolo hsolo' trivial trivial
      nofun nofun
    rintro p u a q v b (⟨_, -, hno⟩ | ⟨hwait, hhost⟩) (⟨_, -, hno'⟩ | ⟨hwait', hhost'⟩) hfinal
    · exact hno.elim
    · exact hno.elim
    · exact hno'.elim
    · exact ⟨hfinal, hhost, hhost', hwait, hwait'⟩
  | false =>
    have hsolo : Solo (process net False .none) (fun _ => False) (fun _ => False) (fun _ => True)
        (fun _ _ _ => True) _
        ((command (dialOut opts.host opts.port.toInt .sock) work).run {}) ⟨e, ⟨fs, none⟩⟩ :=
      solo_dial he fun _ => trivial
    have hsolo' : Solo (process net False .none) (fun _ => False) (fun _ => False) (fun _ => True)
        (fun _ _ _ => True) _
        ((command (dialOut opts'.host opts'.port.toInt .sock) work').run {}) ⟨e', ⟨g, none⟩⟩ :=
      solo_dial he' fun _ => trivial
    refine Meeting.inevitably (process_prompt net) @hany @hany
      (fun _ hno => hno.elim) (fun _ hno => hno.elim) (fun _ (hd : False) => hd.elim) ?_ hsolo hsolo' trivial
      trivial nofun nofun
    rintro p u a q v b (⟨⟨_, s⟩, rfl, rfl, hhost, -⟩ | ⟨-, hno⟩)
      (⟨⟨_, t⟩, rfl, rfl, hhost', -⟩ | ⟨-, hno'⟩) hfinal
    · exact ⟨hfinal, hhost, hhost', ⟨s, rfl⟩, t, rfl⟩
    · exact hno'.elim
    · exact hno.elim
    · exact hno.elim

/-- Two commands `xfer recv -o /` wait for ever. -/
theorem receivers_stranded : Inevitably (Meeting.Step (process twoHosts False .none) 1)
    (Stranded twoHosts 1 true ⟨.empty, none⟩ ⟨.empty, none⟩)
    (started insertionSort insertionSort 0 0 receiveArgv receiveArgv { state := State.start ∅ }
      { state := State.start ∅ } .empty .empty) :=
  have hp : Transfers receiveArgv { mode := .receive, outputDir := rootName } :=
    ⟨(parse_argv (begins_some _ _)).trans rfl, Or.inr rfl⟩
  commands_stranded hp hp rfl unused_start unused_start

end Xfer.Cli
