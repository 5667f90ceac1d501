import Xfer.Cli.Command
import Xfer.Cli.Connecting
import Xfer.Net.Liveness
import Xfer.Transfer.Standstill

/-! # Commands that are connected

Once two processes are connected, their sessions see the kernel that they were
written for, and what they do with their sockets does not touch the connection.
So two processes never wait for each other at the same time, and what a session
does alone or next to any peer its command does.
-/

namespace Xfer.Cli

open Net Transfer Process Code Program Lifetime

variable {net : Resolver} {outage : Prop} {f : Faults} {T : Book → Xfer.Call → Prop}

theorem switchboard_silent {ι : Type} [DecidableEq ι] {e e' : Endpoint ι} {c : Lifetime.Call ι}
    {d : Deed UInt8 ℤ} {r : c.Result} (hd : switchboard net outage e c d r e') :
    (∃ x, d = .dial x) ∨ d.linked = some .silent := by
  by_cases hp : Plain c
  · rcases deed_of_plain hp hd with rfl | rfl <;> exact Or.inr rfl
  · cases c with
    | connect fd addr =>
      cases r with
      | true =>
        obtain ⟨x, -, rfl, -⟩ := hd
        exact Or.inl ⟨x, rfl⟩
      | false =>
        obtain ⟨-, ⟨rfl, -⟩ | ⟨x, -, rfl⟩⟩ := hd <;> exact Or.inr rfl
    | listen fd backlog =>
      cases r with
      | true =>
        obtain ⟨x, -, rfl, -⟩ := hd
        exact Or.inr rfl
      | false =>
        obtain rfl := hd.1
        exact Or.inr rfl
    | accept fd =>
      rcases hd with ⟨rfl, -⟩ | ⟨rfl, -⟩ <;> exact Or.inr rfl
    | _ => exact absurd trivial hp

/-- What two processes that are connected do. -/
abbrev paired (net : Resolver) : Kernel Sys.Result Proc UInt8 := linked (process net False .none)

namespace Sys

def Reads : Sys → Prop
  | socket _ => False
  | session c => c.Reads

def Writes : Sys → Prop
  | socket _ => False
  | session c => c.Writes

end Sys

theorem process_mirrors {h : Host} :
    Mirrors Sys.socket (fun _ r => r) (switchboard net outage) (process net outage f)
      fun p e => p = ⟨e, h⟩ := by
  rintro _ e c d r ⟨e', h'⟩ rfl ⟨rfl, hd⟩
  exact ⟨e', hd, rfl⟩

theorem process_prompt (net : Resolver) : Prompt (process net False .none) where
  answers p c := by
    cases c with
    | socket c =>
      obtain ⟨d, r, e', hd⟩ := (switchboard_prompt net False).answers p.endpoint c
      exact ⟨d, r, ⟨e', p.host⟩, rfl, hd⟩
    | session c =>
      by_cases hs : p.Serves c
      · have hdo : ∀ {a r h'}, Xfer.kernel .none p.host c a r h' → a ≠ .hangup →
            ∃ d r p', process net False .none p (.session c) d r p' := fun {a r h'} hk hne =>
          ⟨.data a, r, ⟨p.endpoint, h'⟩, rfl, Or.inl ⟨hs, a, rfl, hne, hk⟩⟩
        rcases (kernel_live .none).offers p.host c with
          ⟨r, h', hk⟩ | ⟨-, ⟨b, r, h', hk⟩, -⟩ | ⟨-, -, ⟨r, h', hk⟩⟩
        · exact hdo hk nofun
        · exact hdo hk nofun
        · exact hdo hk nofun
      · cases c with
        | send data =>
          exact ⟨.data .silent, .error .badFileDescriptor, p, rfl, Or.inr ⟨hs, rfl, rfl, rfl⟩⟩
        | recv len =>
          exact ⟨.data .silent, .error .badFileDescriptor, p, rfl, Or.inr ⟨hs, rfl, rfl, rfl⟩⟩
        | sendfile signals fd offset want =>
          exact ⟨.data .silent, .error .badFileDescriptor, p, rfl, Or.inr ⟨hs, rfl, rfl, rfl⟩⟩
        | _ => exact absurd (fun h => h.elim False.elim False.elim) hs
  dial_iff {p c x} := by
    cases c with
    | socket c =>
      have hdial := (switchboard_prompt net False).dial_iff (h := p.endpoint) (c := c) (x := x)
      constructor
      · rintro ⟨r, p', -, hd⟩
        obtain ⟨r, e', hd⟩ := hdial.mp ⟨r, _, hd⟩
        exact ⟨r, ⟨e', p.host⟩, rfl, hd⟩
      · rintro ⟨r, p', -, hd⟩
        obtain ⟨r, e', hd⟩ := hdial.mpr ⟨r, _, hd⟩
        exact ⟨r, ⟨e', p.host⟩, rfl, hd⟩
    | session c =>
      refine iff_of_false ?_ ?_
      · rintro ⟨r, p', -, ⟨-, a, he, -⟩ | ⟨-, he, -⟩⟩ <;> cases he
      · rintro ⟨r, p', -, ⟨-, a, he, -⟩ | ⟨-, he, -⟩⟩ <;> cases he

theorem paired_session {p p' : Proc} {c : Xfer.Call} {a : Action UInt8} {r : c.Result}
    (hp : p.Online) :
    paired net p (.session c) a r p' ↔
      p'.endpoint = p.endpoint ∧ a ≠ .hangup ∧ Xfer.kernel .none p.host c a r p'.host := by
  constructor
  · rintro ⟨d, ⟨he, ⟨-, a', rfl, hne, hk⟩ | ⟨hno, -⟩⟩, ha⟩
    · obtain rfl := Option.some.inj ha
      exact ⟨he, hne, hk⟩
    · exact absurd (fun _ => hp) hno
  · rintro ⟨he, hne, hk⟩
    exact ⟨.data a, ⟨he, Or.inl ⟨fun _ => hp, a, rfl, hne, hk⟩⟩, rfl⟩

theorem paired_socket {p p' : Proc} {c : Lifetime.Call Object} {a : Action UInt8} {r : c.Result} :
    paired net p (.socket c) a r p' ↔ a = .silent ∧ p'.host = p.host ∧
      silently (switchboard net False) p.endpoint c r p'.endpoint := by
  constructor
  · rintro ⟨d, ⟨hh, hd⟩, ha⟩
    rcases switchboard_silent hd with ⟨x, rfl⟩ | hs
    · cases ha
    · exact ⟨Option.some.inj (ha.symm.trans hs), hh, d, hd, hs⟩
  · rintro ⟨rfl, hh, d, hd, hs⟩
    exact ⟨d, ⟨hh, hd⟩, hs⟩

theorem paired_responsive (net : Resolver) : Responsive (paired net) Sys.Reads Sys.Writes where
  offers p c := by
    cases c with
    | socket c =>
      obtain ⟨d, r, e', hd⟩ := (switchboard_prompt net False).answers p.endpoint c
      left
      rcases switchboard_silent hd with ⟨x, rfl⟩ | hs
      · obtain ⟨r, e', hd⟩ := (switchboard_prompt net False).dial_iff.mp ⟨r, e', hd⟩
        exact ⟨r, ⟨e', p.host⟩, paired_socket.mpr ⟨rfl, rfl, _, hd, rfl⟩⟩
      · exact ⟨r, ⟨e', p.host⟩, paired_socket.mpr ⟨rfl, rfl, _, hd, hs⟩⟩
    | session c =>
      by_cases hs : p.Serves c
      · have hdo : ∀ {a r h'}, Xfer.kernel .none p.host c a r h' → a ≠ .hangup →
            paired net p (.session c) a r ⟨p.endpoint, h'⟩ := fun hk hne =>
          ⟨.data _, ⟨rfl, Or.inl ⟨hs, _, rfl, hne, hk⟩⟩, rfl⟩
        rcases (kernel_live .none).offers p.host c with
          ⟨r, h', hk⟩ | ⟨hw, ⟨b, r, h', hk⟩, -⟩ | ⟨hr, hin, ⟨r, h', hk⟩⟩
        · exact Or.inl ⟨r, _, hdo hk nofun⟩
        · exact Or.inr (Or.inl ⟨hw, b, r, _, hdo hk nofun⟩)
        · refine Or.inr (Or.inr ⟨hr, fun b => ?_, r, _, hdo hk nofun⟩)
          obtain ⟨r, h', hk⟩ := hin b
          exact ⟨r, _, hdo hk nofun⟩
      · left
        obtain ⟨d, r, p', he, ⟨hs', -⟩ | ⟨-, rfl, h⟩⟩ := (process_prompt net).answers p (.session c)
        · exact absurd hs' hs
        · exact ⟨r, p', _, ⟨he, Or.inr ⟨hs, rfl, h⟩⟩, rfl⟩
  out_of_hangup {p c r p'} hk := by
    cases c with
    | socket c => cases (paired_socket.mp hk).1
    | session c =>
      obtain ⟨d, ⟨he, ⟨-, a, rfl, hne, -⟩ | ⟨-, rfl, -⟩⟩, ha⟩ := hk
      · exact absurd (Option.some.inj ha) hne
      · cases ha

/-- When a process makes a call of its session that may have to wait. -/
def Turn (T : Book → Xfer.Call → Prop) (w : Ledger Proc UInt8) : Sys → Prop
  | .socket _ => True
  | .session c => T ⟨w.host.host, w.received, w.sent⟩ c

theorem turn_neverBothWait :
    NeverBothWait Sys.Reads Sys.Writes (Turn SenderTurn) (Turn ReceiverTurn) where
  reading {h g xs ys c d} hc hd hp hq := by
    cases c with
    | socket c => exact hc
    | session c =>
      cases d with
      | socket d => exact hd
      | session d => exact turns_neverBothWait.reading hc hd hp hq
  writing {h g xs ys tx ty c d} htx hty hc hd hp hq := by
    cases c with
    | socket c => exact hc
    | session c =>
      cases d with
      | socket d => exact hd
      | session d => exact turns_neverBothWait.writing htx hty hc hd hp hq

section Plays

variable {α β : Type} {e : Endpoint Object} {h : Host} {X ys is xs : Bytes} {s : Refs}

theorem Plays.of_silent {C H : Type} {R : C → Type} {K : Kernel R H UInt8}
    {G : Ledger H UInt8 → C → Prop} {P : α → World H UInt8 → Prop} {c : C} {k : R c → Program R α}
    {h : H} (hG : G ⟨h, ys, xs⟩ c)
    (hk : ∀ {a r h'}, K h c a r h' → a = .silent ∧ Plays K G P X (k r) h' ys is xs) :
    Plays K G P X (.call c k) h ys is xs where
  heeds := by
    refine ⟨hG, ?_⟩
    rintro r ⟨h', ys', xs'⟩ ⟨a, hd, ha⟩
    obtain ⟨rfl, hp⟩ := hk hd
    obtain ⟨rfl, rfl⟩ := ha
    exact hp.heeds
  ends := by
    refine ⟨trivial, ?_⟩
    rintro r ⟨h', is', xs'⟩ ⟨a, hd, ha⟩
    obtain ⟨rfl, hp⟩ := hk hd
    obtain ⟨rfl, rfl⟩ := ha
    exact hp.ends

theorem lasting_plays {C H : Type} {R : C → Type} {D : Switchboard R H UInt8 ℤ}
    {G : Ledger H UInt8 → C → Prop} {P : α → World H UInt8 → Prop} :
    Lasting D fun p h => Plays (linked D) G P X p h ys is xs := by
  intro c k h r h' hp hk
  exact ⟨hp.heeds.2 r ⟨h', ys, xs⟩ ⟨.silent, hk, rfl, rfl⟩,
    hp.ends.2 r ⟨h', is, xs⟩ ⟨.silent, hk, rfl, rfl⟩⟩

variable {P : α → World Proc UInt8 → Prop}

theorem plays_of_socket {x : Program Lifetime.Call.Result β} {Q : β → Endpoint Object → Prop}
    {k : β → Program Sys.Result α}
    (hx : Ensures (silently (switchboard net False)) (fun _ _ => True) x e Q)
    (hk : ∀ {b e'}, Q b e' → Plays (paired net) (Turn T) P X (k b) ⟨e', h⟩ ys is xs) :
    Plays (paired net) (Turn T) P X (Program.embed .socket (fun _ r => r) x >>= k) ⟨e, h⟩ ys is xs := by
  induction x generalizing e with
  | ret b => exact hk hx
  | call c l ih =>
    refine Plays.of_silent trivial ?_
    rintro a r ⟨e', h'⟩ hd
    obtain ⟨rfl, hh, hs⟩ := paired_socket.mp hd
    obtain rfl : h' = h := hh
    exact ⟨rfl, ih r (hx.2 r e' hs)⟩

/-- What a session ensures next to any peer, it ensures as part of its command. -/
theorem session_watched (he : Connected e) :
    Corresponds Sys.session (fun _ r => r) (watched (Xfer.kernel .none)) T (watched (paired net))
      (Turn T) fun w w' => w.host.endpoint = e ∧ w' = ⟨w.host.host, w.received, w.sent⟩ where
  guard := by
    rintro w _ c ⟨-, rfl⟩ hc
    exact hc
  step := by
    rintro ⟨⟨_, h⟩, ys, xs⟩ _ c r ⟨⟨e', h'⟩, ys', xs'⟩ ⟨rfl, rfl⟩ - ⟨a, hk, ha⟩
    obtain ⟨fd, -, hfd, hcon⟩ := he
    obtain ⟨he', -, hk⟩ := (paired_session ⟨fd, hfd, hcon⟩).mp hk
    exact ⟨⟨h', ys', xs'⟩, ⟨a, hk, ha⟩, he', rfl⟩

theorem session_alone (he : Connected e) :
    Corresponds Sys.session (fun _ r => r) (alone (Xfer.kernel .none)) (fun _ _ => True)
      (alone (paired net)) (fun _ _ => True)
      fun w w' => w.host.endpoint = e ∧ w' = ⟨w.host.host, w.incoming, w.outgoing⟩ where
  guard _ _ := trivial
  step := by
    rintro ⟨⟨_, h⟩, is, xs⟩ _ c r ⟨⟨e', h'⟩, is', xs'⟩ ⟨rfl, rfl⟩ - ⟨a, hk, ha⟩
    obtain ⟨fd, -, hfd, hcon⟩ := he
    obtain ⟨he', -, hk⟩ := (paired_session ⟨fd, hfd, hcon⟩).mp hk
    exact ⟨⟨h', is', xs'⟩, ⟨a, hk, ha⟩, he', rfl⟩

theorem plays_finish {code : ℕ} {P : ℕ × Refs → World Proc UInt8 → Prop} (he : Connected e)
    (hP : ∀ e', P (code, s) ⟨⟨e', h⟩, is, X⟩) :
    Plays (paired net) (Turn T) P X ((finish code).run s) ⟨e, h⟩ ys is X := by
  obtain ⟨fd, hfd, hs, -⟩ := he
  unfold finish
  rw [run_member_bind]
  have hclose : Calm net (fun _ _ => True) (Lifetime.Socket.destroy .sock) s.ec e
      fun _ ec _ => ec = s.ec :=
    local_destroy_of_nonneg calm_within (fun _ => trivial) hs hfd rfl
  refine plays_of_socket hclose ?_
  rintro ⟨_, ec⟩ e' hec
  obtain rfl : ec = s.ec := hec
  exact ⟨trivial, hP e', rfl⟩

/-- A session that plays its part alone plays it as part of its command, which is then done. -/
theorem plays_session {x : Session Bool} {P : Bool × Refs → Side → Prop}
    {A : ℕ × Refs → World Proc UInt8 → Prop} (he : Connected e)
    (hx : Plays (Xfer.kernel .none) T P X (x.run s) h ys is xs)
    (hA : ∀ {b s' h' is' e'}, P (b, s') ⟨h', is', X⟩ →
      A (if b then 0 else 3, s') ⟨⟨e', h'⟩, is', X⟩) :
    Plays (paired net) (Turn T) A X
      ((session x >>= fun ok => finish (if ok then 0 else 3)).run s) ⟨e, h⟩ ys is xs := by
  rw [run_session_bind]
  constructor
  · refine ensures_bind.mpr ((Ensures.embed (session_watched he) hx.heeds ⟨rfl, rfl⟩).mono
      (fun _ _ hg => hg) ?_)
    rintro ⟨b, s'⟩ ⟨⟨e', h'⟩, ys', xs'⟩ ⟨_, ⟨rfl, -⟩, -⟩
    have hfinish : Plays (paired net) (Turn T) (fun _ _ => True) xs'
        ((finish (if b then 0 else 3)).run s') ⟨e', h'⟩ ys' [] xs' := plays_finish he fun _ => trivial
    exact hfinish.heeds
  · refine ensures_bind.mpr ((Ensures.embed (session_alone he) hx.ends ⟨rfl, rfl⟩).mono
      (fun _ _ hg => hg) ?_)
    rintro ⟨b, s'⟩ ⟨⟨e', h'⟩, is', xs'⟩ ⟨_, ⟨rfl, rfl⟩, hp, hout⟩
    obtain rfl : xs' = X := hout
    have hfinish : Plays (paired net) (Turn T) A xs' ((finish (if b then 0 else 3)).run s')
        ⟨e', h'⟩ ys is' xs' := plays_finish he fun _ => hA hp
    exact hfinish.ends

end Plays

end Xfer.Cli
