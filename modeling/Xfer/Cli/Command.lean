import Xfer.Cli.Line
import Xfer.Cli.Run

/-! # What the commands have in common

Both runners get connected, hand the connection over to their session, and close
it. They differ in how they get connected and in the session.
-/

namespace Xfer.Cli

open Net Transfer Process Code Program Lifetime

variable {α : Type} {std : StdSort} {signals : ℕ} {opts : Options} {argv : List Bytes}

theorem run_member_bind (x : Member Object α) {β : Type} (f : α → Main β) (s : Refs) :
    (member x >>= f).run s =
      Program.embed Sys.socket (fun _ r => r) (x.run s.ec) >>= fun r => (f r.1).run { s with ec := r.2 } := by
  rw [StateT.run_bind]
  exact bind_assoc ..

theorem run_session_bind (x : Session α) {β : Type} (f : α → Main β) (s : Refs) :
    (session x >>= f).run s =
      Program.embed Sys.session (fun _ r => r) (x.run s) >>= fun r => (f r.1).run r.2 := by
  rw [StateT.run_bind]
  exact bind_assoc ..

/-- The end of a runner. -/
def finish (code : ℕ) : Main ℕ := do
  member (Lifetime.Socket.destroy .sock)
  pure code

/-- A runner that gets connected in some way. -/
def command (connect : Member Object Bool) (work : Main Bool) : Main ℕ := do
  member (Lifetime.Socket.default .sock)
  if ← member connect then
    let ok ← work
    finish (if ok then 0 else 3)
  else finish 2

/-- The session of the sender, on the descriptor that is connected. -/
def sending (std : StdSort) (signals : ℕ) (opts : Options) : Main Bool := do
  let fd ← member (Lifetime.issue (.fd .sock))
  session (sendPaths std ⟨fd⟩ signals opts.paths (senderOptions opts))

def receiving (opts : Options) : Main Bool := session (receiveStream (receiverOptions opts))

/-- A command that does not listen dials. -/
def awaits (opts : Options) : Bool :=
  match opts.mode with
  | .send => opts.listen || opts.host.isEmpty
  | _ => opts.host.isEmpty

theorem runSend_eq (hm : opts.mode = .send) : runSend std signals opts =
    command (getConnected opts (awaits opts)) (sending std signals opts) := by
  unfold runSend command sending awaits finish
  rw [hm]
  simp only [bind_assoc]
  congr 1
  funext _
  congr 1
  funext ok
  cases ok
  · rfl
  · simp only [Bool.not_true, Bool.false_eq_true, if_false, if_true, bind_assoc]
    congr 1
    funext fd
    congr 1
    funext ok
    cases ok <;> rfl

theorem runReceive_eq (hm : opts.mode = .receive) : runReceive opts =
    command (getConnected opts (awaits opts)) (receiving opts) := by
  unfold runReceive command receiving awaits finish
  rw [hm]
  simp only [bind_assoc]
  congr 1
  funext _
  congr 1
  funext ok
  cases ok
  · rfl
  · simp only [Bool.not_true, Bool.false_eq_true, if_false, if_true, bind_assoc]
    congr 1
    funext ok
    cases ok <;> rfl

theorem main_send (h : parse argv {} = .ok opts) (hm : opts.mode = .send) :
    main std signals argv = command (getConnected opts (awaits opts)) (sending std signals opts) := by
  rw [← runSend_eq hm]
  simp [main, h, hm]

theorem main_receive (h : parse argv {} = .ok opts) (hm : opts.mode = .receive) :
    main std signals argv = command (getConnected opts (awaits opts)) (receiving opts) := by
  rw [← runReceive_eq hm]
  simp [main, h, hm]

theorem port_of_parse {o : Options} (h : parse argv opts = .ok o) :
    1 ≤ o.port.toInt ∧ o.port.toInt ≤ 65535 := by
  unfold parse at h
  split_ifs at h
  obtain ⟨_, -, h⟩ := bind_eq_ok.mp h
  obtain ⟨_, -, h⟩ := bind_eq_ok.mp h
  obtain ⟨rfl, -, hp⟩ := check_eq_ok_iff.mp h
  exact hp

end Xfer.Cli
