import Xfer.Cli.Parse
import Xfer.Net.Endpoint
import Xfer.Process.Embedding
import Xfer.Transfer.Receiver
import Xfer.Transfer.Sender

/-! # The commands

`main` and the two runners of `cli`, which get a connection and hand it over to
a session. A process has an endpoint beside the host of its session; calls that
need the connection find it in the object `sock`.
-/

namespace Xfer.Cli

open Net Transfer Process Code Lifetime

/-- The socket objects of the runners and their helpers; `accepted` is what `Accept` returns. -/
inductive Object
  | sock | listener | accepted | s
  deriving DecidableEq

inductive Sys where
  | socket (c : Lifetime.Call Object)
  | session (c : Xfer.Call)

abbrev Sys.Result : Sys → Type
  | socket c => c.Result
  | session c => c.Result

abbrev Main := Code Sys.Result Refs

/-- A function of the socket objects; it shares the error code. -/
def member {α : Type} (x : Member Object α) : Main α :=
  Code.embed .socket (fun _ r => r) (·.ec) (fun s ec => { s with ec := ec }) x

def session {α : Type} (x : Session α) : Main α :=
  Code.embed .session (fun _ r => r) id (fun _ s => s) x

def bindAndAccept (port : ℤ) (out : Object) : Member Object Bool := do
  Lifetime.Socket.default .listener
  let ok ← (do
    if !(← Lifetime.Socket.bind .listener port) then pure false
    else if !(← Lifetime.Socket.listen .listener 16) then pure false
    else
      Lifetime.Socket.accept .listener .accepted
      Lifetime.Socket.assign out .accepted
      Lifetime.Socket.destroy .accepted
      Lifetime.Socket.valid out)
  Lifetime.Socket.destroy .listener
  pure ok

def dialOut (host : Bytes) (port : ℤ) (out : Object) : Member Object Bool := do
  Lifetime.Socket.default .s
  let ok ← (do
    if !(← Lifetime.Socket.connect .s host port) then pure false
    else
      Lifetime.Socket.assign out .s
      pure true)
  Lifetime.Socket.destroy .s
  pure ok

/-- What the sender is given of the command line. -/
def senderOptions (opts : Options) : SenderOptions where
  recursive := opts.recursive
  followSymlinks := opts.followSymlinks
  zeroCopy := !opts.noZeroCopy

/-- What the receiver is given of the command line. -/
def receiverOptions (opts : Options) : ReceiverOptions where
  outputDir := opts.outputDir
  createDir := true
  verifyCrc := !opts.noVerify

/-- Get a connection, as the one who waits or as the one who dials. -/
def getConnected (opts : Options) (awaits : Bool) : Member Object Bool :=
  if awaits then bindAndAccept opts.port.toInt .sock else dialOut opts.host opts.port.toInt .sock

variable (std : StdSort) (signals : ℕ) (opts : Options)

def runSend : Main ℕ := do
  member (Lifetime.Socket.default .sock)
  let code ← (do
    if !(← member (getConnected opts (opts.listen || opts.host.isEmpty))) then pure 2
    else
      let fd ← member (Lifetime.issue (.fd .sock))
      if !(← session (sendPaths std ⟨fd⟩ signals opts.paths (senderOptions opts))) then pure 3
      else pure 0)
  member (Lifetime.Socket.destroy .sock)
  pure code

def runReceive : Main ℕ := do
  member (Lifetime.Socket.default .sock)
  let code ← (do
    if !(← member (getConnected opts opts.host.isEmpty)) then pure 2
    else if !(← session (receiveStream (receiverOptions opts))) then pure 3
    else pure 0)
  member (Lifetime.Socket.destroy .sock)
  pure code

/-- `main(argc, argv)`: the exit code. -/
def main (argv : List Bytes) : Main ℕ :=
  match parse argv {} with
  | .error _ => pure 2
  | .ok opts =>
    match opts.mode with
    | .help | .version => pure 0
    | .send => runSend std signals opts
    | .receive => runReceive opts
    | .unset => pure 2

/-- A process, with what it has at hand to get connected and the host of its session. -/
structure Proc where
  endpoint : Endpoint Object
  host : Host

namespace Proc

/-- The object that the session is given holds the descriptor that is connected. -/
def Online (p : Proc) : Prop :=
  ∃ fd, p.endpoint.state.sockets .sock = some fd ∧ p.endpoint.connected = some fd

/-- The call does not need the connection, or there is one. -/
def Serves (p : Proc) (c : Xfer.Call) : Prop := c.Reads ∨ c.Writes → p.Online

end Proc

/-- What becomes of a call that needs a connection where there is none. -/
def badDescriptor : (c : Xfer.Call) → c.Result → Prop
  | .send _, r | .recv _, r => r = .error .badFileDescriptor
  | .sendfile .., r => r = .error .badFileDescriptor
  | _, _ => False

/-- What the calls of a process come back with, on a network and under faults of its session. One
that writes to a peer that is gone does not come back. -/
def process (net : Resolver) (outage : Prop) (f : Faults) : Switchboard Sys.Result Proc UInt8 ℤ :=
  fun p c d r p' =>
    match c, r with
    | .socket c, r => p'.host = p.host ∧ switchboard net outage p.endpoint c d r p'.endpoint
    | .session c, r => p'.endpoint = p.endpoint ∧
        ((p.Serves c ∧ ∃ a, d = .data a ∧ a ≠ .hangup ∧ Xfer.kernel f p.host c a r p'.host) ∨
          (¬ p.Serves c ∧ d = .data .silent ∧ p'.host = p.host ∧ badDescriptor c r))

/-- What a process can be killed by: the signal, which it neither ignores nor handles, or a
`filesystem_error`, which it does not catch. -/
inductive Death where
  | sigpipe
  | uncaught

/-- The calls that can throw: the increment of the iterator, and `current_path`. -/
def Throws : Xfer.Call → Prop
  | .iterate .. | .currentPath => True
  | _ => False

/-- The calls of a session in which its process is killed. -/
def fatal (f : Faults) (h : Host) (c : Xfer.Call) : Death → Prop
  | .sigpipe => ∃ r h', Xfer.kernel f h c .hangup r h'
  | .uncaught => f.scan ∧ Throws c

def kills (f : Faults) (p : Proc) : Sys → Death → Prop
  | .socket _, _ => False
  | .session c, d => p.Serves c ∧ fatal f p.host c d

end Xfer.Cli
