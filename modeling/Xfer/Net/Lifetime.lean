import Xfer.Net.System
import Xfer.Process.Ownership

/-! # The lifetime of a socket object

`Socket` from its construction to its destruction. The objects' members are part
of the state, beside the process's descriptors, of which the system hands out
numbers that are not in use.
-/

namespace Xfer.Net.Lifetime

open Process

/-- A candidate of `getaddrinfo`. -/
structure AddrInfo where
  family : ℤ
  socktype : ℤ
  protocol : ℤ
  addr : Bytes

def afInet6 : ℤ := 10
def sockStream : ℤ := 1

variable {ι : Type}

/-- What member functions do to the objects `i : ι`, and the system calls they issue. -/
inductive Call (ι : Type)
  | construct (i : ι) (fd : ℤ)
  | fd (i : ι)
  | setFd (i : ι) (fd : ℤ)
  | drop (i : ι)
  | adopt (fd : ℤ)
  | getaddrinfo (host : Bytes) (port : ℤ)
  | socket (domain type protocol : ℤ)
  | connect (fd : ℤ) (addr : Bytes)
  | setsockopt (fd : ℤ)
  | bind (fd : ℤ) (port : ℤ)
  | listen (fd : ℤ) (backlog : ℤ)
  | accept (fd : ℤ)
  /-- The object whose function issues the call is named for the record. -/
  | close (self : ι) (fd : ℤ)
  | errno

abbrev Call.Result : Call ι → Type
  | fd _ | socket .. | accept _ => ℤ
  | getaddrinfo .. => Except ℤ (List AddrInfo)
  | connect .. | bind .. | listen .. => Bool
  | errno => Errc
  | _ => Unit

abbrev Member (ι : Type) := Code (Call.Result (ι := ι)) ErrorCode

def issue (c : Call ι) : Member ι c.Result := Code.issue c

def setEc (e : Errc) : Member ι Unit := set (some e)

def lastError : Member ι Unit := do setEc (← issue .errno)

def Socket.valid (self : ι) : Member ι Bool := do return 0 ≤ (← issue (.fd self))

def Socket.close (self : ι) : Member ι Unit := do
  let fd ← issue (.fd self)
  if 0 ≤ fd then
    issue (.close self fd)
    issue (.setFd self (-1))

/-- `Socket()`. -/
def Socket.default (self : ι) : Member ι Unit := issue (.construct self (-1))

/-- `Socket(fd)`; from now on the descriptor belongs to the object. -/
def Socket.ofFd (self : ι) (fd : ℤ) : Member ι Unit := do
  issue (.adopt fd)
  issue (.construct self fd)

/-- `Socket(Socket&&)`. -/
def Socket.moveFrom (self other : ι) : Member ι Unit := do
  issue (.construct self (← issue (.fd other)))
  issue (.setFd other (-1))

/-- `operator=(Socket&&)`. -/
def Socket.assign [DecidableEq ι] (self other : ι) : Member ι Unit := do
  if self ≠ other then
    Socket.close self
    issue (.setFd self (← issue (.fd other)))
    issue (.setFd other (-1))

/-- `~Socket()`. -/
def Socket.destroy (self : ι) : Member ι Unit := do
  Socket.close self
  issue (.drop self)

/-- The loop of `Connect` over the candidates. -/
def Socket.tryEach (self : ι) : List AddrInfo → Member ι Unit
  | [] => pure ()
  | p :: ps => do
    let fd ← issue (.socket p.family p.socktype p.protocol)
    issue (.setFd self fd)
    if fd < 0 then Socket.tryEach self ps
    else if ← issue (.connect fd p.addr) then pure ()
    else
      Socket.close self
      Socket.tryEach self ps

def Socket.connect (self : ι) (host : Bytes) (port : ℤ) : Member ι Bool := do
  Socket.close self
  match ← issue (.getaddrinfo host port) with
  | .error _ | .ok [] =>
    setEc .invalidArgument
    pure false
  | .ok (p :: ps) =>
    Socket.tryEach self (p :: ps)
    if ← Socket.valid self then pure true
    else
      lastError
      pure false

def Socket.bind (self : ι) (port : ℤ) : Member ι Bool := do
  Socket.close self
  let fd ← issue (.socket afInet6 sockStream 0)
  issue (.setFd self fd)
  if fd < 0 then
    lastError
    pure false
  else
    issue (.setsockopt fd)
    issue (.setsockopt fd)
    if ← issue (.bind fd (port % 2 ^ 16)) then pure true
    else
      lastError
      Socket.close self
      pure false

def Socket.listen (self : ι) (backlog : ℤ) : Member ι Bool := do
  if ← Socket.valid self then
    if ← issue (.listen (← issue (.fd self)) backlog) then pure true
    else
      lastError
      pure false
  else
    setEc .badFileDescriptor
    pure false

/-- `Accept`; the object that it returns is `result`. -/
def Socket.accept (self result : ι) : Member ι Unit := do
  let peer ← issue (.accept (← issue (.fd self)))
  if peer < 0 then
    lastError
    Socket.default result
  else issue (.construct result peer)

/-- The live objects with what they hold, the descriptors that are open, and what has become of
the objects' descriptors so far. -/
structure State (ι : Type) where
  sockets : ι → Option ℤ
  held : Set ℤ
  /-- The other open descriptors of the process. -/
  foreign : Set ℤ
  log : List (Event ℤ)

namespace State

def start (foreign : Set ℤ) : State ι := ⟨fun _ => none, ∅, foreign, []⟩

variable (w w' : State ι)

def set [DecidableEq ι] (i : ι) (v : Option ℤ) : State ι :=
  { w with sockets := Function.update w.sockets i v }

/-- No descriptor is both the objects' and the rest's. -/
def Apart : Prop := ∀ fd ∈ w.foreign, fd ∉ w.held

/-- Only the rest of the process opens and closes descriptors. -/
def Same : Prop :=
  w'.sockets = w.sockets ∧ w'.held = w.held ∧ w'.log = w.log ∧ w'.Apart

/-- A descriptor is opened under a number that is not in use, or none is. -/
def Obtains (fd : ℤ) : Prop :=
  (fd < 0 ∧ w.Same w') ∨
    (0 ≤ fd ∧ fd ∉ w.held ∧ fd ∉ w.foreign ∧ w'.sockets = w.sockets ∧
      w'.held = insert fd w.held ∧ w'.log = w.log ++ [.acquired fd] ∧
      w'.Apart)

end State

/-- What the calls do. -/
def kernel [DecidableEq ι] : Machine (Call.Result (ι := ι)) (State ι) := fun w c r w' =>
  match c, r with
  | .construct i fd, _ => w' = w.set i (some fd)
  | .fd i, fd => w.sockets i = some fd ∧ w' = w
  | .setFd i fd, _ => w' = w.set i (some fd)
  | .drop i, _ => w' = w.set i none
  | .adopt fd, _ => w' = if 0 ≤ fd then
      { w with held := insert fd w.held, foreign := w.foreign \ {fd},
               log := w.log ++ [.acquired fd] } else w
  | .socket .., fd => w.Obtains w' fd
  | .accept _, fd => w.Obtains w' fd
  | .close _ fd, _ => w'.sockets = w.sockets ∧ w'.held = w.held \ {fd} ∧
      w'.log = w.log ++ [.released fd] ∧ w'.Apart
  | _, _ => w.Same w'

/-- The operations on socket objects. -/
inductive Op (ι : Type)
  | default (i : ι)
  | ofFd (i : ι) (fd : ℤ)
  | moveFrom (i j : ι)
  | assign (i j : ι)
  | close (i : ι)
  | connect (i : ι) (host : Bytes) (port : ℤ)
  | bind (i : ι) (port : ℤ)
  | listen (i : ι) (backlog : ℤ)
  | accept (i result : ι)
  | destroy (i : ι)

def Op.code [DecidableEq ι] : Op ι → Member ι Unit
  | default i => Socket.default i
  | ofFd i fd => Socket.ofFd i fd
  | moveFrom i j => Socket.moveFrom i j
  | assign i j => Socket.assign i j
  | close i => Socket.close i
  | connect i host port => discard (Socket.connect i host port)
  | bind i port => discard (Socket.bind i port)
  | listen i backlog => discard (Socket.listen i backlog)
  | accept i result => Socket.accept i result
  | destroy i => Socket.destroy i

/-- Objects are constructed where there is none and used while they live; a descriptor to construct
one from is open and no other object's. -/
def Op.Allowed (w : State ι) : Op ι → Prop
  | default i => w.sockets i = none
  | ofFd i fd => w.sockets i = none ∧ (0 ≤ fd → fd ∈ w.foreign)
  | moveFrom i j => w.sockets i = none ∧ w.sockets j ≠ none
  | assign i j => w.sockets i ≠ none ∧ w.sockets j ≠ none
  | close i | connect i .. | bind i .. | listen i .. | destroy i => w.sockets i ≠ none
  | accept i result => w.sockets i ≠ none ∧ w.sockets result = none

/-- A sequence of operations, with whatever the calls come back with. -/
inductive Run [DecidableEq ι] : State ι → List (Op ι) → State ι → Prop
  | nil (w : State ι) : Run w [] w
  | snoc {w w' w'' : State ι} {ops : List (Op ι)} {op : Op ι} {ec : ErrorCode}
      {r : Unit × ErrorCode} : Run w ops w' → op.Allowed w' →
      Program.Exec kernel (op.code.run ec) w' r w'' → Run w (ops ++ [op]) w''

end Xfer.Net.Lifetime
