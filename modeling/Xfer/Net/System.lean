import Xfer.Process.Network
import Xfer.Posix.Directory

/-! # System calls

The calls that the two parties issue, and what the kernel may answer: socket
calls transfer a positive part of what was asked, reads return a positive part
of what the file holds, and a file stream may keep what was written to it in
its buffer until it is closed. `Faults` says which calls may fail besides. What
is answered is what a call comes back with: one that ends the process, because
of a signal or an exception that nobody catches, has no answer.
-/

namespace Xfer

open Process Posix

inductive Errc where
  | invalidArgument
  | connectionReset
  | badFileDescriptor
  | noSuchFileOrDirectory
  | ioError
  | filenameTooLong
  | permissionDenied
  | badMessage
  | notADirectory
  | isADirectory
  | brokenPipe
  | other (errno : ℕ)
  deriving DecidableEq

abbrev ErrorCode := Option Errc

/-- An open file is known by its key: nothing is renamed or removed during a session. -/
abbrev Fd := Key

inductive Call where
  | send (data : Bytes)
  | recv (len : ℕ)
  | sendfile (signals : ℕ) (fd : Fd) (offset want : ℕ)
  | look
  | pathExists (path : Bytes)
  | stat (path : Bytes)
  | relative (path base : Bytes)
  | iterate (follow : Bool) (path : Bytes)
  | currentPath
  | openRead (path : Bytes)
  | pread (fd : Fd) (want offset : ℕ)
  | close (fd : Fd)
  | createDirectories (path : Bytes)
  | openTrunc (path : Bytes)
  | write (data : Bytes)
  | closeStream
  | elapsed

/-- The outcome of `sendfile64`; it is interrupted only while there are signals to come. -/
inductive Sendfile (signals want : ℕ) where
  | sent (n : ℕ) (le : n ≤ want)
  | interrupted (pending : 0 < signals)
  | error (e : Errc)

/-- How many bytes have been sent. -/
def Sendfile.count {signals want : ℕ} : Sendfile signals want → ℕ
  | sent n _ => n
  | _ => 0

/-- What the caller gets back; counts never exceed what was asked for. -/
abbrev Call.Result : Call → Type
  | send data => Except Errc { n : ℕ // n ≤ data.length }
  | recv len => Except Errc { bs : Bytes // bs.length ≤ len }
  | sendfile signals _ _ want => Sendfile signals want
  | look => FileSystem
  | pathExists _ => Bool
  | stat _ => Option Node
  | relative .. | currentPath => Bytes
  | iterate .. => List Bytes
  | openRead _ => Option Fd
  | pread _ want _ => Except Errc { bs : Bytes // bs.length ≤ want }
  | close _ | createDirectories _ | closeStream => Unit
  | openTrunc _ | write _ => Bool
  | elapsed => ℚ

/-- The faults that may occur; `stall` is a `send` that transfers nothing, and `scan` a failure of
the calls by which the sources and the current directory are found. -/
structure Faults where
  net : Prop
  stall : Prop
  read : Prop
  disk : Prop
  scan : Prop

def Faults.none : Faults := ⟨False, False, False, False, False⟩

/-- The process's files, and its output stream with the bytes not yet written through. -/
structure Host where
  fs : FileSystem
  stream : Option (Key × Bytes)

namespace Host

/-- The bytes that a descriptor can be read from at an offset. -/
def readable (h : Host) (fd : Fd) (offset : ℕ) : Option Bytes :=
  match h.fs.lookup fd with
  | some (.file c) => if offset < 2 ^ 63 then some (c.drop offset) else none
  | _ => none

/-- Write part of what the stream holds through to its file. -/
def Flush (h : Host) (k : Key) (held : Bytes) (stream : Bytes → Option (Key × Bytes))
    (h' : Host) : Prop :=
  ∃ flushed rest, held = flushed ++ rest ∧ h' = ⟨h.fs.appendAt k flushed, stream rest⟩

end Host

/-- The kernel's answers, by what they do to the connection and to the host. -/
def kernel (f : Faults) (h : Host) :
    (c : Call) → Action UInt8 → c.Result → Host → Prop
  | .send data, a, r, h' => h' = h ∧ match r with
    | .ok n => (a = .silent ∧ n.1 = 0 ∧ (data = [] ∨ f.stall)) ∨
        (a = .out (data.take n.1) ∧ 0 < n.1)
    | .error e => (a = .silent ∧ f.net) ∨ (a = .hangup ∧ e = .brokenPipe ∧ data ≠ [])
  | .recv len, a, r, h' => h' = h ∧ match r with
    | .ok bs => (a = .silent ∧ bs.1 = [] ∧ len = 0) ∨ (a = .inp bs.1 ∧ bs.1 ≠ []) ∨
        (a = .eof ∧ bs.1 = [] ∧ len ≠ 0)
    | .error _ => a = .silent ∧ f.net
  | .sendfile _ fd offset want, a, r, h' => h' = h ∧ match r with
    | .sent n _ => ∃ c, h.readable fd offset = some c ∧
        ((a = .silent ∧ n = 0 ∧ (c = [] ∨ want = 0)) ∨
          (a = .out (c.take n) ∧ 0 < n ∧ n ≤ c.length))
    | .interrupted _ => a = .silent
    | .error e => (a = .silent ∧ (f.net ∨ f.read ∨ h.readable fd offset = none)) ∨
        (a = .hangup ∧ e = .brokenPipe ∧ ∃ c, h.readable fd offset = some c ∧ c ≠ [] ∧ want ≠ 0)
  | .look, a, r, h' => a = .silent ∧ h' = h ∧ r = h.fs
  | .pathExists path, a, r, h' => a = .silent ∧ h' = h ∧
      (r = h.fs.pathExists path ∨ f.scan ∧ r = false)
  | .stat path, a, r, h' => a = .silent ∧ h' = h ∧ (r = h.fs.status path ∨ f.scan ∧ r = none)
  | .relative path base, a, r, h' => a = .silent ∧ h' = h ∧
      (r = h.fs.relative path base ∨ f.scan ∧ r = [])
  | .iterate follow path, a, r, h' => a = .silent ∧ h' = h ∧
      (r = h.fs.recursiveDirectory follow path ∨ f.scan ∧ r = [])
  | .currentPath, a, r, h' => a = .silent ∧ h' = h ∧ r = h.fs.currentPath
  | .openRead path, a, r, h' => a = .silent ∧ h' = h ∧ match r with
    | some k => h.fs.locate path = some k ∧ h.fs.lookup k ≠ none
    | none => f.read ∨ ∀ k, h.fs.locate path = some k → h.fs.lookup k = none
  | .pread fd want offset, a, r, h' => a = .silent ∧ h' = h ∧ match r with
    | .ok bs => ∃ c, h.readable fd offset = some c ∧ bs.1 <+: c ∧ (bs.1 = [] → c = [] ∨ want = 0)
    | .error _ => f.read ∨ h.readable fd offset = none
  | .close _, a, _, h' => a = .silent ∧ h' = h
  | .createDirectories path, a, _, h' => a = .silent ∧ h'.stream = h.stream ∧
      ∃ ps, ps <+: leads path ∧ (ps = leads path ∨ f.disk) ∧ h'.fs = h.fs.mkdirs ps
  | .openTrunc path, a, r, h' => a = .silent ∧ match r with
    | true => ∃ k fs', h.fs.openTrunc path = some (k, fs') ∧ h' = ⟨fs', some (k, [])⟩
    | false => h' = h ∧ (f.disk ∨ h.fs.openTrunc path = none)
  | .write data, a, r, h' => a = .silent ∧ match h.stream with
    | some (k, held) => h.Flush k (held ++ data) (fun rest => some (k, rest)) h' ∧
        (r = true ∨ f.disk)
    | none => h' = h ∧ r = false
  | .closeStream, a, _, h' => a = .silent ∧ match h.stream with
    | some (k, held) => ∃ flushed rest, held = flushed ++ rest ∧ (rest = [] ∨ f.disk) ∧
        h' = ⟨h.fs.appendAt k flushed, none⟩
    | none => h' = h
  | .elapsed, a, _, h' => a = .silent ∧ h' = h

/-- The calls that may read from the connection. -/
def Call.Reads : Call → Prop
  | recv _ => True
  | _ => False

/-- The calls that may write to the connection. -/
def Call.Writes : Call → Prop
  | send _ => True
  | sendfile .. => True
  | _ => False

end Xfer
