import Xfer.Net.System

/-! # Sockets

`net/socket`: the single calls, the loops that transfer a whole buffer, and the
Linux variant of the zero-copy send. Each function has one outcome relation,
which says all that a call of it can do when the party runs alone.
-/

namespace Xfer.Net

open Process Posix

structure ReceiverSummary where
  totalFiles : UInt64 := 0
  totalBytes : UInt64 := 0
  writtenPaths : List Bytes := []
  elapsedSeconds : ℚ := 0
  deriving DecidableEq

/-- One more file of `size` bytes has been written. -/
def ReceiverSummary.add (m : ReceiverSummary) (size : UInt64) (path : Bytes) : ReceiverSummary :=
  { m with
    totalFiles := m.totalFiles + 1
    totalBytes := m.totalBytes + size
    writtenPaths := m.writtenPaths ++ [path] }

/-- The objects that a session's functions share by reference. -/
structure Refs where
  ec : ErrorCode := none
  progress : UInt64 := 0
  summary : ReceiverSummary := {}

abbrev Session := Code Call.Result Refs

def perform (c : Call) : Session c.Result := Code.issue c

def setEc (e : Errc) : Session Unit := modify fun s => { s with ec := some e }

/-- A new `Progress`. -/
def startProgress : Session Unit := modify fun s => { s with progress := 0 }

/-- `Progress::Add`. -/
def addProgress (n : UInt64) : Session Unit := modify fun s => { s with progress := s.progress + n }

structure Socket where
  fd : ℤ

def Socket.valid (sock : Socket) : Bool := 0 ≤ sock.fd

/-- `static_cast<int>` of a nonnegative count. -/
def toInt (n : ℕ) : ℤ := Int.bmod n (2 ^ 32)

def send (data : Bytes) : Session ℤ := do
  match ← perform (.send data) with
  | .ok n => pure (toInt n.1)
  | .error e =>
    setEc e
    pure (-1)

/-- The count that `Recv` returns, and the bytes it leaves in the buffer. -/
def recv (len : ℕ) : Session (ℤ × Bytes) := do
  match ← perform (.recv len) with
  | .ok bs => pure (toInt bs.1.length, bs.1)
  | .error e =>
    setEc e
    pure (-1, [])

def sendAll (data : Bytes) : Session Bool :=
  if _ : data = [] then pure true else do
    let n ← send data
    if _ : n ≤ 0 then pure false else sendAll (data.drop n.toNat)
termination_by data.length
decreasing_by
  rename_i h hn
  have := List.length_pos_iff.mpr h
  simp only [List.length_drop]
  omega

/-- On success, the `len` bytes that the buffer holds in the end. -/
def recvAll (len : ℕ) : Session (Option Bytes) :=
  if _ : len = 0 then pure (some []) else do
    let (n, buf) ← recv len
    if _ : n ≤ 0 then
      if n = 0 then setEc .connectionReset
      pure none
    else
      let rest ← recvAll (len - n.toNat)
      pure (rest.map (buf.take n.toNat ++ ·))
termination_by len
decreasing_by omega

theorem toNat_sub_ofNat {r : UInt64} {n : ℕ} (h : n ≤ r.toNat) :
    (r - UInt64.ofNat n).toNat = r.toNat - n := by
  have hr := r.toNat_lt
  have hn : (UInt64.ofNat n).toNat = n := UInt64.toNat_ofNat_of_lt' (by unfold UInt64.size; omega)
  rw [UInt64.toNat_sub_of_le _ _ (by rw [UInt64.le_iff_toNat_le, hn]; exact h), hn]

theorem toNat_add_ofNat {r : UInt64} {n : ℕ} (h : r.toNat + n < 2 ^ 64) :
    (r + UInt64.ofNat n).toNat = r.toNat + n := by
  rw [UInt64.toNat_add, UInt64.toNat_ofNat_of_lt' (by unfold UInt64.size; omega), Nat.mod_eq_of_lt h]

/-- The size of the buffers in which files are read and payloads received. -/
def kBufSize : UInt64 := (1 : UInt64) <<< 20

/-- `remaining < kBufSize ? remaining : kBufSize`. -/
def chunk (remaining : UInt64) : UInt64 := if remaining < kBufSize then remaining else kBufSize

theorem toNat_chunk (r : UInt64) : (chunk r).toNat = min r.toNat (2 ^ 20) := by
  have hk : kBufSize.toNat = 2 ^ 20 := by decide
  unfold chunk
  split
  · rename_i h; rw [UInt64.lt_iff_toNat_lt, hk] at h; omega
  · rename_i h; rw [UInt64.lt_iff_toNat_lt, hk] at h; rw [hk]; omega

theorem chunk_le (r : UInt64) : chunk r ≤ r := by
  rw [UInt64.le_iff_toNat_le, toNat_chunk]
  omega

theorem toNat_sub_chunk_lt {r : UInt64} (h : r ≠ 0) : (r - chunk r).toNat < r.toNat := by
  have hr : r.toNat ≠ 0 := fun he => h (UInt64.toNat_inj.mp he)
  rw [UInt64.toNat_sub_of_le _ _ (chunk_le r), toNat_chunk]
  omega

def kMaxSendfile : UInt64 := (1 : UInt64) <<< 30

/-- What `SendFromFd` reports: its verdict and `offset_in_out`, which on success is past the end
of what was asked for. -/
structure Pushed (offset length : UInt64) where
  ok : Bool
  reached : UInt64
  all : ok = true → reached = offset + length

def Pushed.failed {offset length : UInt64} (reached : UInt64) : Pushed offset length :=
  ⟨false, reached, nofun⟩

/-- A report on what remains after `n` bytes, as one on the whole. -/
def Pushed.after {offset length n : UInt64} (p : Pushed (offset + n) (length - n)) :
    Pushed offset length :=
  ⟨p.ok, p.reached, fun h => by rw [p.all h, UInt64.add_assoc, UInt64.add_comm n,
    UInt64.sub_add_cancel]⟩

/-- The loop of `SendFromFd` on Linux. -/
def sendfileLoop (fd : Fd) (signals : ℕ) (off remaining : UInt64) :
    Session (Pushed off remaining) :=
  if h : remaining = 0 then pure ⟨true, off, fun _ => by rw [h, UInt64.add_zero]⟩ else do
    let want := if remaining > kMaxSendfile then kMaxSendfile else remaining
    match ← perform (.sendfile signals fd off.toNat want.toNat) with
    | .interrupted _ => sendfileLoop fd (signals - 1) off remaining
    | .error e =>
      setEc e
      pure (.failed off)
    | .sent n _ =>
      if _ : n = 0 then
        setEc .ioError
        pure (.failed off)
      else
        Pushed.after <$> sendfileLoop fd signals (off + UInt64.ofNat n) (remaining - UInt64.ofNat n)
termination_by (remaining.toNat, signals)
decreasing_by
  · exact Prod.Lex.right _ (by omega)
  · rename_i hle hn
    have hw : (if remaining > kMaxSendfile then kMaxSendfile else remaining).toNat ≤
        remaining.toNat := by
      split
      · rename_i h; exact Nat.le_of_lt h
      · exact le_rfl
    have hn' := hle.trans hw
    apply Prod.Lex.left
    rw [toNat_sub_ofNat hn']
    omega

def sendFromFd (sock : Socket) (signals : ℕ) (fd : Fd) (offsetInOut length : UInt64) :
    Session (Pushed offsetInOut length) :=
  if ¬ sock.valid then do
    setEc .badFileDescriptor
    pure (.failed offsetInOut)
  else if h : length = 0 then
    pure ⟨true, offsetInOut, fun _ => by rw [h, UInt64.add_zero]⟩
  else sendfileLoop fd signals offsetInOut length

end Xfer.Net
