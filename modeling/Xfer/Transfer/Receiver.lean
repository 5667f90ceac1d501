import Xfer.Transfer.Protocol

/-! # Receiver

`transfer/receiver`. The loop over the records is a recursion on the number of
records still to come, and each iteration is `receiveRecord`.
-/

namespace Xfer.Transfer

open Net Common Posix

structure ReceiverOptions where
  outputDir : Bytes
  createDir : Bool := true
  verifyCrc : Bool := true

def validateAndJoin (outputDir relPath : Bytes) : Except Errc Bytes :=
  if (elements relPath).any fun part => part = dotdot ∨ part = rootName ∨ part = backslash then
    .error .invalidArgument
  else if isAbsolute relPath then .error .invalidArgument
  else .ok (join outputDir relPath)

/-- The payload loop; on success, the checksum of what was received. -/
def receivePayload (remaining : UInt64) (crc : Crc32) : Session (Option Crc32) :=
  if _ : remaining = 0 then pure (some crc) else do
    let want := chunk remaining
    let some buf ← recvAll want.toNat | pure none
    let crc := crc.update buf
    if !(← perform (.write buf)) then
      setEc .ioError
      pure none
    else
      addProgress want
      receivePayload (remaining - want) crc
termination_by remaining.toNat
decreasing_by exact toNat_sub_chunk_lt ‹_›

/-- What `ReceivePayloadToFile` does while its output stream is open. -/
def receiveAndCheck (size : UInt64) (expectedCrc : UInt32) : Session Bool := do
  let some crc ← receivePayload size {} | pure false
  if expectedCrc ≠ 0 ∧ crc.final ≠ expectedCrc then
    setEc .badMessage
    pure false
  else
    pure true

/-- Ensure that the parent directory exists. -/
def createParent (target : Bytes) : Session Unit :=
  if parentPath target ≠ [] then perform (.createDirectories (parentPath target)) else pure ()

def receivePayloadToFile (target : Bytes) (size : UInt64) (expectedCrc : UInt32) :
    Session Bool := do
  createParent target
  if !(← perform (.openTrunc target)) then
    setEc .permissionDenied
    pure false
  else
    let ok ← receiveAndCheck size expectedCrc
    perform .closeStream
    pure ok

/-- The record that was read, once its path is known not to be empty. -/
def storeRecord (options : ReceiverOptions) (outputDir : Bytes) (entry : FileEntry) :
    Session Bool := do
  match validateAndJoin outputDir entry.relPath with
  | .error e =>
    setEc e
    pure false
  | .ok safe =>
    let expected := if options.verifyCrc then entry.crc32 else 0
    if !(← receivePayloadToFile safe entry.size expected) then pure false
    else
      modify fun s => { s with summary := s.summary.add entry.size safe }
      pure true

/-- One iteration of the record loop; `false` when the session fails in it. -/
def receiveRecord (options : ReceiverOptions) (outputDir : Bytes) : Session Bool := do
  let some entry ← readFileHeader | pure false
  if entry.relPath = [] then pure true
  else storeRecord options outputDir entry

def receiveRecords (options : ReceiverOptions) (outputDir : Bytes) : ℕ → Session Bool
  | 0 => pure true
  | n + 1 => do
    if !(← receiveRecord options outputDir) then pure false
    else receiveRecords options outputDir n

def findOutput (options : ReceiverOptions) : Session Bytes :=
  if options.outputDir = [] then perform .currentPath else pure options.outputDir

def createOutput (options : ReceiverOptions) (outputDir : Bytes) : Session Unit :=
  if options.createDir then perform (.createDirectories outputDir) else pure ()

/-- The output directory, once it is known to be a directory. -/
def openOutput (options : ReceiverOptions) : Session (Option Bytes) := do
  let dir ← findOutput options
  createOutput options dir
  let fs ← perform .look
  if !fs.isDirectory dir then
    setEc .notADirectory
    pure none
  else
    pure (some dir)

/-- Read the header and acknowledge it. -/
def handshake : Session (Option SessionHeader) := do
  let some header ← readSessionHeader | pure none
  if !(← writeAck 0) then pure none
  else pure (some header)

/-- Everything before the record loop: the header that was read, and the output directory. -/
def openSession (options : ReceiverOptions) : Session (Option (SessionHeader × Bytes)) := do
  let some header ← handshake | pure none
  let some dir ← openOutput options | pure none
  startProgress
  pure (some (header, dir))

/-- Everything after the record loop. -/
def finishSession : Session Unit := do
  let _ ← readDone
  let elapsed ← perform .elapsed
  modify fun s => { s with summary := { s.summary with elapsedSeconds := elapsed } }

def receiveStream (options : ReceiverOptions) : Session Bool := do
  let some (header, dir) ← openSession options | pure false
  if !(← receiveRecords options dir header.totalFiles.toNat) then pure false
  else
    finishSession
    pure true

end Xfer.Transfer
