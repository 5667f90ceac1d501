import Xfer.Common.Crc32
import Xfer.Net.Socket

/-! # Wire protocol

`transfer/protocol`: the fixed-offset encodings of the four messages and the
functions that write them to and read them from the connection.
-/

namespace Xfer.Transfer

open Net Common

def kProtoMagic : UInt32 := 0x58464552
def kProtoVersion : UInt16 := 0x0001
def kProtoAck : UInt32 := 0x4f4b4159
def kFileMagic : UInt32 := 0x46494c45
def kDoneMagic : UInt32 := 0x444f4e45
def kFlagCrc32 : UInt32 := 1

structure SessionHeader where
  version : UInt16 := 1
  flags : UInt32 := 0
  totalFiles : UInt64 := 0
  totalBytes : UInt64 := 0
  deriving DecidableEq

structure FileEntry where
  relPath : Bytes
  size : UInt64 := 0
  crc32 : UInt32 := 0
  deriving DecidableEq

/-- Write bytes into a buffer at an offset. -/
def poke (buf : Bytes) (offset : ℕ) (bs : Bytes) : Bytes :=
  buf.take offset ++ bs ++ buf.drop (offset + bs.length)

def encodeU16LE (v : UInt16) : Bytes := encodeLE 2 v.toNat
def encodeU32LE (v : UInt32) : Bytes := encodeLE 4 v.toNat
def encodeU64LE (v : UInt64) : Bytes := encodeLE 8 v.toNat
def decodeU16LE (p : Bytes) : UInt16 := UInt16.ofNat (decodeLE 2 p)
def decodeU32LE (p : Bytes) : UInt32 := UInt32.ofNat (decodeLE 4 p)
def decodeU64LE (p : Bytes) : UInt64 := UInt64.ofNat (decodeLE 8 p)

/-- The first 28 bytes of the session header. -/
def sessionFields (h : SessionHeader) : Bytes :=
  let buf := List.replicate 28 0
  let buf := poke buf 0 (encodeU32LE kProtoMagic)
  let buf := poke buf 4 (encodeU16LE h.version)
  let buf := poke buf 8 (encodeU64LE h.totalFiles)
  let buf := poke buf 16 (encodeU64LE h.totalBytes)
  poke buf 24 (encodeU32LE h.flags)

def encodeSessionHeader (h : SessionHeader) : Bytes :=
  sessionFields h ++ encodeU32LE (Crc32.compute (sessionFields h))

def encodeAck (receiverFlags : UInt32) : Bytes :=
  let buf := List.replicate 8 0
  let buf := poke buf 0 (encodeU32LE kProtoAck)
  poke buf 4 (encodeU32LE receiverFlags)

/-- The 18 bytes before the path. -/
def encodeFixed (entry : FileEntry) : Bytes :=
  let buf := List.replicate 18 0
  let buf := poke buf 0 (encodeU32LE kFileMagic)
  let buf := poke buf 4 (encodeU16LE (UInt16.ofNat entry.relPath.length))
  let buf := poke buf 6 (encodeU64LE entry.size)
  poke buf 14 (encodeU32LE entry.crc32)

def encodeDone : Bytes := encodeU32LE kDoneMagic

def writeSessionHeader (h : SessionHeader) : Session Bool := sendAll (encodeSessionHeader h)

def readSessionHeader : Session (Option SessionHeader) := do
  let some buf ← recvAll 32 | pure none
  if decodeU32LE buf ≠ kProtoMagic then
    setEc .invalidArgument
    pure none
  else
    let expected := decodeU32LE (buf.drop 28)
    let actual := Crc32.compute (buf.take 28)
    if expected ≠ actual then
      setEc .invalidArgument
      pure none
    else
      pure (some {
        version := decodeU16LE (buf.drop 4)
        totalFiles := decodeU64LE (buf.drop 8)
        totalBytes := decodeU64LE (buf.drop 16)
        flags := decodeU32LE (buf.drop 24) })

def writeAck (receiverFlags : UInt32) : Session Bool := sendAll (encodeAck receiverFlags)

def readAck : Session (Option UInt32) := do
  let some buf ← recvAll 8 | pure none
  if decodeU32LE buf ≠ kProtoAck then
    setEc .invalidArgument
    pure none
  else
    pure (some (decodeU32LE (buf.drop 4)))

def writeFileHeader (entry : FileEntry) : Session Bool := do
  if entry.relPath.length > 0xFFFF then
    setEc .filenameTooLong
    pure false
  else
    let pathLen := UInt16.ofNat entry.relPath.length
    if !(← sendAll (encodeFixed entry)) then pure false
    else if pathLen > 0 then sendAll (entry.relPath.take pathLen.toNat)
    else pure true

def readFileHeader : Session (Option FileEntry) := do
  let some fixed ← recvAll 18 | pure none
  if decodeU32LE fixed ≠ kFileMagic then
    setEc .invalidArgument
    pure none
  else
    let pathLen := decodeU16LE (fixed.drop 4)
    let size := decodeU64LE (fixed.drop 6)
    let crc32 := decodeU32LE (fixed.drop 14)
    if pathLen > 0 then
      let some tmp ← recvAll pathLen.toNat | pure none
      pure (some ⟨tmp, size, crc32⟩)
    else
      pure (some ⟨[], size, crc32⟩)

def writeDone : Session Bool := sendAll encodeDone

def readDone : Session Bool := do
  let some buf ← recvAll 4 | pure false
  pure (decodeU32LE buf = kDoneMagic)

end Xfer.Transfer
