import Xfer.Transfer.Protocol
import Mathlib.Data.List.Destutter

/-! # Sender

`transfer/sender`. A collected file keeps the path it was collected from, which
the manifest drops, and `std::sort`, which is not stable, is any function that
sorts.
-/

namespace Xfer.Transfer

open Net Common Posix

structure SenderOptions where
  recursive : Bool := false
  followSymlinks : Bool := false
  zeroCopy : Bool := true
  stripPrefix : Bytes := []

/-- Drop leading `./`. -/
def eraseDotSlash : Bytes → Bytes
  | 0x2E :: 0x2F :: s => eraseDotSlash s
  | s => s

def makeRelPath (path pre : Bytes) : Session Bytes := do
  let rel ← (do
    if pre = [] then pure []
    else if (← perform (.stat pre)).isNone then pure []
    else perform (.relative path pre))
  pure (eraseDotSlash (if rel = [] then filename path else rel))

/-- An entry of the manifest and the path of the file that it is there for. -/
structure Collected where
  onDisk : Bytes
  entry : FileEntry
  deriving DecidableEq

/-- The size of what `stat` has found, if that is a regular file. -/
def regularSize : Option Node → Option ℕ
  | some (.file c) => some c.length
  | _ => none

/-- The entry of a regular file, unless its size or its relative path cannot be found. -/
def scanFile (pre path : Bytes) : Session (Option Collected) := do
  match regularSize (← perform (.stat path)) with
  | none => pure none
  | some sz =>
    let relPath ← makeRelPath path pre
    if relPath = [] then pure none
    else pure (some ⟨path, { relPath := relPath, size := UInt64.ofNat sz }⟩)

/-- The loop over what the iterator of a directory comes to. -/
def scanBelow (pre : Bytes) : List Bytes → Session (List Collected)
  | [] => pure []
  | q :: qs => do
    let found ← (do
      if (regularSize (← perform (.stat q))).isNone then pure none else scanFile pre q)
    let more ← scanBelow pre qs
    pure (found.toList ++ more)

/-- The files that one source path stands for; `none` if it is not found. -/
def scanPath (options : SenderOptions) (p : Bytes) : Session (Option (List Collected)) := do
  if !(← perform (.pathExists p)) then
    setEc .noSuchFileOrDirectory
    pure none
  else if (regularSize (← perform (.stat p))).isSome then
    let pre := if options.stripPrefix = [] then parentPath p else options.stripPrefix
    let found ← scanFile pre p
    pure (some found.toList)
  else if (← perform (.stat p)) = some .dir then
    if ¬ options.recursive then pure (some [])
    else
      let pre := if options.stripPrefix = [] then p else options.stripPrefix
      -- an iterator that cannot be made is the end; one that cannot go on throws
      let found ← scanBelow pre (← perform (.iterate options.followSymlinks p))
      pure (some found)
  else pure (some [])

def scanPaths (options : SenderOptions) : List Bytes → Session (Option (List Collected))
  | [] => pure (some [])
  | p :: ps => do
    let some out ← scanPath options p | pure none
    let some more ← scanPaths options ps | pure none
    pure (some (out ++ more))

/-- `std::sort` by relative path: some order of the same items that is sorted. -/
structure StdSort where
  sort : List Collected → List Collected
  perm : ∀ l, (sort l).Perm l
  sorted : ∀ l, (sort l).Pairwise fun a b => ¬ b.entry.relPath < a.entry.relPath

/-- `std::unique` by relative path: the first of equal neighbours stays. -/
def unique (l : List Collected) : List Collected :=
  l.destutter fun a b => a.entry.relPath ≠ b.entry.relPath

def collectFiles (std : StdSort) (options : SenderOptions) (paths : List Bytes) :
    Session (List FileEntry) := do
  let some out ← scanPaths options paths | pure []
  pure ((unique (std.sort out)).map Collected.entry)

/-- What the search among several sources takes for an entry, beside the source `d`. -/
def candidate (fs : FileSystem) (rel : Bytes) (size : UInt64) (d : Bytes) : Option Bytes :=
  let candidate := join (parentPath d) rel
  if fs.isRegularFile candidate ∧ (fs.fileSize candidate).map UInt64.ofNat = some size then
    some candidate
  else none

/-- The path on disk that is taken for an entry of the manifest. -/
def resolve (fs : FileSystem) (paths : List Bytes) (entry : FileEntry) : Option Bytes :=
  let search := paths.findSome? (candidate fs entry.relPath entry.size)
  match paths with
  | [base] =>
    if fs.isDirectory base then some (join base entry.relPath)
    else if fs.isRegularFile base then some base
    else search
  | _ => search

def resolveOnDisk (paths : List Bytes) (entry : FileEntry) : Session (Option Bytes) := do
  let fs ← perform .look
  match resolve fs paths entry with
  | none =>
    setEc .noSuchFileOrDirectory
    pure none
  | some p => pure (some p)

def openForRead (path : Bytes) : Session (Option Fd) := do
  match ← perform (.openRead path) with
  | none =>
    setEc .noSuchFileOrDirectory
    pure none
  | some fd => pure (some fd)

/-- Resolve and open the file of an entry. -/
def openEntry (paths : List Bytes) (entry : FileEntry) : Session (Option Fd) := do
  let some onDisk ← resolveOnDisk paths entry | pure none
  openForRead onDisk

/-- The loop of `CrcOfFd`; `none` after an error. -/
def crcLoop (fd : Fd) (remaining offset : UInt64) (crc : Crc32) : Session (Option Crc32) :=
  if _ : remaining = 0 then pure (some crc) else do
    let want := chunk remaining
    match ← perform (.pread fd want.toNat offset.toNat) with
    | .error _ =>
      setEc .ioError
      pure none
    | .ok bs =>
      if _ : bs.1.length = 0 then pure (some crc)
      else
        let n := UInt64.ofNat bs.1.length
        crcLoop fd (remaining - n) (offset + n) (crc.update bs.1)
termination_by remaining.toNat
decreasing_by
  have hle := bs.2.trans (UInt64.le_iff_toNat_le.mp (chunk_le remaining))
  rw [toNat_sub_ofNat hle]
  omega

def crcOfFd (fd : Fd) (size : UInt64) : Session UInt32 := do
  match ← crcLoop fd size 0 {} with
  | none => pure 0
  | some crc => pure crc.final

/-- The zero-copy loop of `SendFileBytes`. -/
def zeroCopyLoop (sock : Socket) (signals : ℕ) (fd : Fd) (offset remaining : UInt64) :
    Session Bool :=
  if _ : remaining = 0 then pure true else do
    let pushed ← sendFromFd sock signals fd offset remaining
    if _ : pushed.ok then
      let transmitted := pushed.reached - offset
      if transmitted = 0 then
        setEc .ioError
        pure false
      else
        addProgress transmitted
        zeroCopyLoop sock signals fd pushed.reached (remaining - transmitted)
    else pure false
termination_by remaining.toNat
decreasing_by
  rename_i h hok _
  have hr : remaining.toNat ≠ 0 := fun he => h (UInt64.toNat_inj.mp he)
  rw [pushed.all hok, UInt64.add_comm, UInt64.add_sub_cancel, UInt64.sub_self]
  exact Nat.pos_of_ne_zero hr

/-- The userspace loop of `SendFileBytes`. -/
def preadLoop (fd : Fd) (offset remaining : UInt64) : Session Bool :=
  if _ : remaining = 0 then pure true else do
    let want := chunk remaining
    match ← perform (.pread fd want.toNat offset.toNat) with
    | .error _ =>
      setEc .ioError
      pure false
    | .ok bs =>
      if _ : bs.1.length = 0 then pure false
      else if !(← sendAll bs.1) then pure false
      else
        let n := UInt64.ofNat bs.1.length
        addProgress n
        preadLoop fd (offset + n) (remaining - n)
termination_by remaining.toNat
decreasing_by
  have hle := bs.2.trans (UInt64.le_iff_toNat_le.mp (chunk_le remaining))
  rw [toNat_sub_ofNat hle]
  omega

def sendFileBytes (sock : Socket) (signals : ℕ) (fd : Fd) (size : UInt64) (zeroCopy : Bool) :
    Session Bool :=
  if size = 0 then pure true
  else if zeroCopy then zeroCopyLoop sock signals fd 0 size
  else preadLoop fd 0 size

/-- Fill in the checksums; `none` when the session fails on the way. -/
def computeCrcs (paths : List Bytes) : List FileEntry → Session (Option (List FileEntry))
  | [] => pure (some [])
  | e :: es => do
    let some fd ← openEntry paths e | pure none
    let crc ← crcOfFd fd e.size
    perform (.close fd)
    if (← get).ec ≠ none then pure none
    else
      let some es ← computeCrcs paths es | pure none
      pure (some ({ e with crc32 := crc } :: es))

/-- The entry with the checksum of its file; `none` when the session fails. -/
def sumEntry (paths : List Bytes) (e : FileEntry) : Session (Option FileEntry) := do
  let some fd ← openEntry paths e | pure none
  let crc ← crcOfFd fd e.size
  perform (.close fd)
  if (← get).ec ≠ none then pure none
  else pure (some { e with crc32 := crc })

/-- Fill in the checksums that are missing from a manifest of the caller's. -/
def fillCrcs (paths : List Bytes) : List FileEntry → Session (Option (List FileEntry))
  | [] => pure (some [])
  | e :: es => do
    let some e ← (if e.crc32 = 0 then sumEntry paths e else pure (some e)) | pure none
    let some es ← fillCrcs paths es | pure none
    pure (some (e :: es))

def sendRecord (sock : Socket) (signals : ℕ) (paths : List Bytes) (options : SenderOptions)
    (entry : FileEntry) : Session Bool := do
  if !(← writeFileHeader entry) then pure false
  else
    let some fd ← openEntry paths entry | pure false
    let ok ← sendFileBytes sock signals fd entry.size options.zeroCopy
    perform (.close fd)
    pure ok

def sendRecords (sock : Socket) (signals : ℕ) (paths : List Bytes) (options : SenderOptions) :
    List FileEntry → Session Bool
  | [] => pure true
  | e :: es => do
    if !(← sendRecord sock signals paths options e) then pure false
    else sendRecords sock signals paths options es

/-- The header that announces a manifest. -/
def sessionHeader (manifest : List FileEntry) : SessionHeader where
  version := kProtoVersion
  flags := kFlagCrc32
  totalFiles := UInt64.ofNat manifest.length
  totalBytes := manifest.foldl (fun total e => total + e.size) 0

/-- The session proper, for a manifest whose checksums are filled in. -/
def sendManifest (sock : Socket) (signals : ℕ) (paths : List Bytes) (options : SenderOptions)
    (manifest : List FileEntry) : Session Bool := do
  if !(← writeSessionHeader (sessionHeader manifest)) then pure false
  else
    let some _ ← readAck | pure false
    startProgress
    if !(← sendRecords sock signals paths options manifest) then pure false
    else writeDone

def sendPaths (std : StdSort) (sock : Socket) (signals : ℕ) (paths : List Bytes)
    (options : SenderOptions) : Session Bool := do
  let manifest ← collectFiles std options paths
  if manifest = [] then pure true
  else
    let some manifest ← computeCrcs paths manifest | pure false
    sendManifest sock signals paths options manifest

def sendFiles (sock : Socket) (signals : ℕ) (paths : List Bytes) (manifest : List FileEntry)
    (options : SenderOptions) : Session Bool := do
  if manifest = [] then pure true
  else
    let some entries ← fillCrcs paths manifest | pure false
    sendManifest sock signals paths options entries

end Xfer.Transfer
