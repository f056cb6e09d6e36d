import Ruos.Vfs.Basic
import Ruos.Block.Device

/-! The geometry of a FAT32 volume, as its boot sector gives it, the sectors, clusters and FAT entries of a mounted one
(`Inner` of `vfs/fat32.rs`; `FatWriter` has the same functions on the device it borrows), short (8.3) and long names of
directory records, reading and changing directories (`read_dir_entries`, `Fat32Fs`), and open files (`Fat32File`). -/
namespace Ruos.Fat

open Lib Vfs Block

def eoc : Nat := 0x0FFFFFF8

structure Bpb where
  bytesPerSec : Nat
  secPerCluster : Nat
  rsvdSecCnt : Nat
  numFats : Nat
  fatSz32 : Nat
  rootClus : Nat
  totSec32 : Nat
  deriving DecidableEq, Repr

def isPowerOfTwo (n : Nat) : Bool := n ≠ 0 ∧ n &&& (n - 1) = 0

def field (sec : List UInt8) (off w : Nat) : Nat := leVal (slice sec off w)

namespace Bpb

def parse (sec0 : List UInt8) : Except VfsError Bpb :=
  if sec0.length < 512 then .error .ioError
  else if field sec0 510 2 ≠ 0xAA55 then .error .ioError
  else if field sec0 0x0B 2 ≠ 512 then .error .ioError
  else if ¬ isPowerOfTwo (field sec0 0x0D 1) then .error .ioError
  else .ok {
    bytesPerSec := field sec0 0x0B 2
    secPerCluster := field sec0 0x0D 1
    rsvdSecCnt := field sec0 0x0E 2
    numFats := field sec0 0x10 1
    fatSz32 := field sec0 0x24 4
    rootClus := field sec0 0x2C 4
    totSec32 := field sec0 0x20 4 }

variable (b : Bpb)

def clusterBytes : Nat := 512 * b.secPerCluster

def dataStartSector : Nat := b.rsvdSecCnt + b.numFats * b.fatSz32

/-- First sector of cluster `n`; the callers pass `2 ≤ n`. -/
def clusterSector (n : Nat) : Nat := b.dataStartSector + (n - 2) * b.secPerCluster

/-- Sector and offset within it of the FAT entry of cluster `n`. -/
def fatEntryLoc (n : Nat) : Nat × Nat := (b.rsvdSecCnt + n * 4 / 512, n * 4 % 512)

def maxCluster : Nat := ((b.totSec32 - b.dataStartSector) / b.secPerCluster + 2) % 2 ^ 32

def entriesPerCluster : Nat := b.clusterBytes / 32

end Bpb

abbrev FatM (S : Type) := EStateM VfsError S

/-- How a call fails: it returns an error, or it does not return (an arithmetic overflow, an
index out of bounds). -/
inductive Fault where
  | err (e : VfsError)
  | panic
  deriving DecidableEq, Repr

variable {S : Type} [BlockDevice S]

def mapBlockErr : BlockError → VfsError := fun _ => .ioError

def readSector (lba : Nat) : FatM S (List UInt8) :=
  mapErr mapBlockErr (BlockDevice.readBlocks lba 512)

/-- `write_sector`, and `write_sector_run`, which is given several sectors. -/
def writeSector (lba : Nat) (buf : List UInt8) : FatM S Unit :=
  mapErr mapBlockErr (BlockDevice.writeBlocks lba buf)

/-- `from_blockdev`: mount the device, with the geometry that the boot sector gives. -/
def mount : FatM S Bpb := do
  let sec0 ← readSector 0
  match Bpb.parse sec0 with
  | .ok bpb => pure bpb
  | .error e => throw e

/-- The lower 28 bits of the FAT entry at `off` in a sector of the FAT. -/
def fatEntry (sec : List UInt8) (off : Nat) : Nat := field sec off 4 % 2 ^ 28

def setFatEntry (sec : List UInt8) (off value : Nat) : List UInt8 :=
  splice sec off (leBytes 4 (field sec off 4 / 2 ^ 28 * 2 ^ 28 + value % 2 ^ 28))

/-- Whether the walk along a chain goes on at `cur`. -/
def onChain (cur : Nat) : Bool := 2 ≤ cur ∧ cur % 2 ^ 28 < eoc

/-- The FAT sector with a given number, read unless it is the one read last. -/
def cachedSector (cached : Option (Nat × List UInt8)) (sec : Nat) : FatM S (List UInt8) :=
  match cached with
  | some (s, buf) => if s = sec then pure buf else readSector sec
  | none => readSector sec

variable (b : Bpb)

/-- The walk from `cur` on, when `left` more clusters may be taken. -/
def chainFrom : (left cur : Nat) → (cached : Option (Nat × List UInt8)) → FatM S (List Nat)
  | 0, cur, _ => if onChain cur then throw .ioError else pure []
  | left + 1, cur, cached =>
    if onChain cur then do
      let buf ← cachedSector cached (b.fatEntryLoc cur).1
      failIf (fatEntry buf (b.fatEntryLoc cur).2 = 0) .ioError
      let rest ← chainFrom left (fatEntry buf (b.fatEntryLoc cur).2) (some ((b.fatEntryLoc cur).1, buf))
      pure (cur :: rest)
    else pure []

/-- Follow the FAT chain from `start`; a chain cannot be longer than the cluster count. -/
def chain (start : Nat) : FatM S (List Nat) := chainFrom b b.maxCluster start none

def readSectors (sec : Nat) : Nat → FatM S (List UInt8)
  | 0 => pure []
  | k + 1 => do
    let buf ← readSector sec
    let rest ← readSectors (sec + 1) k
    pure (buf ++ rest)

def writeSectors (sec : Nat) (data : List UInt8) : Nat → FatM S Unit
  | 0 => pure ()
  | k + 1 => do
    writeSector sec (data.take 512)
    writeSectors (sec + 1) (data.drop 512) k

/-- The buffers the callers pass have exactly `cluster_bytes`. -/
def readCluster (n : Nat) : FatM S (List UInt8) := readSectors (b.clusterSector n) b.secPerCluster

def writeCluster (n : Nat) (data : List UInt8) : FatM S Unit :=
  writeSectors (b.clusterSector n) data b.secPerCluster

/-- Set an entry in `k` copies of the FAT, whose sectors are `stride` apart. -/
def writeFatCopies (stride off value : Nat) (sec : Nat) : Nat → FatM S Unit
  | 0 => pure ()
  | k + 1 => do
    let buf ← readSector sec
    writeSector sec (setFatEntry buf off value)
    writeFatCopies stride off value (sec + stride) k

def writeFatEntry (cluster value : Nat) : FatM S Unit :=
  writeFatCopies b.fatSz32 (b.fatEntryLoc cluster).2 value (b.fatEntryLoc cluster).1 b.numFats

def zeroCluster : List UInt8 := List.replicate b.clusterBytes 0

/-- The search for a free cluster among the `k` clusters from `n` on. -/
def allocFrom : (k n : Nat) → FatM S Nat
  | 0, _ => throw .noSpace
  | k + 1, n => do
    let buf ← readSector (b.fatEntryLoc n).1
    if fatEntry buf (b.fatEntryLoc n).2 = 0 then do
      writeFatEntry b n 0x0FFFFFFF
      writeCluster b n (zeroCluster b)
      pure n
    else allocFrom k (n + 1)

/-- Allocate the first free cluster, as a chain of its own, zeroed. -/
def allocCluster : FatM S Nat := allocFrom b (b.maxCluster - 2) 2

/-! Directory records -/

def records (buf : List UInt8) : List (List UInt8) := pieces 32 buf

def firstByte (rec : List UInt8) : UInt8 := rec.headD 0

def isFree (rec : List UInt8) : Bool := firstByte rec = 0x00 || firstByte rec = 0xE5

def recordLoc (c i : Nat) : Nat × Nat := (b.clusterSector c + i * 32 / 512, i * 32 % 512)

/-- Put `rec` into the first free slot of the clusters, if there is one. -/
def placeRecord (rec : List UInt8) : List Nat → FatM S (Option (Nat × Nat))
  | [] => pure none
  | c :: cs => do
    let buf ← readCluster b c
    match (records buf).findIdx? isFree with
    | some i => do
      writeCluster b c (splice buf (i * 32) rec)
      pure (some (recordLoc b c i))
    | none => placeRecord rec cs

/-- Put `rec` into a directory, extending its chain if it is full; `alloc` is the
allocator of the caller (`Inner` or `FatWriter`). -/
def addDirRecord (alloc : FatM S Nat) (dirCluster : Nat) (rec : List UInt8) : FatM S (Nat × Nat) := do
  let cs ← chain b dirCluster
  match ← placeRecord b rec cs with
  | some loc => pure loc
  | none =>
    match cs.getLast? with
    | none => throw .ioError
    | some last => do
      let newCluster ← alloc
      writeFatEntry b last newCluster
      writeCluster b newCluster (splice (zeroCluster b) 0 rec)
      pure (b.clusterSector newCluster, 0)

def dirRecord (name : List UInt8) (attr : UInt8) (cluster size : Nat) : List UInt8 :=
  fill (List.replicate 32 0)
    [(0, name), (11, [attr]), (20, leBytes 2 (cluster / 65536)), (26, leBytes 2 cluster), (28, leBytes 4 size)]

/-- `char::to_lowercase`, which the LFN decoder applies to every character. All that matters
here is its value on ASCII, and that it gives no capital letters. -/
class Unicode where
  toLowercase : Char → List Char
  toLowercase_ascii : ∀ c : Char, c.toNat < 128 → toLowercase c = [c.toLower]
  toLowercase_lower : ∀ c : Char, ∀ x ∈ toLowercase c, x.toLower = x

def toAsciiLowercase (name : Name) : Name := name.map Char.toLower

def toAsciiUppercase (name : Name) : Name := name.map Char.toUpper

def bytes (name : Name) : List UInt8 := name.flatMap String.utf8EncodeChar

/-- `u8::to_ascii_lowercase` and the cast to `char`. -/
def lowerByte (b : UInt8) : Char := (Char.ofNat b.toNat).toLower

def trimTrailingSpaces (s : List UInt8) : List UInt8 := s.rdropWhile fun b => b = 0x20 || b = 0

def decodeShortName (raw : List UInt8) : Name :=
  if raw.length < 11 then []
  else
    let base := trimTrailingSpaces (slice raw 0 8)
    let ext := trimTrailingSpaces (slice raw 8 3)
    base.map (fun b => lowerByte (if b = 0x05 then 0xE5 else b)) ++
      if ext = [] then [] else '.' :: ext.map lowerByte

/-- `rsplit_once('.')`, with an empty extension if there is no dot. -/
def splitExt (name : Name) : Name × Name :=
  if '.' ∈ name then
    ((name.reverse.dropWhile (· ≠ '.')).tail.reverse, (name.reverse.takeWhile (· ≠ '.')).reverse)
  else (name, [])

def encodeShortName (name : Name) : List UInt8 :=
  let (base, ext) := splitExt (toAsciiUppercase name)
  fill (List.replicate 11 0x20) [(0, (bytes base).take 8), (8, (bytes ext).take 3)]

/-- `lfn_checksum_short`, and `FatWriter::lfn_checksum`. -/
def lfnChecksum (short : List UInt8) : UInt8 :=
  short.foldl (fun sum c => ((sum &&& 1) <<< 7) + (sum >>> 1) + c) 0

def lfnSlots : List Nat := [1, 3, 5, 7, 9, 14, 16, 18, 20, 22, 24, 28, 30]

def lfnUnits (rec : List UInt8) : List Nat := lfnSlots.map fun off => leVal (slice rec off 2)

/-- `char::from_u32` with the replacement character on failure. -/
def unitChar (u : Nat) : Char :=
  if u < 0x80 then Char.ofNat u else if u.isValidChar then Char.ofNat u else '�'

variable [Unicode]

def decodeLongName (units : List Nat) : Name :=
  (units.takeWhile (· ≠ 0)).flatMap fun u => Unicode.toLowercase (unitChar u)

/-- A decoded directory record, with the sector and offset it was found at. -/
structure DirEntry where
  name : Name
  isDir : Bool
  cluster : Nat
  size : Nat
  recSec : Nat
  recOff : Nat
  deriving DecidableEq, Repr

/-- A run of LFN records that no short record has ended yet (`lfn`, `lfn_max`, `lfn_csum`);
`lfn_max = 0` is `none`. -/
structure LfnRun where
  units : List Nat
  max : Nat
  csum : UInt8
  deriving DecidableEq, Repr

def recAttr (rec : List UInt8) : UInt8 := rec.getD 11 0

def recCluster (rec : List UInt8) : Nat := field rec 20 2 * 65536 + field rec 26 2

def recSize (rec : List UInt8) : Nat := field rec 28 4

def lfnOrd (rec : List UInt8) : Nat := (firstByte rec &&& 0x1F).toNat

/-- The pending run with one more LFN record; a fresh run starts from a cleared buffer. -/
def addUnits (pend : Option LfnRun) (rec : List UInt8) : Option LfnRun :=
  if 1 ≤ lfnOrd rec ∧ lfnOrd rec ≤ 20 then
    some {
      units := splice (pend.elim (List.replicate 260 0) (·.units)) ((lfnOrd rec - 1) * 13) (lfnUnits rec)
      max := Nat.max (pend.elim 0 (·.max)) (lfnOrd rec * 13)
      csum := rec.getD 13 0 }
  else none

inductive Slot where
  | finish
  | skip (pend : Option LfnRun)
  | entry (name : Name)
  deriving DecidableEq, Repr

section

variable [Unicode]

def slotName (pend : Option LfnRun) (rec : List UInt8) : Name :=
  match pend with
  | some run =>
    if lfnChecksum (slice rec 0 11) = run.csum then decodeLongName (run.units.take run.max)
    else decodeShortName (slice rec 0 11)
  | none => decodeShortName (slice rec 0 11)

def readSlot (pend : Option LfnRun) (rec : List UInt8) : Slot :=
  if firstByte rec = 0x00 then .finish
  else if firstByte rec = 0xE5 then .skip none
  else if recAttr rec = 0x0F then .skip (addUnits pend rec)
  else if recAttr rec &&& 0x08 ≠ 0 then .skip none
  else if slotName pend rec = [] then .skip none
  else .entry (slotName pend rec)

abbrev Located := (Nat × Nat) × List UInt8

def entryOf (name : Name) (r : Located) : DirEntry where
  name := name
  isDir := recAttr r.2 &&& 0x10 ≠ 0
  cluster := recCluster r.2
  size := recSize r.2
  recSec := r.1.1
  recOff := r.1.2

/-- The entries among some records, and the run pending behind them, unless the end of the
directory is among them. -/
def scan : Option LfnRun → List Located → List DirEntry × Option (Option LfnRun)
  | pend, [] => ([], some pend)
  | pend, r :: rs =>
    match readSlot pend r.2 with
    | .finish => ([], none)
    | .skip pend' => scan pend' rs
    | .entry name => (entryOf name r :: (scan none rs).1, (scan none rs).2)

end

def clusterSlots (b : Bpb) (c : Nat) (buf : List UInt8) : List Located :=
  (records buf).mapIdx fun i rec => (recordLoc b c i, rec)

variable {S : Type} [BlockDevice S] [Unicode] (b : Bpb)

def readClusters : List Nat → Option LfnRun → FatM S (List DirEntry)
  | [], _ => pure []
  | c :: cs, pend => do
    let buf ← readCluster b c
    match scan pend (clusterSlots b c buf) with
    | (es, none) => pure es
    | (es, some pend') => do
      let rest ← readClusters cs pend'
      pure (es ++ rest)

def readDirEntries (startCluster : Nat) : FatM S (List DirEntry) := do
  let cs ← chain b startCluster
  readClusters b cs none

def findName (entries : List DirEntry) (p : Name) : Option DirEntry :=
  entries.find? (·.name = toAsciiLowercase p)

def findEntry (cur : Nat) (p : Name) : FatM S DirEntry := do
  let entries ← readDirEntries b cur
  match findName entries p with
  | some e => pure e
  | none => throw .notFound

def walkDirs : (cur : Nat) → (ps : List Name) → FatM S Nat
  | cur, [] => pure cur
  | cur, p :: ps => do
    let found ← findEntry b cur p
    failIf (¬ found.isDir) .notDirectory
    walkDirs found.cluster ps

def lookupFrom : (cur : Nat) → (parts : List Name) → FatM S DirEntry
  | _, [] => throw .notFound
  | cur, [p] => findEntry b cur p
  | cur, p :: q :: ps => do
    let found ← findEntry b cur p
    failIf (¬ found.isDir) .notDirectory
    lookupFrom found.cluster (q :: ps)

def lookup (parts : List Name) : FatM S DirEntry := lookupFrom b b.rootClus parts

def lookupParentAndName (parts : List Name) : FatM S (Nat × Name) :=
  match parts.getLast? with
  | none => throw .invalidPath
  | some name => do
    let cluster ← walkDirs b b.rootClus parts.dropLast
    pure (cluster, name)

def refuseDuplicate (parentCluster : Nat) (name : Name) : FatM S Unit := do
  let existing ← readDirEntries b parentCluster
  failIf (existing.any (·.name = toAsciiLowercase name)) .alreadyExists

def newEntry (name : Name) (isDir : Bool) (cluster : Nat) (loc : Nat × Nat) : DirEntry where
  name := toAsciiLowercase name
  isDir := isDir
  cluster := cluster
  size := 0
  recSec := loc.1
  recOff := loc.2

/-- The attribute of a file (`ATTR_ARCHIVE`) or of a directory. -/
def attrOf (isDir : Bool) : UInt8 := if isDir then 0x10 else 0x20

def dotName : List UInt8 := 0x2E :: List.replicate 10 0x20

def dotdotName : List UInt8 := 0x2E :: 0x2E :: List.replicate 9 0x20

/-- The first cluster of a new directory; the parent is 0 in `..` if it is the root. -/
def dotRecords (newCluster parentCluster : Nat) : List UInt8 :=
  fill (zeroCluster b) [
    (0, dirRecord dotName 0x10 newCluster 0),
    (32, dirRecord dotdotName 0x10 (if parentCluster = b.rootClus then 0 else parentCluster) 0)]

/-- A new directory gets its dot records; the cluster of a new file stays zeroed. -/
def initCluster (isDir : Bool) (newCluster parentCluster : Nat) : FatM S Unit :=
  if isDir then writeCluster b newCluster (dotRecords b newCluster parentCluster) else pure ()

/-- Allocate a cluster and add a record for it: the second part of `create_file` and of
`Fat32Fs::mkdir`, and `FatWriter::mkdir`. -/
def makeEntry (alloc : FatM S Nat) (isDir : Bool) (parentCluster : Nat) (name : Name) : FatM S DirEntry := do
  let newCluster ← alloc
  initCluster b isDir newCluster parentCluster
  let loc ← addDirRecord b alloc parentCluster (dirRecord (encodeShortName name) (attrOf isDir) newCluster 0)
  pure (newEntry name isDir newCluster loc)

def createEntry (isDir : Bool) (parentCluster : Nat) (name : Name) : FatM S DirEntry := do
  refuseDuplicate b parentCluster name
  makeEntry b (allocCluster b) isDir parentCluster name

def createFile (parentCluster : Nat) (name : Name) : FatM S DirEntry := createEntry b false parentCluster name

def create (path : List Name) : FatM S Unit := do
  let parent ← lookupParentAndName b path
  let _ ← createFile b parent.1 parent.2
  pure ()

def mkdir (path : List Name) : FatM S Unit := do
  let parent ← lookupParentAndName b path
  let _ ← createEntry b true parent.1 parent.2
  pure ()

structure VfsDirent where
  name : Name
  kind : VfsKind
  deriving DecidableEq, Repr

def kindOf (e : DirEntry) : VfsKind := if e.isDir then .dir else .reg

def direntOf (e : DirEntry) : VfsDirent where
  name := e.name
  kind := kindOf e

def readdir (path : List Name) : FatM S (List VfsDirent) := do
  let cluster ←
    if path = [] then pure b.rootClus
    else do
      let e ← lookup b path
      failIf (¬ e.isDir) .notDirectory
      pure e.cluster
  let entries ← readDirEntries b cluster
  pure (entries.map direntOf)

def stat (path : List Name) : FatM S VfsStat :=
  if path = [] then pure { kind := .dir, size := 0 }
  else do
    let e ← lookup b path
    pure { kind := kindOf e, size := e.size }

structure Fat32File where
  entry : DirEntry
  cached : Option (List Nat)
  pos : Nat
  truncate : Bool
  deriving DecidableEq, Repr

structure Opened (S : Type) where
  fs : S
  file : Fat32File

abbrev FileM (S : Type) := EStateM Fault (Opened S)

variable {S : Type} {α : Type}

def onFs (x : FatM S α) : FileM S α := fun o =>
  match x o.fs with
  | .ok a s => .ok a { o with fs := s }
  | .error e s => .error (.err e) { o with fs := s }

def modifyFile (f : Fat32File → Fat32File) : FileM S Unit := fun o =>
  .ok () { o with file := f o.file }

variable [BlockDevice S] (b : Bpb)

namespace Fat32File

def ensureChain (file : Fat32File) : FileM S (List Nat) :=
  match file.cached with
  | some cs => pure cs
  | none => do
    let cs ← onFs (chain b file.entry.cluster)
    modifyFile fun file => { file with cached := some cs }
    pure cs

/-- `read` into a buffer of `len` bytes; the result is what it stored there. -/
def read (len : Nat) : FileM S (List UInt8) := do
  let o ← get
  if o.file.entry.size ≤ o.file.pos ∨ len = 0 then pure []
  else do
    let cs ← ensureChain b o.file
    match cs[o.file.pos / b.clusterBytes]? with
    | none => pure []
    | some cluster => do
      let cbuf ← onFs (readCluster b cluster)
      let got ← pure (slice cbuf (o.file.pos % b.clusterBytes)
        (min (min len (b.clusterBytes - o.file.pos % b.clusterBytes)) (o.file.entry.size - o.file.pos)))
      modifyFile fun file => { file with pos := file.pos + got.length }
      pure got

/-- The deferred truncation: the size and the position go to 0, the chain is kept. -/
def truncated (file : Fat32File) : Fat32File :=
  if file.truncate then
    { file with entry := { file.entry with size := 0 }, pos := 0, truncate := false, cached := none }
  else file

def linkTail (cs : List Nat) (newCluster : Nat) : FatM S Unit :=
  match cs.getLast? with
  | some last => writeFatEntry b last newCluster
  | none => pure ()

/-- Allocate `extra` clusters, each linked behind the last one of the chain. -/
def extend : (extra : Nat) → (cs : List Nat) → FatM S (List Nat)
  | 0, cs => pure cs
  | extra + 1, cs => do
    let newCluster ← allocCluster b
    linkTail b cs newCluster
    extend extra (cs ++ [newCluster])

/-- The clusters that a file needs to reach up to `upto`. -/
def neededClusters (upto : Nat) : Nat := (upto + b.clusterBytes - 1) / b.clusterBytes

/-- The chain of the handle, with at least `needed` clusters. -/
def longChain (needed : Nat) (cs : List Nat) : FileM S (List Nat) :=
  if cs.length < needed then do
    let cs' ← onFs (extend b (needed - cs.length) cs)
    modifyFile fun file => { file with cached := some cs' }
    pure cs'
  else pure cs

def updateRecord (sec : List UInt8) (e : DirEntry) : List UInt8 :=
  fill sec [
    (e.recOff + 20, leBytes 2 (e.cluster / 65536)),
    (e.recOff + 26, leBytes 2 e.cluster),
    (e.recOff + 28, leBytes 4 e.size)]

def updateEntryOnDisk (e : DirEntry) : FatM S Unit := do
  let sec ← readSector e.recSec
  writeSector e.recSec (updateRecord sec e)

/-- The handle after `n` bytes were written: the size is narrowed to `u32`. -/
def advanced (first n : Nat) (file : Fat32File) : Fat32File :=
  { file with
    pos := file.pos + n
    entry := { file.entry with
      size := if file.entry.size < file.pos + n then (file.pos + n) % 2 ^ 32 else file.entry.size
      cluster := first } }

/-- Write what fits into the cluster of the position, and update the record. -/
def writeAt (cs : List Nat) (pos : Nat) (buf : List UInt8) : FileM S Nat :=
  match cs.head?, cs[pos / b.clusterBytes]? with
  | some first, some cluster => do
    let cbuf ← onFs (readCluster b cluster)
    let n ← pure (min buf.length (b.clusterBytes - pos % b.clusterBytes))
    onFs (writeCluster b cluster (splice cbuf (pos % b.clusterBytes) (buf.take n)))
    modifyFile (advanced first n)
    let o ← get
    onFs (updateEntryOnDisk o.file.entry)
    pure n
  | _, _ => throw .panic

def write (buf : Buf) : FileM S Nat :=
  if buf.val = [] then pure 0
  else do
    modifyFile truncated
    let o ← get
    let cs ← ensureChain b o.file
    failIf (2 ^ 64 ≤ o.file.pos + buf.val.length + b.clusterBytes) .panic
    let cs ← longChain b (neededClusters b (o.file.pos + buf.val.length)) cs
    writeAt b cs o.file.pos buf.val

def saturatingAdd (x y : Int) : Int := max (-2 ^ 63) (min (2 ^ 63 - 1) (x + y))

def seekBase (file : Fat32File) : Whence → Int
  | .set => 0
  | .cur => asI64 file.pos
  | .fromEnd => file.entry.size

def seek (off : Int) (whence : Whence) : FileM S Nat := do
  let o ← get
  let new ← pure (saturatingAdd (seekBase o.file whence) off)
  failIf (new < 0) (.err .invalidPath)
  modifyFile fun file => { file with pos := new.toNat }
  pure new.toNat

def stat (file : Fat32File) : VfsStat := { kind := .reg, size := file.entry.size }

end Fat32File

variable [Unicode]

/-- Go on with `y` where `x` found nothing. -/
def onNotFound (x y : FatM S α) : FatM S α := fun s =>
  match x s with
  | .error .notFound s' => y s'
  | r => r

def openEntry (path : List Name) (flags : OpenFlags) : FatM S DirEntry :=
  if flags.create then
    onNotFound (lookup b path) do
      let parent ← lookupParentAndName b path
      createFile b parent.1 parent.2
  else lookup b path

def openFile (path : List Name) (flags : OpenFlags) : FatM S Fat32File := do
  let entry ← openEntry b path flags
  failIf (entry.isDir) .isDirectory
  pure { entry, cached := none, pos := 0, truncate := flags.truncate }

end Ruos.Fat
