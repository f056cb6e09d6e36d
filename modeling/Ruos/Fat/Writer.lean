import Ruos.Fat.Volume

/-! `FatWriter` of `vfs/fat32.rs`, which fills a fresh volume on a device that it borrows. It has the functions of
`Ruos.Fat.Volume`, an allocator that starts where the last search ended, and a writer of files with long names. -/
namespace Ruos.Fat

open Lib Vfs Block

/-- The borrowed device, and the lowest cluster that might be free. -/
structure FatWriter (S : Type) where
  dev : S
  nextFree : Nat

namespace FatWriter

variable {S α : Type}

def onDev (x : EStateM BlockError S α) : EStateM BlockError (FatWriter S) α := fun w =>
  match x w.dev with
  | .ok a d => .ok a { w with dev := d }
  | .error e d => .error e { w with dev := d }

variable [BlockDevice S]

instance : BlockDevice (FatWriter S) where
  blockSize w := BlockDevice.blockSize w.dev
  blockCount w := BlockDevice.blockCount w.dev
  readBlocks lba len := onDev (BlockDevice.readBlocks lba len)
  writeBlocks lba buf := onDev (BlockDevice.writeBlocks lba buf)

def setNextFree (n : Nat) : FatM (FatWriter S) Unit := modify fun w => { w with nextFree := n }

variable (b : Bpb)

/-- The search for a free cluster among the `k` clusters from `n` on; it ends behind them. -/
def scanFrom : (k n : Nat) → (cached : Option (Nat × List UInt8)) → FatM S Nat
  | 0, n, _ => pure n
  | k + 1, n, cached => do
    let buf ← cachedSector cached (b.fatEntryLoc n).1
    if fatEntry buf (b.fatEntryLoc n).2 = 0 then pure n
    else scanFrom k (n + 1) (some ((b.fatEntryLoc n).1, buf))

def scanFirstFree : FatM S Nat :=
  if b.maxCluster ≤ 2 then pure b.maxCluster else scanFrom b (b.maxCluster - 2) 2 none

/-- `FatWriter::open`: the geometry of the volume, and the first free cluster. -/
def openDev : FatM S (Bpb × Nat) := do
  let bpb ← mount
  let n ← scanFirstFree bpb
  pure (bpb, n)

def takeFreeCluster : FatM (FatWriter S) Nat := do
  let w ← get
  let n ← scanFrom b (b.maxCluster - max w.nextFree 2) (max w.nextFree 2) none
  failIf (b.maxCluster ≤ n) .noSpace
  setNextFree (n + 1)
  pure n

def allocCluster : FatM (FatWriter S) Nat := do
  let n ← takeFreeCluster b
  writeFatEntry b n 0x0FFFFFFF
  writeCluster b n (zeroCluster b)
  pure n

/-- Collect `n` free clusters among the `k` clusters from `cur` on. -/
def collectFrom : (k cur n : Nat) → (cached : Option (Nat × List UInt8)) → FatM (FatWriter S) (List Nat)
  | _, cur, 0, _ => do
    setNextFree cur
    pure []
  | 0, _, _ + 1, _ => throw .noSpace
  | k + 1, cur, n + 1, cached => do
    let buf ← cachedSector cached (b.fatEntryLoc cur).1
    if fatEntry buf (b.fatEntryLoc cur).2 = 0 then do
      let rest ← collectFrom k (cur + 1) n (some ((b.fatEntryLoc cur).1, buf))
      pure (cur :: rest)
    else collectFrom k (cur + 1) (n + 1) (some ((b.fatEntryLoc cur).1, buf))

def collectFreeClusters (n : Nat) : FatM (FatWriter S) (List Nat) := do
  let w ← get
  collectFrom b (b.maxCluster - max w.nextFree 2) (max w.nextFree 2) n none

/-- Write a sector into `k` copies of the FAT. -/
def writeCopies (stride : Nat) (buf : List UInt8) (sec : Nat) : Nat → FatM S Unit
  | 0 => pure ()
  | k + 1 => do
    writeSector sec buf
    writeCopies stride buf (sec + stride) k

/-- Write the resident sector of the FAT back; it has always been changed. -/
def flushFat : Option (Nat × List UInt8) → FatM S Unit
  | none => pure ()
  | some (sec, buf) => writeCopies b.fatSz32 buf sec b.numFats

/-- The sector of the FAT with a given number, in exchange for the resident one. -/
def loadFat (loaded : Option (Nat × List UInt8)) (sec : Nat) : FatM S (List UInt8) :=
  match loaded with
  | some (s, buf) =>
    if s = sec then pure buf
    else do
      flushFat b loaded
      readSector sec
  | none => readSector sec

/-- Link the clusters of a list, with one sector of the FAT resident. -/
def writeChainFrom : (loaded : Option (Nat × List UInt8)) → List Nat → FatM S Unit
  | loaded, [] => flushFat b loaded
  | loaded, c :: cs => do
    let buf ← loadFat b loaded (b.fatEntryLoc c).1
    writeChainFrom (some ((b.fatEntryLoc c).1, setFatEntry buf (b.fatEntryLoc c).2 (cs.headD 0x0FFFFFFF))) cs

def writeChainFat (clusters : List Nat) : FatM S Unit := writeChainFrom b none clusters

def allocChain (n : Nat) : FatM (FatWriter S) Nat := do
  failIf (n = 0) .ioError
  let clusters ← collectFreeClusters b n
  writeChainFat b clusters
  pure (clusters.headD 0)

/-! File data -/

/-- `MAX_WRITE_SECTORS`, in bytes. -/
def maxWriteBytes : Nat := 512 * 8192

def writeChunks (lba : Nat) (data : List UInt8) : Nat → FatM S Unit
  | 0 => pure ()
  | k + 1 => do
    writeSector lba (data.take maxWriteBytes)
    writeChunks (lba + 8192) (data.drop maxWriteBytes) k

/-- The data of `sectors` contiguous sectors: the whole sectors of `window` as they are, the rest from a zeroed
buffer. -/
def writeWindow (lba sectors : Nat) (window : List UInt8) : FatM S Unit := do
  let full := window.length / 512
  writeChunks lba (window.take (512 * full)) ((full + 8191) / 8192)
  if full < sectors then
    writeSector (lba + full) (splice (List.replicate (512 * (sectors - full)) 0) 0 (window.drop (512 * full)))
  else pure ()

/-- The data of contiguous runs of clusters, one run after another. -/
def writeRuns : (runs : List (List Nat)) → (bytes : List UInt8) → FatM S Unit
  | [], _ => pure ()
  | run :: runs, bytes => do
    writeWindow (b.clusterSector (run.headD 0)) (run.length * b.secPerCluster)
      (bytes.take (run.length * b.clusterBytes))
    writeRuns runs (bytes.drop (run.length * b.clusterBytes))

def writeDataRun (clusters : List Nat) (bytes : List UInt8) : FatM S Unit :=
  writeRuns b (clusters.splitBy fun c d => d = c + 1) bytes

def liftResult : Except VfsError α → FatM S α
  | .ok a => pure a
  | .error e => throw e

/-- What `look` finds first in the records of the clusters. -/
def searchClusters (look : List UInt8 → Option (Except VfsError α)) (absent : α) : List Nat → FatM S α
  | [] => pure absent
  | c :: cs => do
    let buf ← readCluster b c
    match (records buf).findSome? look with
    | some r => liftResult r
    | none => searchClusters look absent cs

def searchDir (look : List UInt8 → Option (Except VfsError α)) (absent : α) (dirCluster : Nat) : FatM S α := do
  let cs ← chain b dirCluster
  searchClusters b look absent cs

def subdirAt (want : Name) (rec : List UInt8) : Option (Except VfsError (Option Nat)) :=
  if firstByte rec = 0x00 then some (.ok none)
  else if firstByte rec = 0xE5 then none
  else if recAttr rec = 0x0F then none
  else if recAttr rec &&& 0x08 ≠ 0 then none
  else if decodeShortName (slice rec 0 11) = want then
    if recAttr rec &&& 0x10 = 0 then some (.error .notDirectory) else some (.ok (some (recCluster rec)))
  else none

def findSubdir (dirCluster : Nat) (want : Name) : FatM S (Option Nat) :=
  searchDir b (subdirAt want) none dirCluster

def shortAt (short rec : List UInt8) : Option (Except VfsError Bool) :=
  if firstByte rec = 0x00 then some (.ok false)
  else if firstByte rec = 0xE5 then none
  else if recAttr rec = 0x0F then none
  else if slice rec 0 11 = short then some (.ok true)
  else none

def shortNameExists (dirCluster : Nat) (short : List UInt8) : FatM S Bool :=
  searchDir b (shortAt short) false dirCluster

def mkdir (parentCluster : Nat) (name : Name) : FatM (FatWriter S) Nat :=
  (·.cluster) <$> makeEntry b (allocCluster b) true parentCluster name

/-- `add_dir_record` with the allocator of the writer. -/
def addRecord (dirCluster : Nat) (rec : List UInt8) : FatM (FatWriter S) Unit := do
  let _ ← addDirRecord b (allocCluster b) dirCluster rec
  pure ()

/-- The first window of `need` free records; `i` is the number of the record that comes next, and `count` free
records from `start` on lie right in front of it. -/
def findWindow (need : Nat) : (i start count : Nat) → List (List UInt8) → Option Nat
  | _, _, _, [] => none
  | i, start, count, r :: rs =>
    if isFree r then
      let start := if count = 0 then i else start
      if count + 1 = need then some start else findWindow need (i + 1) start (count + 1) rs
    else findWindow need (i + 1) 0 0 rs

/-- Put a run of records into the first window of the clusters that is long enough; whether there is one. -/
def placeRun (run : List (List UInt8)) : List Nat → FatM S Bool
  | [] => pure false
  | c :: cs => do
    let buf ← readCluster b c
    match findWindow run.length 0 0 0 (records buf) with
    | some start => do
      writeCluster b c (splice buf (start * 32) run.flatten)
      pure true
    | none => placeRun run cs

def retire (rec : List UInt8) : List UInt8 := if firstByte rec = 0x00 then splice rec 0 [0xE5] else rec

/-- Leave no end mark in the cluster. -/
def retireSlots (c : Nat) : FatM S Unit := do
  let buf ← readCluster b c
  if (records buf).any (firstByte · = 0x00) then writeCluster b c ((records buf).map retire).flatten else pure ()

def addDirRun (dirCluster : Nat) (run : List (List UInt8)) : FatM (FatWriter S) Unit :=
  if run = [] then pure ()
  else do
    let cs ← chain b dirCluster
    failIf (b.entriesPerCluster < run.length) .noSpace
    if ← placeRun b run cs then pure ()
    else
      match cs.getLast? with
      | none => throw .ioError
      | some last => do
        retireSlots b last
        let newCluster ← allocCluster b
        writeFatEntry b last newCluster
        writeCluster b newCluster (splice (zeroCluster b) 0 run.flatten)

def upperByte (x : UInt8) : UInt8 := if 0x61 ≤ x ∧ x ≤ 0x7A then x - 0x20 else x

/-- The bytes of a short name: capital letters, digits and `_~!@#$%^&()-{}`. -/
def allowed (c : UInt8) : Bool :=
  (0x41 ≤ c ∧ c ≤ 0x5A) ∨ (0x30 ≤ c ∧ c ≤ 0x39) ∨
    c ∈ [0x5F, 0x7E, 0x21, 0x40, 0x23, 0x24, 0x25, 0x5E, 0x26, 0x28, 0x29, 0x2D, 0x7B, 0x7D]

/-- The name in bytes that are allowed, without spaces and leading dots. -/
def cleaned : (seenNonDot : Bool) → List UInt8 → List UInt8
  | _, [] => []
  | seen, x :: xs =>
    if upperByte x = 0x20 then cleaned seen xs
    else if upperByte x = 0x2E then if seen then 0x2E :: cleaned seen xs else cleaned seen xs
    else (if allowed (upperByte x) then upperByte x else 0x5F) :: cleaned true xs

/-- Stem and extension of a cleaned name: what is in front of the last dot and behind it, without dots. -/
def stemExt (name : List UInt8) : List UInt8 × List UInt8 :=
  if 0x2E ∈ name then
    ((name.reverse.dropWhile (· ≠ 0x2E)).reverse.filter (· ≠ 0x2E), (name.reverse.takeWhile (· ≠ 0x2E)).reverse)
  else (name, [])

def numericTail (n : Nat) : List UInt8 := 0x7E :: (Nat.toDigits 10 n).map fun c => UInt8.ofNat c.toNat

def tailedName (stem ext : List UInt8) (n : Nat) : List UInt8 :=
  fill (List.replicate 11 0x20)
    [(0, stem.take (8 - (numericTail n).length) ++ numericTail n), (8, ext.take 3)]

/-- The first numeric tail that is not taken, among the `k` from `n` on. -/
def shortNameFrom (dirCluster : Nat) (stem ext : List UInt8) : (k n : Nat) → FatM S (List UInt8)
  | 0, _ => throw .noSpace
  | k + 1, n => do
    if ← shortNameExists b dirCluster (tailedName stem ext n) then shortNameFrom dirCluster stem ext k (n + 1)
    else pure (tailedName stem ext n)

def shortName (long : Name) (dirCluster : Nat) : FatM S (List UInt8) :=
  let parts := stemExt (cleaned false (bytes long))
  shortNameFrom b dirCluster parts.1 parts.2 999999 1

def utf16 (c : Char) : List Nat :=
  if c.toNat < 0x10000 then [c.toNat]
  else [0xD800 + (c.toNat - 0x10000) / 0x400, 0xDC00 + (c.toNat - 0x10000) % 0x400]

/-- The 13 units of an LFN record: the end mark behind a shorter piece, and padding. -/
def padUnits (units : List Nat) : List Nat := (units ++ 0 :: List.replicate 13 0xFFFF).take 13

/-- Record `k` of the `n` LFN records of a name. -/
def lfnRecord (units : List Nat) (csum : UInt8) (n k : Nat) : List UInt8 :=
  fill (List.replicate 32 0)
    ((0, [if k + 1 = n then (UInt8.ofNat k + 1) ||| 0x40 else UInt8.ofNat k + 1]) :: (11, [0x0F]) :: (13, [csum]) ::
      List.zipWith (fun off u => (off, leBytes 2 u)) lfnSlots (padUnits (slice units (13 * k) 13)))

/-- The LFN records of a name, the last piece of the name first. -/
def buildLfnRun (long : Name) (short : List UInt8) : List (List UInt8) :=
  let units := long.flatMap utf16
  let n := (units.length + 12) / 13
  ((List.range n).map (lfnRecord units (lfnChecksum short) n)).reverse

/-! Files and directories by path -/

/-- A component that `encode_short_name` does not change: at most eight ASCII letters and digits. -/
def isPlain (comp : Name) : Bool :=
  comp ≠ [] ∧ (bytes comp).length ≤ 8 ∧ comp.all Char.isAlphanum

/-- The directory `comp` of a directory, made if it is missing. -/
def enter (parent : Nat) (comp : Name) : FatM (FatWriter S) Nat := do
  failIf (¬ isPlain comp) .ioError
  match ← findSubdir b parent (toAsciiLowercase comp) with
  | some c => pure c
  | none => mkdir b parent comp

def enterAll : (parent : Nat) → (comps : List Name) → FatM (FatWriter S) Nat
  | parent, [] => pure parent
  | parent, comp :: comps => do
    let c ← enter b parent comp
    enterAll c comps

def components (path : List Char) : List Name := (path.splitOn '/').filter (· ≠ [])

def writeContents (bytes : List UInt8) : FatM (FatWriter S) Nat :=
  if bytes = [] then pure 0
  else do
    let first ← allocChain b ((bytes.length + b.clusterBytes - 1) / b.clusterBytes)
    let clusters ← chain b first
    writeDataRun b clusters bytes
    pure first

def writeFile (path : List Char) (bytes : List UInt8) : FatM (FatWriter S) Unit :=
  match (components path).getLast? with
  | none => throw .invalidPath
  | some name => do
    let parent ← enterAll b b.rootClus (components path).dropLast
    let first ← writeContents b bytes
    let short ← shortName b name parent
    addDirRun b parent (buildLfnRun name short ++ [dirRecord short 0x20 first bytes.length])

def createDirs : (paths : List (List Char)) → FatM (FatWriter S) Unit
  | [] => pure ()
  | path :: paths => do
    let _ ← enterAll b b.rootClus (components path)
    createDirs paths

end FatWriter
end Ruos.Fat
