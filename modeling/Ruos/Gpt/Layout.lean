import Ruos.Block.Device
import Ruos.Crc32

/-! The GUID partition table: writing a layout and parsing it (`gpt.rs`). -/
namespace Ruos.Gpt

open Lib Block BlockDevice

structure Extent where
  firstLba : Nat
  sectors : Nat
  deriving DecidableEq, Repr

inductive GptError where
  | tooSmall
  | io
  deriving DecidableEq, Repr

abbrev Guid := { l : List UInt8 // l.length = 16 }

def typeEsp : Guid :=
  ⟨[0x28, 0x73, 0x2A, 0xC1, 0x1F, 0xF8, 0xD2, 0x11, 0xBA, 0x4B, 0x00, 0xA0, 0xC9, 0x3E, 0xC9, 0x3B], rfl⟩

def typeMsBasicData : Guid :=
  ⟨[0xA2, 0xA0, 0xD0, 0xEB, 0xE5, 0xB9, 0x33, 0x44, 0x87, 0xC0, 0x68, 0xB6, 0xB7, 0x26, 0x99, 0xC7], rfl⟩

structure GptPartition where
  typeGuid : List UInt8
  firstLba : Nat
  lastLba : Nat
  deriving DecidableEq, Repr

namespace GptPartition

def isEsp (p : GptPartition) : Bool := p.typeGuid = typeEsp.1

def isBasicData (p : GptPartition) : Bool := p.typeGuid = typeMsBasicData.1

def sectors (p : GptPartition) : Nat := min (p.lastLba - p.firstLba + 1) (2 ^ 64 - 1)

end GptPartition

def rdU32 (b : List UInt8) (o : Nat) : Nat := leVal (slice b o 4)

def rdU64 (b : List UInt8) (o : Nat) : Nat := leVal (slice b o 8)

def efiPart : List UInt8 := [0x45, 0x46, 0x49, 0x20, 0x50, 0x41, 0x52, 0x54]

variable {D : Type} [BlockDevice D]

/-- Read one block, up to `tries` more times after a failure. -/
def readRetry (lba : Nat) : (tries : Nat) → EStateM Unit D (List UInt8)
  | 0 => mapErr (fun _ => ()) (readBlocks lba 512)
  | tries + 1 => fun d =>
    match readBlocks lba 512 d with
    | .ok sec d' => .ok sec d'
    | .error _ d' => readRetry lba tries d'

/-- The raw entry array read so far and the partitions found in it. -/
structure EntryScan where
  arr : List UInt8
  out : List GptPartition

def entryPartition (e : List UInt8) : Option GptPartition :=
  if slice e 0 16 = List.replicate 16 0 then none
  else some ⟨slice e 0 16, rdU64 e 32, rdU64 e 40⟩

def scanEntry (num idx : Nat) (e : List UInt8) (st : EntryScan) : EntryScan :=
  if num ≤ idx then st else ⟨st.arr ++ e, st.out ++ (entryPartition e).toList⟩

/-- The four entries of block `s` of the array. -/
def scanSector (num s : Nat) (sec : List UInt8) (st : EntryScan) : EntryScan :=
  (List.range 4).foldl (fun st i => scanEntry num (s * 4 + i) (slice sec (i * 128) 128) st) st

def readEntries (entriesLba num : Nat) : List Nat → EntryScan → EStateM Unit D EntryScan
  | [], st => pure st
  | s :: ss, st => do
    failIf (2 ^ 64 ≤ entriesLba + s) ()
    let sec ← readRetry (entriesLba + s) 2
    readEntries entriesLba num ss (scanSector num s sec st)

/-- The checks on the header block: where the entry array starts, how many entries of it
count, and the checksum over them. -/
def parseHeader (hdr : List UInt8) : Option (Nat × Nat × Nat) :=
  let hdrSize := max 92 (min (rdU32 hdr 12) 512)
  let hcopy := splice hdr 16 (List.replicate 4 0)
  let num := min (rdU32 hdr 80) 128
  if slice hdr 0 8 ≠ efiPart then none
  else if (crc32 (hcopy.take hdrSize)).toNat ≠ rdU32 hdr 16 then none
  else if rdU32 hdr 84 ≠ 128 ∨ num = 0 then none
  else some (rdU64 hdr 72, num, rdU32 hdr 88)

/-- The partitions of the primary table; the error stands for `None`. -/
def parse : EStateM Unit D (List GptPartition) := do
  failIf (blockSize (← get) ≠ 512) ()
  let hdr ← mapErr (fun _ => ()) (readBlocks 1 512)
  match parseHeader hdr with
  | none => throw ()
  | some (entriesLba, num, arrCrc) =>
    let st ← readEntries entriesLba num (List.range ((num + 4 - 1) / 4)) ⟨[], []⟩
    failIf ((crc32 st.arr).toNat ≠ arrCrc) ()
    failIf st.out.isEmpty ()
    return st.out

def findData (parts : List GptPartition) : Option GptPartition := parts.find? GptPartition.isBasicData

def alignUp (x a : Nat) : Option Nat :=
  if 2 ^ 64 ≤ x + (a - 1) then none else some ((x + (a - 1)) / a * a)

def nameUtf16le (name : List Char) : List UInt8 :=
  (name.take 36).flatMap fun ch => leBytes 2 (if ch.toNat ≤ 0xFFFF then ch.toNat else 0xFFFD)

def entry (type unique : Guid) (first last : Nat) (name : List Char) : List UInt8 :=
  fill (List.replicate 128 0)
    [(0, type.1), (16, unique.1), (32, leBytes 8 first), (40, leBytes 8 last), (56, nameUtf16le name)]

/-- The GUIDs that `write_layout` draws from the generator. -/
structure Guids where
  esp : Guid
  data : Guid
  disk : Guid

def entryArray (g : Guids) (espFirst espLast dataFirst dataLast : Nat) : List UInt8 :=
  fill (List.replicate 16384 0)
    [(0, entry typeEsp g.esp espFirst espLast "EFI System".toList),
      (128, entry typeMsBasicData g.data dataFirst dataLast "ruos-data".toList)]

/-- What goes into a header, and what differs between the primary and the backup. -/
structure Header where
  myLba : Nat
  alternateLba : Nat
  firstUsable : Nat
  lastUsable : Nat
  diskGuid : Guid
  partitionEntryLba : Nat
  arrayCrc : UInt32

namespace Header

def fields (h : Header) : List (Nat × List UInt8) :=
  [(0, efiPart), (8, [0x00, 0x00, 0x01, 0x00]), (12, leBytes 4 92), (24, leBytes 8 h.myLba),
    (32, leBytes 8 h.alternateLba), (40, leBytes 8 h.firstUsable), (48, leBytes 8 h.lastUsable),
    (56, h.diskGuid.1), (72, leBytes 8 h.partitionEntryLba), (80, leBytes 4 128), (84, leBytes 4 128),
    (88, leBytes 4 h.arrayCrc.toNat)]

def unsigned (h : Header) : List UInt8 := fill (List.replicate 512 0) h.fields

end Header

def buildHeader (h : Header) : List UInt8 :=
  splice h.unsigned 16 (leBytes 4 (crc32 (h.unsigned.take 92)).toNat)

def protectiveMbr (total : Nat) : List UInt8 :=
  fill (List.replicate 512 0)
    [(0x1BE, [0x00, 0x00, 0x02, 0x00, 0xEE, 0xFF, 0xFF, 0xFF]), (0x1BE + 8, leBytes 4 1),
      (0x1BE + 12, leBytes 4 (min (total - 1) 0xFFFFFFFF)), (510, [0x55, 0xAA])]

structure Placement where
  espFirst : Nat
  espLast : Nat
  dataFirst : Nat
  dataLast : Nat
  deriving DecidableEq, Repr

/-- Where the two partitions go on a device of `total` blocks. -/
def placement (total espSectors : Nat) : Except GptError Placement :=
  let firstUsable := 2 + 32
  let lastUsable := total - 1 - 32 - 1
  let espFirst := 2048
  let espLast := espFirst + espSectors - 1
  if total < 2 + 32 + 32 + 1 + 1 then .error .tooSmall
  else if 2 ^ 64 ≤ espFirst + espSectors then .error .tooSmall
  else if 2 ^ 64 ≤ espLast + 1 then .error .tooSmall
  else
    match alignUp (espLast + 1) 2048 with
    | none => .error .tooSmall
    | some dataFirst =>
      if ¬ (firstUsable ≤ espFirst ∧ espLast < dataFirst ∧ dataFirst ≤ lastUsable) then .error .tooSmall
      else .ok ⟨espFirst, espLast, dataFirst, lastUsable⟩

def put (lba : Nat) (buf : List UInt8) : EStateM GptError D Unit :=
  mapErr (fun _ => .io) (writeBlocks lba buf)

def primaryHeader (total : Nat) (diskGuid : Guid) (arr : List UInt8) : Header :=
  ⟨1, total - 1, 34, total - 1 - 32 - 1, diskGuid, 2, crc32 arr⟩

def backupHeader (total : Nat) (diskGuid : Guid) (arr : List UInt8) : Header :=
  ⟨total - 1, 1, 34, total - 1 - 32 - 1, diskGuid, total - 1 - 32, crc32 arr⟩

/-- The array and the primary header, the protective MBR, and the backups at the tail. -/
def writeTables (total : Nat) (diskGuid : Guid) (arr : List UInt8) : EStateM GptError D Unit := do
  put 2 arr
  put 1 (buildHeader (primaryHeader total diskGuid arr))
  put 0 (protectiveMbr total)
  put (total - 1 - 32) arr
  put (total - 1) (buildHeader (backupHeader total diskGuid arr))

def writeLayout (g : Guids) (espSectors : Nat) : EStateM GptError D (Extent × Extent) := do
  failIf (blockSize (← get) ≠ 512) .io
  match placement (blockCount (← get)) espSectors with
  | .error e => throw e
  | .ok p =>
    writeTables (blockCount (← get)) g.disk (entryArray g p.espFirst p.espLast p.dataFirst p.dataLast)
    return (⟨p.espFirst, espSectors⟩, ⟨p.dataFirst, p.dataLast - p.dataFirst + 1⟩)

end Ruos.Gpt
