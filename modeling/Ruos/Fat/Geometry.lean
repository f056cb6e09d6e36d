import Ruos.Fat.View

/-! Making a volume (`format` of `vfs/fat32.rs`): its geometry, and the boot sector that stores it. -/
namespace Ruos.Fat

open Lib Vfs Block

/-- The numbers that `format` computes from the size of the device. -/
structure Geometry where
  totSec : Nat
  secPerClus : Nat
  fatSz32 : Nat
  dataStart : Nat
  clusters : Nat
  deriving DecidableEq, Repr

/-- The result of a `u32` operation. -/
def u32 (n : Nat) : Except Fault Nat := if n < 2 ^ 32 then .ok n else .error .panic

/-- The cluster size of the Microsoft table; `none` if the volume is too small. -/
def secPerClus (totSec : Nat) : Option Nat :=
  if totSec ≤ 66600 then none
  else if totSec ≤ 532480 then some 1
  else if totSec ≤ 16777216 then some 8
  else if totSec ≤ 33554432 then some 16
  else if totSec ≤ 67108864 then some 32
  else some 64

/-- `fat_sz32`, computed in `u64` and narrowed. -/
def fatSize (totSec tmp2 : Nat) : Nat := (totSec - 32 + (tmp2 - 1)) / tmp2 % 2 ^ 32

def geometry (blockCount : Nat) : Except Fault Geometry :=
  let totSec := min blockCount (2 ^ 32 - 1)
  match secPerClus totSec with
  | none => .error (.err .ioError)
  | some spc => do
    let units ← u32 (256 * spc)
    let sum ← u32 (units + 2)
    let fats ← u32 (2 * fatSize totSec (sum / 2))
    let dataStart ← u32 (32 + fats)
    if totSec ≤ dataStart then .error (.err .ioError)
    else if (totSec - dataStart) / spc < 65525 then .error (.err .ioError)
    else .ok {
      totSec := totSec
      secPerClus := spc
      fatSz32 := fatSize totSec (sum / 2)
      dataStart := dataStart
      clusters := (totSec - dataStart) / spc }

def bootFields (g : Geometry) (volId : List UInt8) : List (Nat × List UInt8) := [
  (0, [0xEB, 0x58, 0x90]),
  (3, [0x4D, 0x53, 0x57, 0x49, 0x4E, 0x34, 0x2E, 0x31]),
  (11, leBytes 2 512),
  (13, leBytes 1 g.secPerClus),
  (14, leBytes 2 32),
  (16, [2]),
  (17, leBytes 2 0),
  (19, leBytes 2 0),
  (21, [0xF8]),
  (22, leBytes 2 0),
  (24, leBytes 2 0x3F),
  (26, leBytes 2 0xFF),
  (28, leBytes 4 0),
  (32, leBytes 4 g.totSec),
  (36, leBytes 4 g.fatSz32),
  (40, leBytes 2 0),
  (42, leBytes 2 0),
  (44, leBytes 4 2),
  (48, leBytes 2 1),
  (50, leBytes 2 6),
  (64, [0x80]),
  (65, [0]),
  (66, [0x29]),
  (67, volId),
  (71, [0x52, 0x55, 0x4F, 0x53, 0x20, 0x20, 0x20, 0x20, 0x20, 0x20, 0x20]),
  (82, [0x46, 0x41, 0x54, 0x33, 0x32, 0x20, 0x20, 0x20]),
  (510, [0x55, 0xAA])]

def zeroSector : List UInt8 := List.replicate 512 0

def bootSector (g : Geometry) (volId : List UInt8) : List UInt8 := fill zeroSector (bootFields g volId)

def fsInfo : List UInt8 :=
  fill zeroSector [
    (0, leBytes 4 0x41615252),
    (484, leBytes 4 0x61417272),
    (488, leBytes 4 0xFFFFFFFF),
    (492, leBytes 4 3),
    (508, leBytes 4 0xAA550000)]

/-- The entries that are set in a fresh FAT: the two reserved ones and the root's. -/
def seedFields : List (Nat × List UInt8) :=
  [(0, leBytes 4 0x0FFFFFF8), (4, leBytes 4 0x0FFFFFFF), (8, leBytes 4 0x0FFFFFFF)]

def firstFatSector : List UInt8 := fill zeroSector seedFields

def labelFields : List (Nat × List UInt8) :=
  [(0, [0x52, 0x55, 0x4F, 0x53, 0x20, 0x20, 0x20, 0x20, 0x20, 0x20, 0x20]), (11, [0x08])]

def rootSector : List UInt8 := fill zeroSector labelFields

variable {S : Type} [BlockDevice S]

def zeroSectors (sec : Nat) : Nat → FatM S Unit
  | 0 => pure ()
  | k + 1 => do
    writeSector sec zeroSector
    zeroSectors (sec + 1) k

/-- The writes of `format`: both copies of the boot region, the two FATs, the root directory. -/
def writeVolume (g : Geometry) (volId : List UInt8) : FatM S Unit := do
  writeSector 0 (bootSector g volId)
  writeSector 1 fsInfo
  writeSector 6 (bootSector g volId)
  writeSector 7 fsInfo
  zeroSectors 32 g.fatSz32
  zeroSectors (32 + g.fatSz32) g.fatSz32
  writeSector 32 firstFatSector
  writeSector (32 + g.fatSz32) firstFatSector
  writeSector g.dataStart rootSector
  zeroSectors (g.dataStart + 1) (g.secPerClus - 1)

/-- Format the device as a fresh FAT32 volume; `volId` is the random serial number. -/
def format (volId : List UInt8) : EStateM Fault S Unit := do
  let s ← get
  failIf (BlockDevice.blockSize s ≠ 512) (.err .ioError)
  match geometry (BlockDevice.blockCount s) with
  | .error e => throw e
  | .ok g => mapErr .err (writeVolume g volId)

open List Nat

namespace Geometry

def bpb (g : Geometry) : Bpb where
  bytesPerSec := 512
  secPerCluster := g.secPerClus
  rsvdSecCnt := 32
  numFats := 2
  fatSz32 := g.fatSz32
  rootClus := 2
  totSec32 := g.totSec

/-- What the computed numbers satisfy for a device of `count` blocks. -/
structure Fits (g : Geometry) (count : Nat) : Prop where
  totSec_eq : g.totSec = min count (2 ^ 32 - 1)
  spc_mem : g.secPerClus ∈ [1, 8, 16, 32, 64]
  dataStart_eq : g.dataStart = 32 + 2 * g.fatSz32
  enough : g.totSec - 32 ≤ g.fatSz32 * (128 * g.secPerClus + 1)
  wide : 2 * g.secPerClus ≤ g.fatSz32
  dataStart_lt : g.dataStart < g.totSec
  clusters_eq : g.clusters = (g.totSec - g.dataStart) / g.secPerClus
  clusters_min : 65525 ≤ g.clusters
  clusters_max : g.clusters ≤ 2 ^ 26

end Geometry

theorem fatSize_band {t spc : Nat} (hspc : secPerClus t = some spc) (ht : t < 2 ^ 32) :
    spc ∈ [1, 8, 16, 32, 64] ∧ t - 32 ≤ fatSize t ((256 * spc + 2) / 2) * (128 * spc + 1) ∧
      2 * spc ≤ fatSize t ((256 * spc + 2) / 2) ∧ 32 + 2 * fatSize t ((256 * spc + 2) / 2) < t ∧
      65525 ≤ (t - (32 + 2 * fatSize t ((256 * spc + 2) / 2))) / spc ∧
      (t - (32 + 2 * fatSize t ((256 * spc + 2) / 2))) / spc ≤ 2 ^ 26 := by
  unfold secPerClus at hspc
  unfold fatSize
  split_ifs at hspc with h0 h1 h2 h3 h4 <;> obtain rfl := Option.some.inj hspc <;>
    rw [mod_eq_of_lt (by omega)] <;> refine ⟨by simp, ?_⟩ <;> omega

theorem geometry_ok {count : Nat} (h : 66600 < count) : ∃ g, geometry count = .ok g ∧ g.Fits count := by
  have hle : min count (2 ^ 32 - 1) < 2 ^ 32 := by omega
  obtain ⟨spc, hspc⟩ : ∃ spc, secPerClus (min count (2 ^ 32 - 1)) = some spc := by
    unfold secPerClus
    rw [if_neg (by omega)]
    split_ifs <;> exact ⟨_, rfl⟩
  obtain ⟨hmem, henough, hwide, hstart, hmin, hmax⟩ := fatSize_band hspc hle
  have hspc64 : spc ≤ 64 := by
    simp only [mem_cons, not_mem_nil, or_false] at hmem
    omega
  have hgeom : geometry count = .ok {
      totSec := min count (2 ^ 32 - 1)
      secPerClus := spc
      fatSz32 := fatSize (min count (2 ^ 32 - 1)) ((256 * spc + 2) / 2)
      dataStart := 32 + 2 * fatSize (min count (2 ^ 32 - 1)) ((256 * spc + 2) / 2)
      clusters := (min count (2 ^ 32 - 1) - (32 + 2 * fatSize (min count (2 ^ 32 - 1)) ((256 * spc + 2) / 2))) / spc } := by
    have hu : ∀ {n : Nat}, n < 2 ^ 32 → u32 n = .ok n := fun hn => if_pos hn
    simp only [geometry, hspc]
    rw [hu (by omega)]
    simp only [bind, Except.bind]
    rw [hu (by omega)]
    simp only
    rw [hu (by omega)]
    simp only
    rw [hu (by omega)]
    simp only
    rw [if_neg (by omega), if_neg (by omega)]
  exact ⟨_, hgeom, rfl, hmem, rfl, henough, hwide, hstart, rfl, hmin, hmax⟩

namespace Geometry.Fits

variable {g : Geometry} {count : Nat} (h : g.Fits count)
include h

theorem spc_bounds : 0 < g.secPerClus ∧ g.secPerClus ≤ 64 := by
  have hmem := h.spc_mem
  simp only [mem_cons, not_mem_nil, or_false] at hmem
  omega

theorem totSec_le : g.totSec ≤ count ∧ g.totSec < 2 ^ 32 := by
  have heq := h.totSec_eq
  omega

theorem fatSz32_lt : g.fatSz32 < 2 ^ 31 := by
  have hstart := h.dataStart_eq
  have hlt := h.dataStart_lt
  have htot := h.totSec_le
  omega

theorem clusters_le : g.clusters * g.secPerClus ≤ g.totSec - g.dataStart := by
  rw [h.clusters_eq]
  exact div_mul_le_self _ _

omit h in
theorem dataStartSector_eq : g.bpb.dataStartSector = 32 + 2 * g.fatSz32 := rfl

/-- The FAT has an entry for every cluster: the rounding error is smaller than `2 * fat_sz32`. -/
theorem clusters_add_two_le : g.clusters + 2 ≤ 128 * g.fatSz32 := by
  obtain ⟨hpos, -⟩ := h.spc_bounds
  have hle := h.clusters_le
  have hstart := h.dataStart_eq
  have henough := h.enough
  have hwide := h.wide
  have hlt := h.dataStart_lt
  have hmul : (g.clusters + 2) * g.secPerClus ≤ 128 * g.fatSz32 * g.secPerClus := by
    have hexpand : g.fatSz32 * (128 * g.secPerClus + 1) = 128 * g.fatSz32 * g.secPerClus + g.fatSz32 := by ring
    have hsum : (g.clusters + 2) * g.secPerClus = g.clusters * g.secPerClus + 2 * g.secPerClus := by ring
    omega
  exact Nat.le_of_mul_le_mul_right hmul hpos

theorem maxCluster_eq : g.bpb.maxCluster = g.clusters + 2 := by
  have hmax := h.clusters_max
  have hdef : g.bpb.maxCluster = ((g.totSec - (32 + 2 * g.fatSz32)) / g.secPerClus + 2) % 2 ^ 32 := rfl
  rw [hdef, ← h.dataStart_eq, ← h.clusters_eq, mod_eq_of_lt (by omega)]

theorem wellSized {blocks : Nat} (hcount : count ≤ blocks) : g.bpb.WellSized blocks := by
  obtain ⟨hpos, -⟩ := h.spc_bounds
  have hmax := h.maxCluster_eq
  have hcover := h.clusters_add_two_le
  have hle := h.clusters_le
  have hlt := h.dataStart_lt
  have hstart := h.dataStart_eq
  have htot := h.totSec_le
  have hbound := h.clusters_max
  refine ⟨hpos, Nat.zero_lt_two, succ_pos 31, by rw [hmax]; exact hcover, by rw [eoc]; omega, ?_⟩
  rw [hmax]
  change 32 + 2 * g.fatSz32 + g.clusters * g.secPerClus ≤ blocks
  omega

end Geometry.Fits

/-! The boot sector -/

section

variable {g : Geometry} {volId : List UInt8}

theorem length_zeroSector : zeroSector.length = 512 := List.length_replicate

theorem bootFields_ordered (hvol : volId.length = 4) : Ordered zeroSector.length (bootFields g volId) := by
  refine (ordered_of_inOrder (a := 0) ?_).1
  simp only [bootFields, map_cons, map_nil, length_leBytes, hvol, length_zeroSector, length_cons,
    length_nil]
  decide

theorem length_bootSector (hvol : volId.length = 4) : (bootSector g volId).length = 512 := by
  rw [bootSector, length_fill (bootFields_ordered hvol).1, length_zeroSector]

theorem field_bootSector (hvol : volId.length = 4) {off w x : Nat} (hm : (off, leBytes w x) ∈ bootFields g volId)
    (hx : x < 256 ^ w) : field (bootSector g volId) off w = x := by
  rw [field, bootSector, slice_fill_mem (bootFields_ordered hvol) hm (length_leBytes w x), leVal_leBytes_of_lt hx]

theorem isPowerOfTwo_spc {n : Nat} (h : n ∈ [1, 8, 16, 32, 64]) : isPowerOfTwo n = true := by
  simp only [mem_cons, not_mem_nil, or_false] at h
  rcases h with rfl | rfl | rfl | rfl | rfl <;> decide

theorem parse_bootSector {count : Nat} (hg : g.Fits count) (hvol : volId.length = 4) :
    Bpb.parse (bootSector g volId) = .ok g.bpb := by
  have hspc := hg.spc_bounds
  have htot := hg.totSec_le
  have hfat := hg.fatSz32_lt
  have hlen := length_bootSector (g := g) hvol
  have hsig : field (bootSector g volId) 510 2 = 0xAA55 :=
    field_bootSector hvol (by simp [bootFields, leBytes]) (by decide)
  have hbps : field (bootSector g volId) 0x0B 2 = 512 := field_bootSector hvol (by simp [bootFields]) (by decide)
  have hspc' : field (bootSector g volId) 0x0D 1 = g.secPerClus :=
    field_bootSector hvol (by simp [bootFields]) (by omega)
  have hrsvd : field (bootSector g volId) 0x0E 2 = 32 := field_bootSector hvol (by simp [bootFields]) (by decide)
  have hnum : field (bootSector g volId) 0x10 1 = 2 :=
    field_bootSector hvol (by simp [bootFields, leBytes]) (by decide)
  have hfsz : field (bootSector g volId) 0x24 4 = g.fatSz32 :=
    field_bootSector hvol (by simp [bootFields]) (by omega)
  have hroot : field (bootSector g volId) 0x2C 4 = 2 := field_bootSector hvol (by simp [bootFields]) (by decide)
  have htot' : field (bootSector g volId) 0x20 4 = g.totSec :=
    field_bootSector hvol (by simp [bootFields]) (by omega)
  have hpow := isPowerOfTwo_spc hg.spc_mem
  rw [Bpb.parse, if_neg (by omega), hsig, if_neg (by decide), hbps, if_neg (by decide), hspc', if_neg (by simp [hpow]),
    hrsvd, hnum, hfsz, hroot, htot', Geometry.bpb]

end

end Ruos.Fat
