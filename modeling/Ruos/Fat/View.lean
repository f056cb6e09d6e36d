import Ruos.Fat.Volume
import Ruos.Lib.Walk

/-! What a mounted volume stores: a table of FAT entries and the contents of its clusters. The
functions of `Ruos.Fat.Volume` read and change these as one expects. -/
namespace Ruos.Fat

open Lib Vfs Block Function Mem Bpb Nat

/-- The FAT entries and the clusters of a volume; `mirrored` if all copies of its FAT agree. -/
structure Vol where
  fat : Nat → Nat
  clus : Nat → List UInt8
  mirrored : Prop

namespace Vol

def setFat (v : Vol) (n x : Nat) : Vol := { v with fat := Function.update v.fat n x }

def setClus (v : Vol) (n : Nat) (data : List UInt8) : Vol := { v with clus := Function.update v.clus n data }

/-- The volume after the free cluster `n` was made a chain of its own, zeroed. -/
def alloc (v : Vol) (b : Bpb) (n : Nat) : Vol := (v.setFat n 0x0FFFFFFF).setClus n (zeroCluster b)

theorem clus_setClus_self (v : Vol) (n : Nat) (data : List UInt8) : (v.setClus n data).clus n = data :=
  update_self _ _ _

theorem clus_setClus_of_ne {n k : Nat} (hne : k ≠ n) (v : Vol) (data : List UInt8) :
    (v.setClus n data).clus k = v.clus k := update_of_ne hne _ _

end Vol

namespace Bpb

def IsCluster (b : Bpb) (n : Nat) : Prop := 2 ≤ n ∧ n < b.maxCluster

instance (b : Bpb) (n : Nat) : Decidable (b.IsCluster n) := inferInstanceAs (Decidable (_ ∧ _))

/-- Address of the entry of cluster `n` in the first FAT. -/
def fatAddr (b : Bpb) (n : Nat) : Nat := 512 * b.rsvdSecCnt + n * 4

def clusterAddr (b : Bpb) (n : Nat) : Nat := 512 * b.clusterSector n

/-- A geometry that a device of `blocks` blocks has room for. -/
structure WellSized (b : Bpb) (blocks : Nat) : Prop where
  spc_pos : 0 < b.secPerCluster
  fats_pos : 0 < b.numFats
  rsvd_pos : 0 < b.rsvdSecCnt
  covers : b.maxCluster ≤ 128 * b.fatSz32
  max_le : b.maxCluster ≤ eoc
  inside : b.dataStartSector + (b.maxCluster - 2) * b.secPerCluster ≤ blocks

namespace WellSized

variable {b : Bpb} {blocks n k : Nat} (h : b.WellSized blocks)
include h

theorem sector_le (hn : b.IsCluster n) : b.clusterSector n + b.secPerCluster ≤ blocks := by
  have hle : n - 2 + 1 ≤ b.maxCluster - 2 := by
    unfold IsCluster at hn
    omega
  have hmul := mul_add_le_mul b.secPerCluster hle
  have hin := h.inside
  unfold clusterSector
  omega

theorem dataStart_le : b.dataStartSector ≤ blocks := by
  have hin := h.inside
  omega

theorem entry_lt (hn : b.IsCluster n) : n < 128 * b.fatSz32 := lt_of_lt_of_le hn.2 h.covers

omit h in
theorem copy_le (hk : k < b.numFats) : b.rsvdSecCnt + k * b.fatSz32 + b.fatSz32 ≤ b.dataStartSector := by
  have hmul := mul_add_le_mul b.fatSz32 hk
  simp only [dataStartSector]
  omega

theorem fatSector_lt (hn : b.IsCluster n) (hk : k < b.numFats) :
    (b.fatEntryLoc n).1 + k * b.fatSz32 < b.dataStartSector := by
  have hentry := h.entry_lt hn
  have hcopy := copy_le hk
  simp only [fatEntryLoc]
  omega

theorem fatAddr_le (hn : n < 128 * b.fatSz32) : b.fatAddr n + 4 ≤ 512 * b.dataStartSector := by
  have hcopy := copy_le h.fats_pos
  unfold fatAddr
  omega

theorem boot_le : 512 ≤ 512 * b.rsvdSecCnt := by
  have hr := h.rsvd_pos
  omega

end WellSized

theorem rsvd_le_dataStart (b : Bpb) : 512 * b.rsvdSecCnt ≤ 512 * b.dataStartSector := by
  simp only [dataStartSector]
  omega

theorem dataStart_le_clusterAddr (b : Bpb) (n : Nat) : 512 * b.dataStartSector ≤ b.clusterAddr n := by
  simp only [clusterAddr, clusterSector]
  omega

theorem clusterAddr_disjoint {b : Bpb} {n k : Nat} (hn : b.IsCluster n) (hk : b.IsCluster k) (hne : n ≠ k) :
    b.clusterAddr n + b.clusterBytes ≤ b.clusterAddr k ∨ b.clusterAddr k + b.clusterBytes ≤ b.clusterAddr n := by
  unfold IsCluster at hn hk
  have hstep : ∀ {i j : Nat}, i < j → i * b.secPerCluster + b.secPerCluster ≤ j * b.secPerCluster := by
    intro i j hij
    rw [← succ_mul]
    exact mul_le_mul_right _ hij
  simp only [clusterAddr, clusterSector, clusterBytes]
  rcases lt_or_gt_of_ne hne with hlt | hlt
  · have hmul := hstep (by omega : n - 2 < k - 2)
    left
    omega
  · have hmul := hstep (by omega : k - 2 < n - 2)
    right
    omega

end Bpb

/-- The store holds the volume `v` of geometry `b`. -/
structure Mounted (b : Bpb) (m : Mem) (v : Vol) : Prop where
  boot : Bpb.parse (m.read 0 512) = .ok b
  fat : ∀ n, n < 128 * b.fatSz32 → v.fat n = leVal (m.read (b.fatAddr n) 4) % 2 ^ 28
  clus : ∀ n, b.IsCluster n → v.clus n = m.read (b.clusterAddr n) b.clusterBytes
  mirror : v.mirrored → ∀ k < b.numFats, ∀ i < 512 * b.fatSz32,
    m (512 * (b.rsvdSecCnt + k * b.fatSz32) + i) = m (512 * b.rsvdSecCnt + i)

def volOf (b : Bpb) (m : Mem) : Vol where
  fat n := leVal (m.read (b.fatAddr n) 4) % 2 ^ 28
  clus n := m.read (b.clusterAddr n) b.clusterBytes
  mirrored := ∀ k < b.numFats, ∀ i < 512 * b.fatSz32,
    m (512 * (b.rsvdSecCnt + k * b.fatSz32) + i) = m (512 * b.rsvdSecCnt + i)

theorem mounted_volOf {b : Bpb} {m : Mem} (h : Bpb.parse (m.read 0 512) = .ok b) : Mounted b m (volOf b m) :=
  ⟨h, fun _ _ => rfl, fun _ _ => rfl, fun hm => hm⟩

namespace Mounted

variable {b : Bpb} {m : Mem} {v : Vol} {blocks n x : Nat} {data : List UInt8}

theorem length_clus (h : Mounted b m v) (hn : b.IsCluster n) : (v.clus n).length = b.clusterBytes := by
  rw [h.clus n hn, length_read]

theorem setClus (h : Mounted b m v) (hw : b.WellSized blocks) (hn : b.IsCluster n)
    (hlen : data.length = b.clusterBytes) : Mounted b (m.write (b.clusterAddr n) data) (v.setClus n data) := by
  have hdata := dataStart_le_clusterAddr b n
  have hrsvd := rsvd_le_dataStart b
  have hboot := hw.boot_le
  have hbelow : ∀ a, a < 512 * b.dataStartSector → m.write (b.clusterAddr n) data a = m a := fun a ha =>
    write_of_outside (Or.inl (by omega))
  constructor
  · rw [read_congr fun a _ ha => hbelow a (by omega)]
    exact h.boot
  · intro k hk
    have hle := hw.fatAddr_le hk
    rw [read_congr fun a _ ha => hbelow a (by omega)]
    exact h.fat k hk
  · intro k hk
    by_cases hkn : k = n
    · subst hkn
      rw [read_write_of_length hlen]
      exact update_self _ _ _
    · rw [read_write_disjoint (by rw [hlen]; exact (clusterAddr_disjoint hk hn hkn)), ← h.clus k hk]
      exact update_of_ne hkn _ _
  · intro hmir k hk i hi
    have hcopy := Bpb.WellSized.copy_le hk
    rw [hbelow _ (by omega), hbelow _ (by omega)]
    exact h.mirror hmir k hk i hi

end Mounted

/-- The four bytes of a FAT entry with its lower 28 bits replaced. -/
def entryBytes (old : List UInt8) (value : Nat) : List UInt8 :=
  leBytes 4 (leVal old / 2 ^ 28 * 2 ^ 28 + value % 2 ^ 28)

theorem leVal_entryBytes {old : List UInt8} (hold : old.length = 4) (value : Nat) :
    leVal (entryBytes old value) % 2 ^ 28 = value % 2 ^ 28 := by
  have hlt := leVal_lt old
  rw [hold] at hlt
  rw [entryBytes, leVal_leBytes_of_lt (by omega)]
  omega

/-- The store after `k` copies of an entry, `stride` sectors apart, were set. -/
def setCopies (stride off value : Nat) (sec : Nat) : Nat → Mem → Mem
  | 0, m => m
  | k + 1, m =>
    setCopies stride off value (sec + stride) k
      (m.write (512 * sec) (setFatEntry (m.read (512 * sec) 512) off value))

section

variable {m : Mem} {stride off value sec k j a : Nat}

theorem forall_next {P : Nat → Prop} (h : ∀ i < k + 1, P (sec + i * stride)) (i : Nat) (hi : i < k) :
    P (sec + stride + i * stride) := by
  have hnext := h (i + 1) (Nat.succ_lt_succ hi)
  rwa [Nat.add_one_mul i stride, Nat.add_comm (i * stride), ← Nat.add_assoc] at hnext

theorem write_setFatEntry (hoff : off + 4 ≤ 512) :
    m.write (512 * sec) (setFatEntry (m.read (512 * sec) 512) off value) =
      m.write (512 * sec + off) (entryBytes (m.read (512 * sec + off) 4) value) := by
  rw [setFatEntry, write_splice_read hoff, field, slice_read hoff, entryBytes]

theorem setCopies_outside (hoff : off + 4 ≤ 512)
    (h : ∀ i < k, ¬ (512 * (sec + i * stride) + off ≤ a ∧ a < 512 * (sec + i * stride) + off + 4)) :
    setCopies stride off value sec k m a = m a := by
  induction k generalizing sec m with
  | zero => rfl
  | succ k ih =>
    have hfirst := h 0 (by omega)
    have hrest := forall_next (P := fun n => ¬ (512 * n + off ≤ a ∧ a < 512 * n + off + 4)) h
    rw [setCopies, ih hrest, write_setFatEntry hoff, write_of_outside]
    simp only [entryBytes, length_leBytes]
    omega

theorem setCopies_read (hoff : off + 4 ≤ 512) (hs : 0 < stride) (hj : j < k) :
    (setCopies stride off value sec k m).read (512 * (sec + j * stride) + off) 4 =
      entryBytes (m.read (512 * (sec + j * stride) + off) 4) value := by
  induction k generalizing sec m j with
  | zero => omega
  | succ k ih =>
    rw [setCopies, write_setFatEntry hoff]
    cases j with
    | zero =>
      rw [zero_mul, add_zero]
      have hkeep : ∀ x, 512 * sec + off ≤ x → x < 512 * sec + off + 4 →
          setCopies stride off value (sec + stride) k
            (m.write (512 * sec + off) (entryBytes (m.read (512 * sec + off) 4) value)) x =
            m.write (512 * sec + off) (entryBytes (m.read (512 * sec + off) 4) value) x := by
        intro x hlo hhi
        refine setCopies_outside hoff fun i hi => ?_
        omega
      rw [read_congr hkeep, read_write_of_length (by simp [entryBytes])]
    | succ j =>
      have hsec : sec + (j + 1) * stride = sec + stride + j * stride := by ring
      rw [hsec, ih (by omega), read_write_disjoint (by simp [entryBytes]; omega)]

end

section

variable {b : Bpb} {m : Mem} {v : Vol} {blocks n k a x : Nat}

theorem entryAddr (b : Bpb) (n j : Nat) : 512 * ((b.fatEntryLoc n).1 + j * b.fatSz32) + (b.fatEntryLoc n).2 =
      512 * (b.rsvdSecCnt + j * b.fatSz32) + n * 4 := by
  simp only [fatEntryLoc]
  omega

theorem entryOff_le (b : Bpb) (n : Nat) : (b.fatEntryLoc n).2 + 4 ≤ 512 := by
  simp only [fatEntryLoc]
  omega

/-- The store after the entry of cluster `n` was set to `x`. -/
def setEntryMem (b : Bpb) (n x : Nat) (m : Mem) : Mem :=
  setCopies b.fatSz32 (b.fatEntryLoc n).2 x (b.fatEntryLoc n).1 b.numFats m

theorem setEntryMem_outside (h : ∀ i < b.numFats, ¬ (512 * (b.rsvdSecCnt + i * b.fatSz32) + n * 4 ≤ a ∧
      a < 512 * (b.rsvdSecCnt + i * b.fatSz32) + n * 4 + 4)) : setEntryMem b n x m a = m a := by
  refine setCopies_outside (entryOff_le b n) fun i hi => ?_
  rw [entryAddr]
  exact h i hi

theorem setEntryMem_read (hs : 0 < b.fatSz32) (hk : k < b.numFats) :
    (setEntryMem b n x m).read (512 * (b.rsvdSecCnt + k * b.fatSz32) + n * 4) 4 =
      entryBytes (m.read (512 * (b.rsvdSecCnt + k * b.fatSz32) + n * 4) 4) x := by
  rw [← entryAddr]
  exact setCopies_read (entryOff_le b n) hs hk

theorem setEntryMem_reserved (ha : a < 512 * b.rsvdSecCnt) : setEntryMem b n x m a = m a :=
  setEntryMem_outside fun i _ => by
    omega

theorem setEntryMem_data (hw : b.WellSized blocks) (hn : b.IsCluster n) (ha : 512 * b.dataStartSector ≤ a) :
    setEntryMem b n x m a = m a :=
  setEntryMem_outside fun i hi => by
    have hcopy := Bpb.WellSized.copy_le hi
    have hentry := hw.entry_lt hn
    omega

theorem Mounted.setFat (h : Mounted b m v) (hw : b.WellSized blocks) (hn : b.IsCluster n) (x : Nat) :
    Mounted b (setEntryMem b n x m) (v.setFat n (x % 2 ^ 28)) := by
  have hboot := hw.boot_le
  have hentry := hw.entry_lt hn
  have hpos : 0 < b.fatSz32 := by omega
  constructor
  · rw [Mem.read_congr fun a _ ha => setEntryMem_reserved (by omega)]
    exact h.boot
  · intro k hk
    have hsame := setEntryMem_read (n := n) (x := x) (m := m) hpos hw.fats_pos
    rw [Nat.zero_mul, Nat.add_zero] at hsame
    by_cases hkn : k = n
    · subst hkn
      rw [fatAddr, hsame, leVal_entryBytes (Mem.length_read _ _ _)]
      exact update_self _ _ _
    · have hkeep : ∀ a, b.fatAddr k ≤ a → a < b.fatAddr k + 4 → setEntryMem b n x m a = m a := by
        intro a hlo hhi
        refine setEntryMem_outside fun i _ => ?_
        unfold fatAddr at hlo hhi
        cases i with
        | zero => omega
        | succ i =>
          rw [Nat.add_one_mul i b.fatSz32]
          omega
      rw [Mem.read_congr hkeep, ← h.fat k hk]
      exact update_of_ne hkn _ _
  · intro k hk
    have hdata := dataStart_le_clusterAddr b k
    rw [Mem.read_congr fun a ha _ => setEntryMem_data hw hn (by omega)]
    exact h.clus k hk
  · intro hmir k hk i hi
    have hold := h.mirror hmir k hk
    by_cases hin : n * 4 ≤ i ∧ i < n * 4 + 4
    · obtain ⟨t, rfl⟩ := Nat.exists_eq_add_of_le hin.1
      have hcopy := setEntryMem_read (n := n) (x := x) (m := m) hpos hk
      have hfirst := setEntryMem_read (n := n) (x := x) (m := m) hpos hw.fats_pos
      have hsame : m.read (512 * (b.rsvdSecCnt + k * b.fatSz32) + n * 4) 4 =
          m.read (512 * (b.rsvdSecCnt + 0 * b.fatSz32) + n * 4) 4 := by
        refine List.map_congr_left fun j hj => ?_
        have hj4 : j < 4 := List.mem_range.mp hj
        rw [Nat.zero_mul, Nat.add_assoc, Nat.add_assoc]
        exact hold (n * 4 + j) (by omega)
      rw [hsame] at hcopy
      have hlt : t < 4 := by omega
      have hck := Mem.apply_of_read hcopy hlt
      have hcf := Mem.apply_of_read hfirst hlt
      rw [Nat.zero_mul, Nat.add_zero] at hcf
      rw [← Nat.add_assoc, ← Nat.add_assoc, hck, hcf, Nat.zero_mul, Nat.add_zero]
    · have hkeep : ∀ j < b.numFats, setEntryMem b n x m (512 * (b.rsvdSecCnt + j * b.fatSz32) + i) =
          m (512 * (b.rsvdSecCnt + j * b.fatSz32) + i) := by
        intro j _
        refine setEntryMem_outside fun l _ => ?_
        rcases mul_apart l j b.fatSz32 with hlt | rfl | hlt <;> omega
      have hzero := hkeep 0 hw.fats_pos
      rw [Nat.zero_mul, Nat.add_zero] at hzero
      rw [hkeep k hk, hzero]
      exact hold i hi

end
end Ruos.Fat
