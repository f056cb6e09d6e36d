import Ruos.Lib.Memory

/-! The per-core cache of small blocks in front of the kernel heap, `memory/alloc_magazine.rs`. -/
namespace Ruos.Memory

open Lib

def numClasses : Nat := 8

def maxSmall : Nat := 2048

def cacheDepth : Nat := 64

def classAlign : Nat := 16

def maxCpus : Nat := 16

structure Layout where
  size : Nat
  align : Nat
  isPow : ∃ k, align = 2 ^ k
deriving DecidableEq

def classLayout (sz : Nat) : Layout := ⟨sz, classAlign, 4, rfl⟩

/-- The loop of `size_class`. It ends within `fuel` rounds if `need` is at most `sz` doubled `fuel` times. -/
def grow (need : Nat) : (fuel sz idx : Nat) → Nat × Nat
  | 0, sz, idx => (sz, idx)
  | fuel + 1, sz, idx => if sz < need then grow need fuel (sz <<< 1) (idx + 1) else (sz, idx)

theorem grow_spec {need fuel idx : Nat} (hneed : need ≤ 16 <<< (idx + fuel)) :
    ∃ k, grow need fuel (16 <<< idx) idx = (16 <<< k, k) ∧ k ≤ idx + fuel ∧ need ≤ 16 <<< k := by
  induction fuel generalizing idx with
  | zero => exact ⟨idx, rfl, Nat.le_refl _, hneed⟩
  | succ fuel ih =>
    unfold grow
    by_cases hlt : 16 <<< idx < need
    · obtain ⟨k, hk, hle, hfits⟩ := @ih (idx + 1) (by rwa [Nat.add_right_comm])
      rw [if_pos hlt, ← Nat.shiftLeft_add, hk]
      exact ⟨k, rfl, by omega, hfits⟩
    · rw [if_neg hlt]
      exact ⟨idx, rfl, by omega, by omega⟩

theorem grow_lt {need : Nat} (h : need ≤ maxSmall) : (grow need (numClasses - 1) 16 0).2 < numClasses := by
  obtain ⟨k, hk, hle, -⟩ := @grow_spec need 7 0 h
  have : grow need (numClasses - 1) 16 0 = (16 <<< k, k) := hk
  rw [this]
  unfold numClasses
  omega

/-- The class of a request and the layout of that class, or `none` if the request bypasses the magazines. -/
def sizeClass (layout : Layout) : Option (Fin numClasses × Layout) :=
  if classAlign < layout.align then none
  else
    let need := max layout.size layout.align
    if h : need = 0 ∨ maxSmall < need then none
    else some (⟨(grow need (numClasses - 1) 16 0).2, grow_lt (by omega)⟩,
      classLayout (grow need (numClasses - 1) 16 0).1)

/-- Free lists for one core: the address of the first block of each class, 0 if there is none, and the number of
blocks. -/
structure Magazine where
  heads : Fin numClasses → Nat
  depth : Fin numClasses → Nat

def Magazine.new : Magazine := ⟨fun _ => 0, fun _ => 0⟩

/-- The magazines of all cores and the memory that the blocks lie in. -/
structure MagazineAlloc where
  mags : Fin maxCpus → Magazine
  mem : Mem

namespace MagazineAlloc

def new (mem : Mem) : MagazineAlloc := ⟨fun _ => Magazine.new, mem⟩

/-- The first word of a free block is the address of the next one. -/
def next (s : MagazineAlloc) (p : Nat) : Nat := leVal (s.mem.read p 8)

def setList (s : MagazineAlloc) (cpu : Fin maxCpus) (cls : Fin numClasses) (head depth : Nat) : MagazineAlloc :=
  let mag := s.mags cpu
  let mag' : Magazine := ⟨Function.update mag.heads cls head, Function.update mag.depth cls depth⟩
  { s with mags := Function.update s.mags cpu mag' }

/-- Take a block from the magazine (`.inl`), or ask talc for one with the layout (`.inr`). -/
def alloc (s : MagazineAlloc) (cpu : Fin maxCpus) (layout : Layout) : (Nat ⊕ Layout) × MagazineAlloc :=
  match sizeClass layout with
  | some (cls, clsLayout) =>
    let head := (s.mags cpu).heads cls
    if head ≠ 0 then (.inl head, s.setList cpu cls (s.next head) ((s.mags cpu).depth cls - 1))
    else (.inr clsLayout, s)
  | none => (.inr layout, s)

/-- Push the block on the free list (`none`), or give it back to talc with the layout. -/
def dealloc (s : MagazineAlloc) (cpu : Fin maxCpus) (p : Nat) (layout : Layout) : Option Layout × MagazineAlloc :=
  match sizeClass layout with
  | some (cls, clsLayout) =>
    if (s.mags cpu).depth cls < cacheDepth then
      (none, { s with mem := s.mem.write p (leBytes 8 ((s.mags cpu).heads cls)) }.setList cpu cls p
        ((s.mags cpu).depth cls + 1))
    else (some clsLayout, s)
  | none => (some layout, s)

end MagazineAlloc

def canonical (layout : Layout) : Layout :=
  match sizeClass layout with
  | some (_, clsLayout) => clsLayout
  | none => layout

def classSize (cls : Fin numClasses) : Nat := 16 <<< cls.val

variable {layout clsLayout : Layout}

theorem sizeClass_spec {cls : Fin numClasses} (h : sizeClass layout = some (cls, clsLayout)) :
    clsLayout = classLayout (classSize cls) ∧ layout.size ≤ classSize cls ∧ layout.align ∣ classAlign := by
  unfold sizeClass at h
  split at h
  · cases h
  · rename_i halign
    simp only at h
    split at h
    · cases h
    · obtain ⟨k, hk, hle, hfits⟩ := @grow_spec (max layout.size layout.align) 7 0 (by
        change _ ≤ maxSmall
        omega)
      have hgrow : grow (max layout.size layout.align) (numClasses - 1) 16 0 = (16 <<< k, k) := hk
      simp only [hgrow] at h
      cases h
      refine ⟨rfl, le_trans (le_max_left _ _) hfits, ?_⟩
      obtain ⟨j, hj⟩ := layout.isPow
      have hpow : 2 ^ j ≤ 2 ^ 4 := by
        unfold classAlign at halign
        omega
      have hj4 : j ≤ 4 := (Nat.pow_le_pow_iff_right (by decide)).mp hpow
      rw [hj]
      exact Nat.pow_dvd_pow 2 hj4

theorem canonical_of_class {cls : Fin numClasses} (h : sizeClass layout = some (cls, clsLayout)) :
    canonical layout = classLayout (classSize cls) := by
  unfold canonical
  rw [h]
  exact (sizeClass_spec h).1

theorem canonical_of_none {layout : Layout} (h : sizeClass layout = none) : canonical layout = layout := by
  unfold canonical
  rw [h]

theorem size_le_canonical (layout : Layout) : layout.size ≤ (canonical layout).size := by
  cases h : sizeClass layout with
  | none => rw [canonical_of_none h]
  | some x =>
    rw [canonical_of_class h]
    exact (sizeClass_spec h).2.1

theorem align_dvd_canonical (layout : Layout) : layout.align ∣ (canonical layout).align := by
  cases h : sizeClass layout with
  | none => rw [canonical_of_none h]
  | some x =>
    rw [canonical_of_class h]
    exact (sizeClass_spec h).2.2

theorem le_classSize (cls : Fin numClasses) : 16 ≤ classSize cls := by
  unfold classSize
  have : 0 < 2 ^ cls.val := Nat.two_pow_pos _
  omega

end Ruos.Memory
