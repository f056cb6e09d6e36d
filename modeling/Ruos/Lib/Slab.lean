import Mathlib.Data.List.Range

/-! Vectors of optional values whose insertion takes the first free index, or a new one at the end. -/
namespace Ruos.Lib

open List Option

abbrev Slab (α : Type*) := List (Option α)

namespace Slab

variable {α β : Type*} {t : Slab α} {i j : Nat} {x : α}

def get (t : Slab α) (i : Nat) : Option α := t[i]?.join

def insert (t : Slab α) (x : α) : Nat × Slab α :=
  match t.findIdx? Option.isNone with
  | some i => (i, t.set i (some x))
  | none => (t.length, t ++ [some x])

theorem get_eq_some : get t i = some x ↔ t[i]? = some (some x) := Option.join_eq_some_iff

theorem mem_iff_exists_get : some x ∈ t ↔ ∃ i, get t i = some x := by
  simp only [get_eq_some, mem_iff_getElem?]

theorem get_of_length_le (h : t.length ≤ i) : get t i = none := by
  rw [get, getElem?_eq_none h, join_none]

theorem get_set (h : i < t.length) (o : Option α) (j : Nat) : get (t.set i o) j = if j = i then o else get t j := by
  by_cases hj : j = i
  · subst hj
    simp [get, getElem?_set_self h]
  · simp [get, getElem?_set_ne (Ne.symm hj), hj]

theorem lt_length_of_get (h : get t i = some x) : i < t.length := by
  obtain ⟨hi, -⟩ := List.getElem?_eq_some_iff.mp (get_eq_some.mp h)
  exact hi

theorem get_set_none (t : Slab α) (i j : Nat) : get (t.set i none) j = if j = i then none else get t j := by
  rcases Nat.lt_or_ge i t.length with hi | hi
  · exact get_set hi none j
  · rw [set_eq_of_length_le hi]
    split_ifs with hj
    · exact get_of_length_le (hj ▸ hi)
    · rfl

theorem get_mapIdx (f : Nat → α → β) (t : Slab α) (i : Nat) :
    get (t.mapIdx fun j o => o.map (f j)) i = (get t i).map (f i) := by
  simp only [get, getElem?_mapIdx]
  cases t[i]? with
  | none | some => rfl

theorem get_insert_fst (t : Slab α) (x : α) : get t (insert t x).1 = none := by
  unfold insert
  cases h : t.findIdx? isNone with
  | none => exact get_of_length_le le_rfl
  | some i =>
    obtain ⟨hi, hnone, -⟩ := findIdx?_eq_some_iff_getElem.mp h
    rw [get, getElem?_eq_getElem hi, isNone_iff_eq_none.mp hnone]
    rfl

theorem get_insert (t : Slab α) (x : α) (j : Nat) :
    get (insert t x).2 j = if j = (insert t x).1 then some x else get t j := by
  unfold insert
  cases h : t.findIdx? isNone with
  | some i =>
    obtain ⟨hi, -⟩ := findIdx?_eq_some_iff_getElem.mp h
    exact get_set hi (some x) j
  | none =>
    rcases Nat.lt_trichotomy j t.length with hj | hj | hj
    · simp [get, getElem?_append_left hj, Nat.ne_of_lt hj]
    · simp [get, hj]
    · have hout : (t ++ [some x]).length ≤ j := by simpa using Nat.succ_le_of_lt hj
      rw [if_neg (Nat.ne_of_gt hj), get_of_length_le hout, get_of_length_le hj.le]

def clear (t : Slab α) : List Nat → Slab α
  | [] => t
  | i :: is => clear (t.set i none) is

theorem get_clear (is : List Nat) (t : Slab α) (j : Nat) : get (clear t is) j = if j ∈ is then none else get t j := by
  induction is generalizing t with
  | nil => simp [clear]
  | cons i is ih =>
    rw [clear, ih, get_set_none]
    by_cases hj : j = i <;> by_cases hmem : j ∈ is <;> simp [hj, hmem]

def entries (t : Slab α) : List (Nat × α) := t.zipIdx.filterMap fun x => x.1.map fun a => (x.2, a)

theorem get_of_mem_entries (h : (i, x) ∈ entries t) : get t i = some x := by
  rw [get_eq_some]
  obtain ⟨⟨o, k⟩, hmem, heq⟩ := mem_filterMap.mp h
  obtain ⟨a, rfl, hpair⟩ := map_eq_some_iff.mp heq
  obtain ⟨rfl, rfl⟩ := Prod.mk.inj hpair
  exact mem_zipIdx_iff_getElem?.mp hmem

theorem pairwise_entries (t : Slab α) : (entries t).Pairwise fun a b => a.1 ≠ b.1 := by
  have hindices : t.zipIdx.Pairwise fun a b => a.2 ≠ b.2 := by
    have h : (t.zipIdx.map Prod.snd).Pairwise (· ≠ ·) := by
      rw [zipIdx_map_snd]
      exact nodup_range'
    exact pairwise_map.mp h
  refine pairwise_filterMap.mpr (hindices.imp fun {a b} hne x hx y hy => ?_)
  obtain ⟨-, -, rfl⟩ := map_eq_some_iff.mp hx
  obtain ⟨-, -, rfl⟩ := map_eq_some_iff.mp hy
  exact hne

end Slab
end Ruos.Lib
