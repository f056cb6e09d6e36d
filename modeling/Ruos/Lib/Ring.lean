import Mathlib.Data.List.Basic
import Mathlib.Data.Nat.ModEq

/-! Ring buffers of `cap` slots whose two indices count modulo `m`, and the bounded queue they implement. -/
namespace Ruos.Lib

open List Nat

/-- The indices run freely modulo `m`; slot `i` of the queue is at `(tail + i) % cap`. -/
structure Ring (α : Type*) (cap m : Nat) where
  buf : Nat → α
  head : Nat
  tail : Nat
  head_lt : head < m
  tail_lt : tail < m
  used_le : (head + (m - tail)) % m ≤ cap

namespace Ring

variable {α : Type*} {cap m : Nat}

def used (r : Ring α cap m) : Nat := (r.head + (m - r.tail)) % m

def contents (r : Ring α cap m) : List α := (List.range r.used).map fun i => r.buf ((r.tail + i) % cap)

def empty (hm : 0 < m) (a : α) : Ring α cap m where
  buf := fun _ => a
  head := 0
  tail := 0
  head_lt := hm
  tail_lt := hm
  used_le := by simp

theorem used_eq (r : Ring α cap m) : r.used = if r.tail ≤ r.head then r.head - r.tail else r.head + m - r.tail := by
  have hh := r.head_lt
  have ht := r.tail_lt
  unfold used
  split
  · have : r.head + (m - r.tail) = (r.head - r.tail) + m := by omega
    rw [this, add_mod_right, mod_eq_of_lt (by omega)]
  · rw [mod_eq_of_lt (by omega)]
    omega

theorem used_eq_zero {r : Ring α cap m} : r.used = 0 ↔ r.tail = r.head := by
  have ht := r.tail_lt
  rw [used_eq]
  split <;> omega

def next (m i : Nat) : Nat := (i + 1) % m

theorem next_eq {i : Nat} (hi : i < m) : next m i = if i + 1 = m then 0 else i + 1 := by
  unfold next
  split
  · rename_i h
    rw [h, mod_self]
  · rw [mod_eq_of_lt (by omega)]

theorem next_lt {i : Nat} (hi : i < m) : next m i < m := Nat.mod_lt _ (by omega)

theorem next_mod_cap (hdvd : cap ∣ m) (i j : Nat) : (next m i + j) % cap = (i + (j + 1)) % cap := by
  unfold next
  rw [add_mod, mod_mod_of_dvd _ hdvd, ← add_mod]
  congr 1
  omega

theorem used_write (r : Ring α cap m) (hroom : r.used < cap) (hcap : cap < m) :
    (next m r.head + (m - r.tail)) % m = r.used + 1 := by
  rw [next, mod_add_mod, Nat.add_right_comm, ← mod_add_mod]
  exact mod_eq_of_lt (Nat.lt_of_le_of_lt hroom hcap)

theorem used_read (r : Ring α cap m) (hne : r.tail ≠ r.head) : (r.head + (m - next m r.tail)) % m = r.used - 1 := by
  have hh := r.head_lt
  have ht := r.tail_lt
  rw [used_eq, next_eq ht]
  split
  · rw [if_neg (by omega), Nat.sub_zero, add_mod_right, mod_eq_of_lt (by omega)]
    omega
  · split
    · have : r.head + (m - (r.tail + 1)) = (r.head - (r.tail + 1)) + m := by omega
      rw [this, add_mod_right, mod_eq_of_lt (by omega)]
      omega
    · rw [mod_eq_of_lt (by omega)]
      omega

def write (hcap : cap < m) (r : Ring α cap m) (hroom : r.used < cap) (a : α) : Ring α cap m where
  buf := Function.update r.buf (r.head % cap) a
  head := next m r.head
  tail := r.tail
  head_lt := next_lt r.head_lt
  tail_lt := r.tail_lt
  used_le := by rw [used_write r hroom hcap]; omega

/-- The advance of the read index that a pop performs when there is an element. -/
def advance (r : Ring α cap m) (hne : r.tail ≠ r.head) : Ring α cap m where
  buf := r.buf
  head := r.head
  tail := next m r.tail
  head_lt := r.head_lt
  tail_lt := next_lt r.tail_lt
  used_le := by
    have hle : r.used ≤ cap := r.used_le
    rw [used_read r hne]
    omega

def push (hcap : cap < m) (r : Ring α cap m) (a : α) : Ring α cap m :=
  if h : r.used < cap then r.write hcap h a else r

def pop (r : Ring α cap m) : Option (α × Ring α cap m) :=
  if h : r.tail = r.head then none else some (r.buf (r.tail % cap), r.advance h)

@[simp] theorem length_contents (r : Ring α cap m) : r.contents.length = r.used := by
  simp [contents]

theorem length_contents_le (r : Ring α cap m) : r.contents.length ≤ cap := by
  rw [length_contents]
  exact r.used_le

@[simp] theorem contents_empty (hm : 0 < m) (a : α) : (empty hm a : Ring α cap m).contents = [] := by
  apply length_eq_zero_iff.mp
  rw [length_contents, used_eq_zero]
  rfl

section

variable (hdvd : cap ∣ m)
include hdvd

theorem head_slot (r : Ring α cap m) : (r.tail + r.used) % cap = r.head % cap := by
  have hsum : r.tail + (r.head + (m - r.tail)) = r.head + m := by
    have ht := r.tail_lt
    omega
  rw [used, ← mod_mod_of_dvd _ hdvd, add_mod_mod, hsum, add_mod_right, mod_mod_of_dvd _ hdvd]

theorem slot_ne (r : Ring α cap m) {i : Nat} (hi : i < r.used) (hroom : r.used < cap) :
    (r.tail + i) % cap ≠ r.head % cap := by
  rw [← head_slot hdvd r]
  intro heq
  have hval : i % cap = r.used % cap := Nat.ModEq.add_left_cancel' r.tail heq
  rw [mod_eq_of_lt (by omega), mod_eq_of_lt hroom] at hval
  omega

theorem contents_write (hcap : cap < m) (r : Ring α cap m) (hroom : r.used < cap) (a : α) :
    (r.write hcap hroom a).contents = r.contents ++ [a] := by
  have hused : (r.write hcap hroom a).used = r.used + 1 := used_write r hroom hcap
  unfold contents
  rw [hused, range_succ, map_append]
  congr 1
  · apply map_congr_left
    intro i hi
    exact Function.update_of_ne (slot_ne hdvd r (mem_range.mp hi) hroom) _ _
  · simp [write, head_slot hdvd r]

theorem contents_push (hcap : cap < m) (r : Ring α cap m) (a : α) :
    (r.push hcap a).contents = if r.contents.length < cap then r.contents ++ [a] else r.contents := by
  rw [length_contents]
  unfold push
  split
  · exact contents_write hdvd hcap r _ a
  · rfl

theorem contents_advance (r : Ring α cap m) (hne : r.tail ≠ r.head) :
    r.contents = r.buf (r.tail % cap) :: (r.advance hne).contents := by
  have hused : (r.advance hne).used = r.used - 1 := used_read r hne
  have hpos : r.used = (r.used - 1) + 1 := by
    have := mt used_eq_zero.mp hne
    omega
  unfold contents
  rw [hused, hpos, range_succ_eq_map, map_cons, map_map]
  congr 1
  apply map_congr_left
  intro i _
  exact congrArg r.buf (next_mod_cap hdvd r.tail i).symm

theorem contents_pop (r : Ring α cap m) :
    (r.pop).map (fun x => (x.1, x.2.contents)) = r.contents.head?.map fun a => (a, r.contents.tail) := by
  unfold pop
  split
  · rename_i h
    have hnil : r.contents = [] := by
      apply length_eq_zero_iff.mp
      rw [length_contents]
      exact used_eq_zero.mpr h
    rw [hnil]
    rfl
  · rename_i h
    rw [contents_advance hdvd r h]
    rfl

end

end Ring

end Ruos.Lib
