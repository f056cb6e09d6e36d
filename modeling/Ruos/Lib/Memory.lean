import Ruos.Lib.Bytes

/-! A byte-addressed store, read and written in ranges. -/
namespace Ruos.Lib

open List Option

abbrev Mem := Nat → UInt8

namespace Mem

def read (m : Mem) (a n : Nat) : List UInt8 := (List.range n).map fun i => m (a + i)

def write (m : Mem) (a : Nat) (bs : List UInt8) : Mem := fun x =>
  if a ≤ x ∧ x < a + bs.length then bs.getD (x - a) 0 else m x

variable {m m' : Mem} {a b n k : Nat} {bs : List UInt8}

@[simp] theorem length_read (m : Mem) (a n : Nat) : (m.read a n).length = n := by simp [read]

theorem getElem?_read (m : Mem) (a n k : Nat) : (m.read a n)[k]? = if k < n then some (m (a + k)) else none := by
  by_cases h : k < n <;> simp [read, h]

theorem read_congr (h : ∀ x, a ≤ x → x < a + n → m x = m' x) : m.read a n = m'.read a n :=
  map_congr_left fun i hi => h (a + i) (Nat.le_add_right a i) (Nat.add_lt_add_left (mem_range.mp hi) a)

theorem apply_of_read (h : m.read a n = bs) (hk : k < n) : m (a + k) = bs.getD k 0 := by
  rw [← h, getD_eq_getElem?_getD, getElem?_read, if_pos hk, getD_some]

theorem read_add (m : Mem) (a n k : Nat) : m.read a (n + k) = m.read a n ++ m.read (a + n) k := by
  simp only [read, range_add, map_append, List.map_map]
  congr 1
  simp [Nat.add_assoc]

theorem slice_read (h : k + b ≤ n) : slice (m.read a n) k b = m.read (a + k) b := by
  apply ext_getElem?
  intro i
  simp only [getElem?_slice, getElem?_read]
  by_cases hi : i < b
  · rw [if_pos hi, if_pos hi, if_pos (by omega), Nat.add_assoc]
  · rw [if_neg hi, if_neg hi]

theorem write_of_outside (h : b < a ∨ a + bs.length ≤ b) : m.write a bs b = m b := by
  rw [write, if_neg (by omega)]

theorem write_nil (m : Mem) (a : Nat) : m.write a [] = m := by
  funext x
  apply write_of_outside
  rw [length_nil]
  omega

theorem read_write_disjoint (h : b + n ≤ a ∨ a + bs.length ≤ b) : (m.write a bs).read b n = m.read b n :=
  read_congr fun _ _ _ => write_of_outside (by omega)

theorem read_write_inside (hb : a ≤ b) (hn : b + n ≤ a + bs.length) :
    (m.write a bs).read b n = slice bs (b - a) n := by
  apply ext_getElem?
  intro i
  simp only [getElem?_slice, getElem?_read]
  by_cases hi : i < n
  · have hlt : b + i - a < bs.length := by omega
    have hsub : b - a + i = b + i - a := by omega
    rw [if_pos hi, if_pos hi, write, if_pos (by omega), hsub, getD_eq_getElem?_getD,
      getElem?_eq_getElem hlt, getD_some]
  · rw [if_neg hi, if_neg hi]

theorem read_write_same (m : Mem) (a : Nat) (bs : List UInt8) : (m.write a bs).read a bs.length = bs := by
  rw [read_write_inside (Nat.le_refl _) (Nat.le_refl _), Nat.sub_self, slice_zero_length]

theorem read_write_of_length (h : bs.length = n) : (m.write a bs).read a n = bs := h ▸ read_write_same m a bs

theorem read_write_front (h : bs.length ≤ n) :
    (m.write a bs).read a n = bs ++ m.read (a + bs.length) (n - bs.length) := by
  obtain ⟨k, rfl⟩ := Nat.exists_eq_add_of_le h
  rw [read_add, read_write_same, Nat.add_sub_cancel_left, read_write_disjoint (Or.inr (Nat.le_refl _))]

theorem read_write_eq_iff : (m.write a bs).read a n = m.read a n ↔ bs.take n = (m.read a n).take bs.length := by
  rw [List.ext_getElem?_iff, List.ext_getElem?_iff]
  refine forall_congr' fun k => ?_
  rw [getElem?_take, getElem?_take, getElem?_read, getElem?_read]
  by_cases hk : k < n
  · by_cases hbs : k < bs.length
    · have hat : m.write a bs (a + k) = bs[k] := by
        rw [write, if_pos (by omega), Nat.add_sub_cancel_left, getD_eq_getElem?_getD, getElem?_eq_getElem hbs, getD_some]
      rw [if_pos hk, if_pos hk, if_pos hk, if_pos hbs, hat, getElem?_eq_getElem hbs]
    · simp [hbs, write_of_outside (Or.inr (by omega) : a + k < a ∨ a + bs.length ≤ a + k)]
  · simp [hk]

theorem write_append (m : Mem) (a : Nat) (xs ys : List UInt8) :
    m.write a (xs ++ ys) = (m.write a xs).write (a + xs.length) ys := by
  funext x
  simp only [write, length_append]
  by_cases hlow : a ≤ x
  · by_cases hx : x < a + xs.length
    · rw [if_pos (by omega), if_neg (by omega), if_pos (by omega)]
      simp only [getD_eq_getElem?_getD]
      rw [getElem?_append_left (by omega)]
    · by_cases hy : x < a + xs.length + ys.length
      · rw [if_pos (by omega), if_pos (by omega)]
        simp only [getD_eq_getElem?_getD]
        rw [getElem?_append_right (by omega), Nat.sub_sub]
      · rw [if_neg (by omega), if_neg (by omega), if_neg (by omega)]
  · rw [if_neg (by omega), if_neg (by omega), if_neg (by omega)]

theorem write_splice_read (h : k + bs.length ≤ n) : m.write a (splice (m.read a n) k bs) = m.write (a + k) bs := by
  have hlen : (splice (m.read a n) k bs).length = n := by
    rw [length_splice (by simpa using h), length_read]
  funext x
  simp only [write, hlen]
  by_cases hin : a ≤ x ∧ x < a + n
  · rw [if_pos hin, getD_eq_getElem?_getD, getElem?_splice (by simp; omega), getElem?_read]
    by_cases hpart : a + k ≤ x ∧ x < a + k + bs.length
    · rw [if_pos (by omega), if_pos hpart, getD_eq_getElem?_getD, Nat.sub_sub]
    · rw [if_neg (by omega), if_pos (by omega), if_neg hpart, getD_some, Nat.add_sub_cancel' hin.1]
  · rw [if_neg hin, if_neg (by omega)]

/-- A store seen from address `k` on. -/
def shift (m : Mem) (k : Nat) : Mem := fun a => m (k + a)

theorem read_shift (m : Mem) (k a n : Nat) : (m.shift k).read a n = m.read (k + a) n := by
  simp only [read, shift, Nat.add_assoc]

theorem shift_write (m : Mem) (k a : Nat) (bs : List UInt8) :
    (m.write (k + a) bs).shift k = (m.shift k).write a bs := by
  funext x
  have hsub : k + x - (k + a) = x - a := by omega
  have hiff : k + a ≤ k + x ∧ k + x < k + a + bs.length ↔ a ≤ x ∧ x < a + bs.length := by omega
  simp only [shift, write, hsub, hiff]

end Mem
end Ruos.Lib
