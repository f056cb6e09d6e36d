import Mathlib.Data.List.DropRight

/-! The kernel log (`klog.rs`): a ring of bytes whose oldest are overwritten. -/
namespace Ruos.Klog

open List

def logCap : Nat := 32 * 1024

structure Ring where
  buf : List UInt8
  head : Nat
  full : Bool
  length_buf : buf.length = logCap
  head_lt : head < logCap

namespace Ring

variable (r : Ring)

def new : Ring := ⟨replicate logCap 0, 0, false, length_replicate, by decide⟩

/-- One pass of the loop of `push`. -/
def pushByte (r : Ring) (b : UInt8) : Ring where
  buf := r.buf.set r.head b
  head := if r.head + 1 = logCap then 0 else r.head + 1
  full := r.head + 1 = logCap ∨ r.full
  length_buf := by simp [r.length_buf]
  head_lt := by
    have := r.head_lt
    split <;> omega

def push (bytes : List UInt8) : Ring := bytes.foldl pushByte r

/-- The buffer `out` afterwards, and the number of bytes written to it. -/
def read (out : List UInt8) : List UInt8 × Nat :=
  if r.full = false then
    let n := min r.head out.length
    (r.buf.take n ++ out.drop n, n)
  else
    let total := min logCap out.length
    let fromTail := min (logCap - r.head) total
    ((r.buf.drop r.head).take fromTail ++ r.buf.take (total - fromTail) ++ out.drop total, total)

/-- The bytes the ring holds, oldest first. -/
def contents : List UInt8 := (if r.full then r.buf.drop r.head else []) ++ r.buf.take r.head

theorem length_contents : r.contents.length = if r.full then logCap else r.head := by
  have hlen := r.length_buf
  have hhead := r.head_lt
  rw [contents, length_append, length_take]
  split <;> simp <;> omega

theorem read_eq (out : List UInt8) :
    r.read out = (r.contents.take out.length ++ out.drop r.contents.length, min r.contents.length out.length) := by
  have hlen := r.length_buf
  have hhead := r.head_lt
  have hdrop : ∀ n, out.drop (min n out.length) = out.drop n := fun n => by simp [drop_eq_drop_iff]
  simp only [read, length_contents, hdrop]
  cases hfull : r.full
  · simp [contents, hfull, take_take, min_comm]
  · simp only [contents, hfull, if_true, take_append, take_take, length_drop, hlen, Bool.true_eq_false, if_false]
    congr 3 <;> rw [take_eq_take_iff] <;> simp <;> omega

theorem contents_pushByte (b : UInt8) : (r.pushByte b).contents = (r.contents ++ [b]).rtake logCap := by
  have hlen := r.length_buf
  have hhead := r.head_lt
  have htake : (r.buf.set r.head b).take (r.head + 1) = r.buf.take r.head ++ [b] := by
    rw [take_set, take_succ_eq_append_getElem (by omega), set_append_right _ _ (by simp [Nat.min_le_left])]
    simp [hlen, hhead.le]
  have hset : (r.buf.set r.head b).drop (r.head + 1) = r.buf.drop (r.head + 1) := drop_set_of_lt (by omega)
  have hkept : (r.contents ++ [b]).rtake logCap =
      (if r.full then r.buf.drop (r.head + 1) else []) ++ (r.buf.take r.head ++ [b]) := by
    rw [rtake, length_append, length_contents, length_singleton, contents]
    cases r.full
    · rw [if_neg Bool.false_ne_true, Nat.sub_eq_zero_of_le hhead]
      rfl
    · rw [if_pos rfl, Nat.add_sub_cancel_left, if_pos rfl, drop_eq_getElem_cons (l := r.buf) (by omega)]
      exact append_assoc ..
  rw [hkept, ← htake, ← hset]
  by_cases hlast : r.head + 1 = logCap
  · have hall : (r.buf.set r.head b).length ≤ logCap := by simp [hlen]
    simp [contents, pushByte, hlast, take_of_length_le hall, drop_of_length_le hall]
  · simp [contents, pushByte, hlast]

theorem rtake_rtake_append {α : Type*} (l m : List α) (n : Nat) : (l.rtake n ++ m).rtake n = (l ++ m).rtake n := by
  rw [rtake, rtake, rtake, ← drop_append_of_le_length (Nat.sub_le ..), drop_drop, length_drop, length_append]
  congr 1
  omega

theorem contents_push (bytes : List UInt8) : (r.push bytes).contents = (r.contents ++ bytes).rtake logCap := by
  induction bytes generalizing r with
  | nil =>
    have : r.contents.length ≤ logCap := by
      have := r.head_lt
      rw [length_contents]
      split <;> omega
    simp [push, rtake, this]
  | cons b bytes ih =>
    change ((r.pushByte b).push bytes).contents = _
    rw [ih, contents_pushByte, rtake_rtake_append, append_assoc, singleton_append]

/-- The last bytes that were pushed, as many as the ring holds. -/
def kept (pushes : List (List UInt8)) : List UInt8 := pushes.flatten.rtake logCap

theorem read_pushes (pushes : List (List UInt8)) (out : List UInt8) : (pushes.foldl push new).read out =
    ((kept pushes).take out.length ++ out.drop (kept pushes).length, min (kept pushes).length out.length) := by
  have hflat : pushes.foldl push new = new.push pushes.flatten := foldl_flatten.symm
  rw [hflat, read_eq, contents_push]
  rfl

end Ring

end Ruos.Klog
