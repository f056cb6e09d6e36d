import Mathlib
import Ruos.Gzip.Format

/-! A code that does not compress: it meets what `gzip-core` asks of its compressor. -/
namespace Ruos.Gzip

open Lib List

/-- Every byte is written after a one, and a zero ends the data. -/
def plainEncode : List UInt8 → List UInt8
  | [] => [0]
  | b :: bs => 1 :: b :: plainEncode bs

def plainDecode : List UInt8 → (out : List UInt8) → (pos : Nat) → Inflated Unit
  | [], out, _ => ⟨.failed, 0, 0, (), out⟩
  | [tag], out, _ => ⟨if tag = 0 then .done else .failed, 1, 0, (), out⟩
  | tag :: b :: rest, out, pos =>
    if tag = 0 then ⟨.done, 1, 0, (), out⟩
    else if pos < out.length then
      let r := plainDecode rest (out.set pos b) (pos + 1)
      ⟨r.status, r.consumed + 2, r.produced + 1, (), r.out⟩
    else ⟨.hasMoreOutput, 0, 0, (), out⟩

theorem length_plainEncode (data : List UInt8) : (plainEncode data).length = 2 * data.length + 1 := by
  induction data with
  | nil => rfl
  | cons b bs ih =>
    simp only [plainEncode, length_cons, ih]
    omega

theorem drop_plainEncode {data : List UInt8} {o : Nat} (h : o ≤ data.length) :
    (plainEncode data).drop (2 * o) = plainEncode (data.drop o) := by
  induction o generalizing data with
  | zero => rfl
  | succ o ih =>
    cases data with
    | nil => simp at h
    | cons b bs => exact ih (Nat.le_of_succ_le_succ h)

/-- The data is decoded as far as there is room for it. -/
theorem plainDecode_eq (rest : List UInt8) {data out : List UInt8} {pos : Nat} (hpos : pos ≤ out.length) :
    plainDecode (plainEncode data ++ rest) out pos =
      if pos + data.length ≤ out.length then ⟨.done, 2 * data.length + 1, data.length, (), splice out pos data⟩
      else ⟨.hasMoreOutput, 2 * (out.length - pos), out.length - pos, (), out.take pos ++ data.take (out.length - pos)⟩ := by
  induction data generalizing out pos with
  | nil => cases rest <;> simp [plainEncode, plainDecode, splice, hpos]
  | cons b bs ih =>
    rw [plainEncode, cons_append, cons_append, plainDecode, if_neg (by decide)]
    by_cases hlt : pos < out.length
    · have htake : (out.set pos b).take (pos + 1) = out.take pos ++ [b] := by
        rw [take_succ_eq_append_getElem (by simpa using hlt), take_set_of_le le_rfl, getElem_set_self]
      have hleft : out.length - pos = out.length - (pos + 1) + 1 := by omega
      rw [ih (by simpa using hlt), splice, splice, htake, drop_set_of_lt (by omega), length_set, length_cons,
        hleft, Nat.add_right_comm pos 1, Nat.add_assoc pos]
      split_ifs <;> simp [Nat.mul_add]
    · obtain rfl : out.length = pos := by omega
      simp

/-- A call that starts behind the first `o` bytes of the data ends the stream or fills the output. -/
theorem plainDecode_next (data out rest : List UInt8) {o : Nat} (hle : o ≤ data.length) (ho : o ≤ out.length)
    (hout : out.take o = data.take o) : let r := plainDecode ((plainEncode data ++ rest).drop (2 * o)) out o
    (r.status = .done ∧ 2 * o + r.consumed = (plainEncode data).length ∧ o + r.produced = data.length ∧
        r.out.take data.length = data) ∨
      (r.status = .hasMoreOutput ∧ o + r.produced = out.length ∧ out.length ≤ data.length ∧
        r.out = data.take out.length ∧ 2 * o + r.consumed = 2 * (o + r.produced) ∧ o + r.produced ≤ data.length) := by
  have hdrop : (plainEncode data ++ rest).drop (2 * o) = plainEncode (data.drop o) ++ rest := by
    rw [drop_append_of_le_length (by rw [length_plainEncode]; omega), drop_plainEncode hle]
  rw [hdrop, plainDecode_eq rest ho, length_drop, Nat.add_sub_cancel' hle]
  by_cases hfits : data.length ≤ out.length
  · left
    rw [if_pos hfits, length_plainEncode]
    refine ⟨rfl, by simp only; omega, by simp only; omega, ?_⟩
    simp only [splice]
    rw [hout, take_append_drop, take_left]
  · right
    rw [if_neg hfits]
    refine ⟨rfl, by simp only; omega, by omega, ?_, by simp only; omega, by simp only; omega⟩
    simp only
    rw [hout, ← take_add]
    congr 1
    omega

def plain : Miniz where
  State := Unit
  new := ()
  decompress _ input out pos := plainDecode input out pos
  compressToVec data _ := plainEncode data
  Decoding data _ _ i o := i = 2 * o ∧ o ≤ data.length
  decoding_new _ _ _ _ := ⟨rfl, Nat.zero_le _⟩
  decoding_next data _ _ _ _ out rest h ho hout := h.1 ▸ plainDecode_next data out rest h.2 ho hout

end Ruos.Gzip
