import Mathlib.Data.List.Basic
import Mathlib.Tactic.Ring

/-! Byte buffers: reading a range, writing ranges, and little-endian numbers. -/
namespace Ruos.Lib

open List Nat

theorem mul_add_le_mul {i j : Nat} (w : Nat) (h : i < j) : i * w + w ≤ j * w :=
  succ_mul i w ▸ mul_le_mul_right w h

theorem mul_apart (i j w : Nat) : i * w + w ≤ j * w ∨ i = j ∨ j * w + w ≤ i * w :=
  (lt_trichotomy i j).imp (mul_add_le_mul w) (Or.imp_right (mul_add_le_mul w))

section

variable {α : Type*}

/-- `buf[off..off + n]`. -/
def slice (l : List α) (off n : Nat) : List α := (l.drop off).take n

/-- `buf[off..off + bs.len()].copy_from_slice(bs)`. -/
def splice (l : List α) (off : Nat) (bs : List α) : List α :=
  l.take off ++ bs ++ l.drop (off + bs.length)

variable {l bs : List α} {off n k : Nat}

theorem length_slice (h : off + n ≤ l.length) : (slice l off n).length = n := by
  simp only [slice, length_take, length_drop]
  omega

theorem getElem?_slice (l : List α) (off n k : Nat) : (slice l off n)[k]? = if k < n then l[off + k]? else none := by
  simp [slice, getElem?_take]

theorem length_splice (h : off + bs.length ≤ l.length) : (splice l off bs).length = l.length := by
  simp only [splice, length_append, length_take, length_drop]
  omega

theorem getElem?_splice (h : off ≤ l.length) (k : Nat) :
    (splice l off bs)[k]? = if off ≤ k ∧ k < off + bs.length then bs[k - off]? else l[k]? := by
  have htake : (l.take off).length = off := by simp [h]
  rw [splice, append_assoc]
  by_cases hlow : k < off
  · rw [getElem?_append_left (by omega), getElem?_take_of_lt hlow, if_neg (by omega)]
  · rw [getElem?_append_right (by omega), htake]
    by_cases hin : k < off + bs.length
    · rw [getElem?_append_left (by omega), if_pos (by omega)]
    · rw [getElem?_append_right (by omega), getElem?_drop, if_neg (by omega)]
      congr 1
      omega

theorem slice_zero_length (l : List α) : slice l 0 l.length = l := by simp [slice]

theorem slice_of_eq_append (front back : List α) (h : l = front ++ (bs ++ back)) (hoff : off = front.length)
    (hn : n = bs.length) : slice l off n = bs := by
  subst h hoff hn
  simp [slice]

variable {k : Nat}

theorem slice_replicate {x : α} (h : off + n ≤ k) : slice (replicate k x) off n = replicate n x := by
  simp only [slice, drop_replicate, take_replicate]
  congr 1
  omega

theorem slice_slice (h : off + n ≤ k) (a : Nat) : slice (slice l a k) off n = slice l (a + off) n := by
  rw [slice, slice, slice, drop_take, take_take, drop_drop, min_eq_left (by omega)]

theorem slice_append_slice (l : List α) (off n k : Nat) :
    slice l off n ++ slice l (off + n) k = slice l off (n + k) := by
  simp [slice, take_add]

theorem slice_splice_inside (h : off ≤ l.length) {a : Nat} (ha : off ≤ a) (hn : a + n ≤ off + bs.length) :
    slice (splice l off bs) a n = slice bs (a - off) n := by
  apply ext_getElem?
  intro i
  simp only [getElem?_slice, getElem?_splice h]
  by_cases hi : i < n
  · rw [if_pos hi, if_pos hi, if_pos (by omega)]
    congr 1
    omega
  · rw [if_neg hi, if_neg hi]

theorem slice_splice_same (h : off ≤ l.length) : slice (splice l off bs) off bs.length = bs := by
  rw [slice_splice_inside h (Nat.le_refl _) (Nat.le_refl _), Nat.sub_self, slice_zero_length]

theorem slice_splice_disjoint (h : off ≤ l.length) {a : Nat} (hd : a + n ≤ off ∨ off + bs.length ≤ a) :
    slice (splice l off bs) a n = slice l a n := by
  apply ext_getElem?
  intro i
  simp only [getElem?_slice, getElem?_splice h]
  by_cases hi : i < n
  · rw [if_pos hi, if_pos hi, if_neg (by omega)]
  · rw [if_neg hi, if_neg hi]

theorem splice_slice_self (h : off + n ≤ l.length) : splice l off (slice l off n) = l := by
  rw [splice, length_slice h, slice, append_assoc, ← drop_drop, take_append_drop, take_append_drop]

theorem splice_splice_same {cs : List α} (h : off + bs.length ≤ l.length) (hlen : bs.length = cs.length) :
    splice (splice l off bs) off cs = splice l off cs := by
  apply ext_getElem?
  intro i
  rw [getElem?_splice (by rw [length_splice h]; omega), getElem?_splice (by omega),
    getElem?_splice (by omega), hlen]
  by_cases hi : off ≤ i ∧ i < off + cs.length
  · rw [if_pos hi, if_pos hi]
  · rw [if_neg hi, if_neg hi, if_neg hi]

theorem slice_splice_around (h : k + bs.length ≤ n) (hl : off + n ≤ l.length) :
    slice (splice l (off + k) bs) off n = splice (slice l off n) k bs := by
  apply ext_getElem?
  intro i
  rw [getElem?_slice, getElem?_splice (by omega), getElem?_splice (by rw [length_slice hl]; omega), getElem?_slice]
  by_cases hi : i < n
  · rw [if_pos hi, if_pos hi]
    by_cases hin : k ≤ i ∧ i < k + bs.length
    · rw [if_pos (by omega), if_pos hin]
      congr 1
      omega
    · rw [if_neg (by omega), if_neg hin]
  · rw [if_neg hi, if_neg hi, if_neg (by omega)]

theorem splice_splice_slice (h : k + bs.length ≤ n) (hl : off + n ≤ l.length) :
    splice l off (splice (slice l off n) k bs) = splice l (off + k) bs := by
  have hlen : (splice (slice l off n) k bs).length = n := by
    rw [length_splice (by rwa [length_slice hl]), length_slice hl]
  apply ext_getElem?
  intro i
  rw [getElem?_splice (by omega), hlen, getElem?_splice (by rw [length_slice hl]; omega), getElem?_splice (by omega),
    getElem?_slice]
  by_cases hin : off + k ≤ i ∧ i < off + k + bs.length
  · rw [if_pos (by omega), if_pos (by omega), if_pos hin, Nat.sub_sub]
  · rw [if_neg hin]
    by_cases hi : off ≤ i ∧ i < off + n
    · rw [if_pos hi, if_neg (by omega), if_pos (by omega), Nat.add_sub_cancel' hi.1]
    · rw [if_neg hi]

theorem splice_append (h : off + bs.length ≤ l.length) (l' : List α) :
    splice (l ++ l') off bs = splice l off bs ++ l' := by
  rw [splice, splice, take_append_of_le_length (by omega), drop_append_of_le_length h]
  simp

theorem splice_append_right (l l' : List α) (k : Nat) (bs : List α) :
    splice (l ++ l') (l.length + k) bs = l ++ splice l' k bs := by
  rw [splice, splice, take_length_add_append, add_assoc, drop_length_add_append, append_assoc,
    append_assoc, append_assoc]

/-- Storing data into a file that is kept in a larger buffer: the gap in front of it must be filled already. -/
theorem take_splice_extend {x : α} {size : Nat} (hin : off + bs.length ≤ l.length) (hsize : size ≤ l.length)
    (hgap : ∀ k, size ≤ k → k < off → l[k]? = some x) :
    (splice l off bs).take (max size (off + bs.length)) = splice (l.take size ++ replicate (off - size) x) off bs := by
  have hfilled : l.take size ++ replicate (off - size) x = l.take (max size off) := by
    apply ext_getElem?
    intro k
    by_cases hk : k < size
    · rw [getElem?_append_left (by rw [length_take]; omega), getElem?_take_of_lt hk,
        getElem?_take_of_lt (by omega)]
    · rw [getElem?_append_right (by rw [length_take]; omega), getElem?_replicate, length_take]
      by_cases hoff : k < off
      · rw [if_pos (by omega), getElem?_take_of_lt (by omega), hgap k (by omega) hoff]
      · rw [if_neg (by omega), getElem?_eq_none (by rw [length_take]; omega)]
  rw [hfilled]
  apply ext_getElem?
  intro k
  rw [getElem?_splice (by rw [length_take]; omega), getElem?_take, getElem?_take,
    getElem?_splice (by omega)]
  by_cases hk : off ≤ k ∧ k < off + bs.length
  · rw [if_pos (by omega), if_pos hk, if_pos hk]
  · rw [if_neg hk, if_neg hk]
    by_cases hlow : k < max size off
    · rw [if_pos (by omega), if_pos hlow]
    · rw [if_neg (by omega), if_neg hlow]

/-- The whole pieces of `w` elements that a buffer is made of. -/
def pieces (w : Nat) (l : List α) : List (List α) :=
  (List.range (l.length / w)).map fun i => slice l (i * w) w

section

variable {w i : Nat} {run : List (List α)}

theorem length_pieces (w : Nat) (l : List α) : (pieces w l).length = l.length / w := by simp [pieces]

theorem getElem?_pieces (w : Nat) (l : List α) (i : Nat) :
    (pieces w l)[i]? = if i < l.length / w then some (slice l (i * w) w) else none := by
  by_cases h : i < l.length / w <;> simp [pieces, h]

theorem length_of_mem_pieces {x : List α} (h : x ∈ pieces w l) : x.length = w := by
  obtain ⟨i, hi, rfl⟩ := mem_map.mp h
  have hlt : i < l.length / w := mem_range.mp hi
  have hmul := mul_add_le_mul w hlt
  have hle := div_mul_le_self l.length w
  exact length_slice (by omega)

section

variable (hrun : ∀ x ∈ run, x.length = w)
include hrun

theorem slice_flatten (hi : i < run.length) : some (slice run.flatten (i * w) w) = run[i]? := by
  induction run generalizing i with
  | nil => simp at hi
  | cons x run ih =>
    obtain ⟨hx, hrest⟩ := forall_mem_cons.mp hrun
    cases i with
    | zero => simp [slice, hx]
    | succ i =>
      have hdrop : (x ++ run.flatten).drop ((i + 1) * w) = run.flatten.drop (i * w) := by
        rw [succ_mul, add_comm, ← drop_drop, drop_left' hx]
      rw [flatten_cons, slice, hdrop]
      exact ih hrest (by simpa using hi)

theorem length_flatten_of_length : run.flatten.length = run.length * w := by
  induction run with
  | nil => simp
  | cons x run ih =>
    obtain ⟨hx, hrest⟩ := forall_mem_cons.mp hrun
    rw [flatten_cons, length_append, hx, ih hrest, length_cons, succ_mul, add_comm]

theorem pieces_flatten (hw : 0 < w) : pieces w run.flatten = run := by
  apply ext_getElem?
  intro i
  rw [getElem?_pieces, length_flatten_of_length hrun, Nat.mul_div_cancel _ hw]
  split_ifs with hi
  · exact slice_flatten hrun hi
  · exact (getElem?_eq_none (by omega)).symm

theorem flatten_set {y bs : List α} (hi : run[i]? = some y) (hk : k + bs.length ≤ w) :
    (run.set i (splice y k bs)).flatten = splice run.flatten (i * w + k) bs := by
  induction run generalizing i with
  | nil => cases hi
  | cons x run ih =>
    obtain ⟨hx, hrest⟩ := forall_mem_cons.mp hrun
    cases i with
    | zero =>
      cases hi
      rw [set_cons_zero, flatten_cons, flatten_cons, zero_mul, zero_add, splice_append (by omega)]
    | succ i =>
      have hoff : (i + 1) * w + k = x.length + (i * w + k) := by
        rw [add_one_mul]
        omega
      rw [set_cons_succ, flatten_cons, flatten_cons, ih hrest hi, hoff, splice_append_right]

end

theorem pieces_splice (hw : 0 < w) (hrun : ∀ x ∈ run, x.length = w) (hi : i + run.length ≤ l.length / w) :
    pieces w (splice l (i * w) run.flatten) = (pieces w l).take i ++ run ++ (pieces w l).drop (i + run.length) := by
  have hflat := length_flatten_of_length hrun
  have hmul := Nat.mul_le_mul_right w hi
  have hle := div_mul_le_self l.length w
  rw [Nat.add_mul] at hmul
  have hlen : (splice l (i * w) run.flatten).length = l.length := length_splice (by omega)
  have htake : ((pieces w l).take i).length = i := by rw [length_take, length_pieces]; omega
  apply ext_getElem?
  intro j
  rw [getElem?_pieces, hlen, append_assoc]
  by_cases hj : j < l.length / w
  · rw [if_pos hj]
    by_cases hlow : j < i
    · have hji := mul_add_le_mul w hlow
      rw [getElem?_append_left (by omega), getElem?_take_of_lt hlow, getElem?_pieces, if_pos hj,
        slice_splice_disjoint (by omega) (.inl (by omega))]
    · obtain ⟨t, rfl⟩ := Nat.exists_eq_add_of_le (Nat.le_of_not_lt hlow)
      rw [getElem?_append_right (by omega), htake, Nat.add_sub_cancel_left]
      by_cases hin : t < run.length
      · have htw := mul_add_le_mul w hin
        rw [getElem?_append_left hin, Nat.add_mul,
          slice_splice_inside (by omega) (by omega) (by omega), Nat.add_sub_cancel_left, slice_flatten hrun hin]
      · have htw := Nat.mul_le_mul_right w (Nat.le_of_not_lt hin)
        rw [getElem?_append_right (by omega), getElem?_drop, getElem?_pieces]
        have hidx : i + run.length + (t - run.length) = i + t := by omega
        rw [hidx, if_pos hj, Nat.add_mul, slice_splice_disjoint (by omega) (.inr (by omega))]
  · rw [if_neg hj, getElem?_eq_none]
    simp only [length_append, htake, length_drop, length_pieces]
    omega

theorem pieces_append {xs ys : List α} (hw : 0 < w) (hxs : xs.length = k * w) :
    pieces w (xs ++ ys) = pieces w xs ++ pieces w ys := by
  have hdiv : (k * w + ys.length) / w = k + ys.length / w := by
    rw [Nat.add_comm, add_mul_div_right _ _ hw, Nat.add_comm]
  have hk : (pieces w xs).length = k := by rw [length_pieces, hxs, Nat.mul_div_cancel _ hw]
  apply ext_getElem?
  intro j
  rw [getElem?_pieces, length_append, hxs, hdiv]
  by_cases hj : j < k
  · have hjw := mul_add_le_mul w hj
    rw [getElem?_append_left (by omega), getElem?_pieces, hxs, Nat.mul_div_cancel _ hw, if_pos hj,
      if_pos (Nat.lt_add_right _ hj)]
    simp only [slice]
    rw [drop_append_of_le_length (by omega), take_append_of_le_length (by rw [length_drop]; omega)]
  · obtain ⟨t, rfl⟩ := Nat.exists_eq_add_of_le (Nat.le_of_not_lt hj)
    rw [getElem?_append_right (by omega), hk, Nat.add_sub_cancel_left, getElem?_pieces]
    have hdrop : (xs ++ ys).drop ((k + t) * w) = ys.drop (t * w) := by
      rw [Nat.add_mul, ← drop_drop, drop_left' hxs]
    by_cases ht : t < ys.length / w
    · rw [if_pos (by omega), if_pos ht, slice, hdrop, slice]
    · rw [if_neg (by omega), if_neg ht]

theorem pieces_self {x : List α} (hw : 0 < w) (hx : x.length = w) : pieces w x = [x] := by
  have hdiv : x.length / w = 1 := by rw [hx, Nat.div_self hw]
  rw [pieces, hdiv, range_one, map_singleton, Nat.zero_mul, ← hx, slice_zero_length]

theorem flatten_pieces (hw : 0 < w) (hl : l.length = k * w) : (pieces w l).flatten = l := by
  induction k generalizing l with
  | zero =>
    rw [zero_mul] at hl
    simp [length_eq_zero_iff.mp hl, pieces]
  | succ k ih =>
    rw [succ_mul] at hl
    have htake : (l.take w).length = w := by
      rw [length_take]
      omega
    have hdrop : (l.drop w).length = k * w := by
      rw [length_drop]
      omega
    have hsplit : pieces w l = l.take w :: pieces w (l.drop w) := by
      have happ : pieces w (l.take w ++ l.drop w) = pieces w (l.take w) ++ pieces w (l.drop w) :=
        pieces_append hw (htake.trans (one_mul w).symm)
      rw [take_append_drop, pieces_self hw htake] at happ
      exact happ
    rw [hsplit, flatten_cons, ih hdrop, take_append_drop]

theorem pieces_replicate (w n : Nat) (x : α) : pieces w (replicate n x) = replicate (n / w) (replicate w x) := by
  refine eq_replicate_iff.mpr ⟨by rw [length_pieces, length_replicate], fun y hy => ?_⟩
  obtain ⟨i, hi, rfl⟩ := mem_map.mp hy
  have hlt : i < n / w := by simpa using hi
  have hmul := mul_add_le_mul w hlt
  have hle := div_mul_le_self n w
  exact slice_replicate (by omega)

end

def fill (l : List α) (fields : List (Nat × List α)) : List α :=
  fields.foldl (fun l f => splice l f.1 f.2) l

variable {fields : List (Nat × List α)}

theorem length_fill (h : ∀ f ∈ fields, f.1 + f.2.length ≤ l.length) : (fill l fields).length = l.length := by
  induction fields generalizing l with
  | nil => rfl
  | cons f fields ih =>
    obtain ⟨hf, hrest⟩ := forall_mem_cons.mp h
    have hlen := length_splice hf
    rw [fill, foldl_cons, ← fill, ih (by rwa [hlen]), hlen]

theorem fill_append (h : ∀ f ∈ fields, f.1 + f.2.length ≤ l.length) (l' : List α) :
    fill (l ++ l') fields = fill l fields ++ l' := by
  induction fields generalizing l with
  | nil => rfl
  | cons f fields ih =>
    obtain ⟨hf, hrest⟩ := forall_mem_cons.mp h
    rw [fill, foldl_cons, ← fill, splice_append hf, ih (by rwa [length_splice hf]), fill, fill, foldl_cons]

theorem fill_at (h : ∀ f ∈ fields, f.1 + f.2.length ≤ n) (hl : off + n ≤ l.length) :
    fill l (fields.map fun f => (off + f.1, f.2)) = splice l off (fill (slice l off n) fields) := by
  induction fields generalizing l with
  | nil => exact (splice_slice_self hl).symm
  | cons f fields ih =>
    obtain ⟨hf, hrest⟩ := forall_mem_cons.mp h
    have hpart := length_slice hl
    have hlen : (splice (slice l off n) f.1 f.2).length = n := by
      rw [length_splice (by rwa [hpart]), hpart]
    have hfill : (fill (splice (slice l off n) f.1 f.2) fields).length = n := by
      rw [length_fill (by rwa [hlen]), hlen]
    have hl' : off + n ≤ (splice l (off + f.1) f.2).length := by
      rw [length_splice (by omega)]
      exact hl
    rw [fill, map_cons, foldl_cons, ← fill, ih hrest hl', slice_splice_around hf hl,
      ← splice_splice_slice hf hl, splice_splice_same (by rw [hlen]; exact hl) (by rw [hlen, hfill])]
    rfl

theorem slice_fill_disjoint (h : ∀ f ∈ fields, f.1 + f.2.length ≤ l.length)
    (hd : ∀ f ∈ fields, off + n ≤ f.1 ∨ f.1 + f.2.length ≤ off) : slice (fill l fields) off n = slice l off n := by
  induction fields generalizing l with
  | nil => rfl
  | cons f fields ih =>
    obtain ⟨hf, hrest⟩ := forall_mem_cons.mp h
    obtain ⟨hdf, hdrest⟩ := forall_mem_cons.mp hd
    rw [fill, foldl_cons, ← fill, ih (by rwa [length_splice hf]) hdrest,
      slice_splice_disjoint (by omega) hdf]

/-- Fields in order, one behind the other, in a buffer of `n` elements. -/
def Ordered (n : Nat) (fields : List (Nat × List α)) : Prop :=
  (∀ f ∈ fields, f.1 + f.2.length ≤ n) ∧ fields.Pairwise fun f g => f.1 + f.2.length ≤ g.1

/-- Ranges, given by offset and length, one behind the other from `a` on, inside the first `n` elements. -/
def inOrder (n : Nat) : Nat → List (Nat × Nat) → Bool
  | _, [] => true
  | a, (off, len) :: rest => a ≤ off && off + len ≤ n && inOrder n (off + len) rest

theorem ordered_of_inOrder {a : Nat} (h : inOrder n a (fields.map fun f => (f.1, f.2.length)) = true) :
    Ordered n fields ∧ ∀ f ∈ fields, a ≤ f.1 := by
  induction fields generalizing a with
  | nil => exact ⟨⟨by simp, List.Pairwise.nil⟩, by simp⟩
  | cons f fields ih =>
    simp only [map_cons, inOrder, Bool.and_eq_true, decide_eq_true_eq] at h
    obtain ⟨⟨hlow, hin⟩, hrest⟩ := h
    obtain ⟨⟨hfit, hpair⟩, hbehind⟩ := ih hrest
    refine ⟨⟨forall_mem_cons.mpr ⟨hin, hfit⟩, pairwise_cons.mpr ⟨hbehind, hpair⟩⟩, ?_⟩
    refine forall_mem_cons.mpr ⟨hlow, fun g hg => ?_⟩
    have hle := hbehind g hg
    omega

theorem slice_fill_mem (h : Ordered l.length fields) (hm : (off, bs) ∈ fields) (hn : bs.length = n) :
    slice (fill l fields) off n = bs := by
  subst hn
  obtain ⟨hin, hord⟩ := h
  induction fields generalizing l with
  | nil => cases hm
  | cons f fields ih =>
    obtain ⟨hf, hrest⟩ := forall_mem_cons.mp hin
    obtain ⟨hfirst, hord⟩ := pairwise_cons.mp hord
    have hrest' : ∀ g ∈ fields, g.1 + g.2.length ≤ (splice l f.1 f.2).length := by rwa [length_splice hf]
    rw [fill, foldl_cons, ← fill]
    rcases mem_cons.mp hm with rfl | hm
    · rw [slice_fill_disjoint hrest' fun g hg => .inl (hfirst g hg), slice_splice_same (by simp only at hf; omega)]
    · exact ih hm hrest' hord

end

/-- `to_le_bytes` of an integer of `w` bytes. -/
def leBytes : (w n : Nat) → List UInt8
  | 0, _ => []
  | w + 1, n => UInt8.ofNat n :: leBytes w (n / 256)

def leVal : List UInt8 → Nat
  | [] => 0
  | b :: bs => b.toNat + 256 * leVal bs

@[simp] theorem length_leBytes (w n : Nat) : (leBytes w n).length = w := by
  induction w generalizing n with
  | zero => rfl
  | succ w ih => simp [leBytes, ih]

theorem leVal_leBytes (w n : Nat) : leVal (leBytes w n) = n % 256 ^ w := by
  induction w generalizing n with
  | zero => simp [leBytes, leVal, mod_one]
  | succ w ih =>
    have hb : (UInt8.ofNat n).toNat = n % 256 := by simp
    rw [leBytes, leVal, ih, hb, pow_succ', mod_mul]

theorem leVal_leBytes_of_lt {w n : Nat} (h : n < 256 ^ w) : leVal (leBytes w n) = n := by
  rw [leVal_leBytes, mod_eq_of_lt h]

theorem leVal_lt (bs : List UInt8) : leVal bs < 256 ^ bs.length := by
  induction bs with
  | nil => simp [leVal]
  | cons b bs ih =>
    have hb := b.toNat_lt
    rw [leVal, length_cons]
    omega

end Ruos.Lib
