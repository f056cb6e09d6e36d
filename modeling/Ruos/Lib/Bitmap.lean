import Mathlib.Data.Nat.Count
import Ruos.Lib.Caching

/-! Sets of numbers kept as the bits of a list of words, and the number of members below a bound. -/
namespace Ruos.Lib.Bitmap

open List Nat

variable {w : Nat}

/-- Bit `n` of the words. Every bit past the last word counts as set. -/
def bit (ws : List (BitVec w)) (n : Nat) : Bool :=
  match ws[n / w]? with
  | some x => x.getLsbD (n % w)
  | none => true

def set (ws : List (BitVec w)) (n : Nat) : List (BitVec w) :=
  ws.modify (n / w) fun x => x ||| 1#w <<< (n % w)

def clear (ws : List (BitVec w)) (n : Nat) : List (BitVec w) :=
  ws.modify (n / w) fun x => x &&& ~~~(1#w <<< (n % w))

@[simp] theorem length_set (ws : List (BitVec w)) (n : Nat) : (set ws n).length = ws.length := by
  simp [set]

@[simp] theorem length_clear (ws : List (BitVec w)) (n : Nat) : (clear ws n).length = ws.length := by
  simp [clear]

theorem getLsbD_one_shift {k n : Nat} (hk : k < w) : (1#w <<< n).getLsbD k = decide (k = n) := by
  change (BitVec.twoPow w n).getLsbD k = _
  by_cases h : n = k
  · simp [h, hk]
  · simp [h, Ne.symm h]

theorem bit_modify (ws : List (BitVec w)) (f : BitVec w → BitVec w) {k n : Nat} (hw : 0 < w)
    (hf : ∀ x i, i < w → i ≠ n % w → (f x).getLsbD i = x.getLsbD i) (hk : k ≠ n) :
    bit (ws.modify (n / w) f) k = bit ws k := by
  unfold bit
  rw [getElem?_modify]
  cases ws[k / w]? with
  | none => rfl
  | some x =>
    change (if n / w = k / w then f x else x).getLsbD (k % w) = x.getLsbD (k % w)
    by_cases hd : n / w = k / w
    · rw [if_pos hd]
      exact hf x (k % w) (mod_lt k hw) fun hm => hk (by rw [← div_add_mod k w, ← div_add_mod n w, hd.symm, hm])
    · rw [if_neg hd]

theorem bit_set (ws : List (BitVec w)) (hw : 0 < w) (n k : Nat) :
    bit (set ws n) k = (bit ws k || decide (k = n)) := by
  by_cases hk : k = n
  · subst hk
    simp only [decide_true, Bool.or_true, bit, set, getElem?_modify]
    cases ws[k / w]? with
    | none => rfl
    | some x => simp [getLsbD_one_shift (mod_lt k hw)]
  · simp only [hk, decide_false, Bool.or_false, set]
    apply bit_modify ws _ hw _ hk
    intro x i hi hne
    simp [getLsbD_one_shift hi, hne]

variable {ws : List (BitVec w)} {n : Nat}

theorem bit_clear (hw : 0 < w) (hn : n / w < ws.length) (k : Nat) :
    bit (clear ws n) k = (bit ws k && !decide (k = n)) := by
  by_cases hk : k = n
  · subst hk
    simp only [decide_true, Bool.not_true, Bool.and_false, bit, clear, getElem?_modify,
      getElem?_eq_getElem hn]
    simp [getLsbD_one_shift (mod_lt k hw)]
  · simp only [hk, decide_false, Bool.not_false, Bool.and_true, clear]
    apply bit_modify ws _ hw _ hk
    intro x i hi hne
    rw [BitVec.getLsbD_and, BitVec.getLsbD_not, getLsbD_one_shift hi]
    simp [hne, hi]

theorem bit_replicate_allOnes (c n : Nat) (hw : 0 < w) : bit (replicate c (BitVec.allOnes w)) n = true := by
  unfold bit
  rw [getElem?_replicate]
  split
  · rename_i x hx
    obtain ⟨-, rfl⟩ : n / w < c ∧ BitVec.allOnes w = x := by simpa using hx
    simp [mod_lt n hw]
  · rfl

def setRange (ws : List (BitVec w)) (start n : Nat) : List (BitVec w) :=
  (List.range' start n).foldl set ws

@[simp] theorem length_setRange (ws : List (BitVec w)) (start n : Nat) :
    (setRange ws start n).length = ws.length := by
  unfold setRange
  generalize range' start n = gs
  induction gs generalizing ws with
  | nil => rfl
  | cons g gs ih => rw [foldl_cons, ih, length_set]

theorem setRange_succ (ws : List (BitVec w)) (start n : Nat) :
    setRange ws start (n + 1) = set (setRange ws start n) (start + n) := by
  unfold setRange
  rw [range'_concat, foldl_append, Nat.one_mul]
  rfl

theorem bit_setRange (ws : List (BitVec w)) (hw : 0 < w) (start n k : Nat) :
    bit (setRange ws start n) k = (bit ws k || decide (start ≤ k ∧ k < start + n)) := by
  induction n with
  | zero =>
    have : ¬ (start ≤ k ∧ k < start + 0) := by omega
    simp only [this, decide_false, Bool.or_false]
    rfl
  | succ n ih =>
    rw [setRange_succ, bit_set _ hw, ih, Bool.or_assoc]
    congr 1
    rw [Bool.eq_iff_iff]
    simp only [Bool.or_eq_true, decide_eq_true_eq]
    omega

def count (ws : List (BitVec w)) (bound : Nat) : Nat := Nat.count (fun n => bit ws n = true) bound

theorem count_insert {p q : Nat → Prop} [DecidablePred p] [DecidablePred q] {k bound : Nat} (hk : k < bound)
    (hp : ¬ p k) (hq : q k) (h : ∀ n, n ≠ k → (q n ↔ p n)) : Nat.count q bound = Nat.count p bound + 1 := by
  rw [count_eq_card_filter_range, count_eq_card_filter_range]
  refine card_filter_succ (Finset.mem_range.mpr hk) hp fun n _ => ?_
  by_cases hn : n = k
  · simp [hn, hq]
  · simp [hn, h n hn]

theorem count_set (hw : 0 < w) {n bound : Nat} (hn : n < bound) (hfree : bit ws n = false) :
    count (set ws n) bound = count ws bound + 1 := by
  apply count_insert hn
  · simp [hfree]
  · simp [bit_set ws hw]
  · intro k hk
    simp [bit_set ws hw, hk]

theorem count_clear (hw : 0 < w) {n bound : Nat} (hn : n < bound) (hlen : n / w < ws.length)
    (hset : bit ws n = true) : count ws bound = count (clear ws n) bound + 1 := by
  apply count_insert hn
  · simp [bit_clear hw hlen]
  · exact hset
  · intro k hk
    simp [bit_clear hw hlen, hk]

theorem count_setRange (hw : 0 < w) {start n bound : Nat} (hn : start + n ≤ bound)
    (hfree : ∀ k, start ≤ k → k < start + n → bit ws k = false) :
    count (setRange ws start n) bound = count ws bound + n := by
  induction n with
  | zero => rfl
  | succ n ih =>
    have hih := ih (by omega) fun k hlo hhi => hfree k hlo (by omega)
    have hnext : bit (setRange ws start n) (start + n) = false := by
      rw [bit_setRange ws hw, hfree (start + n) (by omega) (by omega)]
      simp
    rw [setRange_succ, count_set hw (by omega) hnext, hih, Nat.add_assoc]

theorem count_of_all {bound : Nat} (h : ∀ n, n < bound → bit ws n = true) : count ws bound = bound := by
  unfold count
  rw [count_eq_card_filter_range, Finset.filter_true_of_mem, Finset.card_range]
  intro n hn
  exact h n (Finset.mem_range.mp hn)

def trailingOnes (x : BitVec w) : Nat := ((List.range w).find? fun i => !x.getLsbD i).getD w

theorem trailingOnes_spec {x : BitVec w} (h : x ≠ BitVec.allOnes w) :
    trailingOnes x < w ∧ x.getLsbD (trailingOnes x) = false := by
  have hclear : ∃ i < w, x.getLsbD i = false := by
    by_contra hall
    apply h
    apply BitVec.eq_of_getLsbD_eq
    intro i hi
    rw [BitVec.getLsbD_allOnes, decide_eq_true hi]
    by_contra hi'
    exact hall ⟨i, hi, Bool.eq_false_iff.mpr hi'⟩
  unfold trailingOnes
  cases hfind : (range w).find? fun i => !x.getLsbD i with
  | none =>
    obtain ⟨i, hi, hxi⟩ := hclear
    have := find?_eq_none.mp hfind i (mem_range.mpr hi)
    simp [hxi] at this
  | some i =>
    have hmem := mem_range.mp (mem_of_find?_eq_some hfind)
    have hp := find?_some hfind
    exact ⟨hmem, by simpa using hp⟩

/-- The bit after the trailing ones of the first word that is not all ones. -/
def firstClear : List (BitVec w) → Option Nat
  | [] => none
  | x :: xs => if x ≠ BitVec.allOnes w then some (trailingOnes x) else (firstClear xs).map (w + ·)

theorem bit_cons_of_lt (x : BitVec w) (xs : List (BitVec w)) (h : n < w) : bit (x :: xs) n = x.getLsbD n := by
  unfold bit
  rw [div_eq_of_lt h, mod_eq_of_lt h]
  rfl

theorem bit_cons_add (x : BitVec w) (xs : List (BitVec w)) (hw : 0 < w) (n : Nat) :
    bit (x :: xs) (w + n) = bit xs n := by
  unfold bit
  rw [add_div_left n hw, add_mod_left, getElem?_cons_succ]

theorem firstClear_some (hw : 0 < w) (h : firstClear ws = some n) : bit ws n = false := by
  induction ws generalizing n with
  | nil => cases h
  | cons x xs ih =>
    unfold firstClear at h
    split at h
    · rename_i hx
      obtain ⟨hlt, hbit⟩ := trailingOnes_spec hx
      have hn := Option.some.inj h
      rw [← hn, bit_cons_of_lt x xs hlt, hbit]
    · obtain ⟨m, hm, rfl⟩ := Option.map_eq_some_iff.mp h
      rw [bit_cons_add x xs hw, ih hm]

theorem firstClear_none (hw : 0 < w) (h : firstClear ws = none) (n : Nat) : bit ws n = true := by
  induction ws generalizing n with
  | nil => rfl
  | cons x xs ih =>
    unfold firstClear at h
    split at h
    · cases h
    · rename_i hx
      have hones : x = BitVec.allOnes w := by simpa using hx
      by_cases hn : n < w
      · rw [bit_cons_of_lt x xs hn, hones, BitVec.getLsbD_allOnes, decide_eq_true hn]
      · have hnext := bit_cons_add x xs hw (n - w)
        rw [Nat.add_sub_cancel' (by omega)] at hnext
        rw [hnext]
        exact ih (by simpa using h) (n - w)

end Ruos.Lib.Bitmap
