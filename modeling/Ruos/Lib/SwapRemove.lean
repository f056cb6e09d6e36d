import Mathlib.Data.List.Perm.Basic
import Mathlib.Data.List.Count

/-! Vectors from which elements are taken by putting the last one in their place. -/
namespace Ruos.Lib

open List Option

variable {α : Type*}

/-- The vector after its element at `i` is taken out. -/
def swapRemove (l : List α) (i : Nat) : List α :=
  match l.getLast? with
  | none => []
  | some x => (l.set i x).dropLast

theorem cons_set_perm (x : α) (l : List α) (i : Nat) (h : i < l.length) : (l[i] :: l.set i x).Perm (x :: l) :=
  calc (l[i] :: l.set i x).Perm (l[i] :: x :: l.eraseIdx i) := (set_perm_cons_eraseIdx h x).cons _
    _ |>.Perm (x :: l[i] :: l.eraseIdx i) := .swap _ _ _
    _ |>.Perm (x :: l) := (getElem_cons_eraseIdx_perm h).cons x

variable {l : List α}

theorem swapRemove_perm {i : Nat} (h : i < l.length) : (l[i] :: swapRemove l i).Perm l := by
  rcases eq_nil_or_concat l with rfl | ⟨init, x, rfl⟩
  · exact absurd h (by simp)
  · simp only [concat_eq_append]
    simp only [swapRemove, getLast?_append, getLast?_singleton, some_or]
    by_cases hi : i < init.length
    · rw [set_append_left _ _ hi, dropLast_concat, getElem_append_left hi]
      exact (cons_set_perm x init i hi).trans (perm_append_singleton x init).symm
    · obtain rfl : i = init.length := by simp at h; omega
      simpa [set_append_right] using (perm_append_singleton x init).symm

theorem getElem?_swapRemove {i j : Nat} (hj : j < i) (hi : i < l.length) : (swapRemove l i)[j]? = l[j]? := by
  rcases eq_nil_or_concat l with rfl | ⟨init, x, rfl⟩
  · exact absurd hi (by simp)
  · simp only [concat_eq_append]
    have hlen : j < init.length := by simp at hi; omega
    simp only [swapRemove, getLast?_append, getLast?_singleton, some_or]
    rw [getElem?_dropLast, getElem?_set_ne (by omega)]
    simp [hlen]

/-- The scan of a vector from `i` on for the elements that meet `p`, until `budget` of them are taken out: those that
are taken, and the vector that is left. -/
def drainFrom (p : α → Bool) : (fuel budget i : Nat) → List α → List α × List α
  | 0, _, _, l => ([], l)
  | fuel + 1, budget, i, l =>
    match l[i]? with
    | none => ([], l)
    | some x =>
      if budget = 0 then ([], l)
      else if p x then
        let r := drainFrom p fuel (budget - 1) i (swapRemove l i)
        (x :: r.1, r.2)
      else drainFrom p fuel budget (i + 1) l

def drain (p : α → Bool) (budget : Nat) (l : List α) : List α × List α := drainFrom p l.length budget 0 l

theorem drainFrom_perm (p : α → Bool) (fuel budget i : Nat) (l : List α) :
    ((drainFrom p fuel budget i l).1 ++ (drainFrom p fuel budget i l).2).Perm l := by
  induction fuel generalizing budget i l with
  | zero => exact .refl _
  | succ fuel ih =>
    simp only [drainFrom]
    split
    · exact .refl _
    · rename_i x hx
      obtain ⟨hi, rfl⟩ := List.getElem?_eq_some_iff.mp hx
      split_ifs
      · exact .refl _
      · exact ((ih (budget - 1) i (swapRemove l i)).cons _).trans (swapRemove_perm hi)
      · exact ih budget (i + 1) l

theorem drainFrom_taken (p : α → Bool) (fuel budget i : Nat) (l : List α) :
    ∀ x ∈ (drainFrom p fuel budget i l).1, p x = true := by
  induction fuel generalizing budget i l with
  | zero => simp [drainFrom]
  | succ fuel ih =>
    simp only [drainFrom]
    split
    · simp
    · split_ifs with hb hp
      · simp
      · exact forall_mem_cons.mpr ⟨hp, ih (budget - 1) i (swapRemove l i)⟩
      · exact ih budget (i + 1) l

variable {p : α → Bool}

theorem forall_mem_of_before {i : Nat} (hle : l.length ≤ i) (hbefore : ∀ j < i, ∀ x, l[j]? = some x → p x = false) :
    ∀ x ∈ l, p x = false := by
  intro x hx
  obtain ⟨j, hj, rfl⟩ := mem_iff_getElem.mp hx
  exact hbefore j (by omega) _ (getElem?_eq_getElem hj)

theorem drainFrom_left (p : α → Bool) (fuel budget i : Nat) (l : List α) (hfuel : l.length ≤ i + fuel)
    (hbefore : ∀ j < i, ∀ x, l[j]? = some x → p x = false) (hless : (drainFrom p fuel budget i l).1.length < budget) :
    ∀ x ∈ (drainFrom p fuel budget i l).2, p x = false := by
  induction fuel generalizing budget i l with
  | zero => exact forall_mem_of_before hfuel hbefore
  | succ fuel ih =>
    simp only [drainFrom] at hless ⊢
    split at hless
    · rename_i hnone
      exact forall_mem_of_before (List.getElem?_eq_none_iff.mp hnone) hbefore
    · rename_i x hx
      obtain ⟨hi, rfl⟩ := List.getElem?_eq_some_iff.mp hx
      split_ifs at hless ⊢ with hb hp
      · omega
      · have hlen : (swapRemove l i).length + 1 = l.length := (swapRemove_perm hi).length_eq
        rw [length_cons] at hless
        refine ih (budget - 1) i (swapRemove l i) (by omega) (fun j hj y hy => ?_) (by omega)
        rw [getElem?_swapRemove hj hi] at hy
        exact hbefore j hj y hy
      · refine ih budget (i + 1) l (by omega) (fun j hj y hy => ?_) hless
        rcases Nat.lt_succ_iff_lt_or_eq.mp hj with hj | rfl
        · exact hbefore j hj y hy
        · obtain rfl : l[j] = y := some.inj ((getElem?_eq_getElem hi).symm.trans hy)
          exact Bool.eq_false_iff.mpr hp

theorem drain_perm (p : α → Bool) (budget : Nat) (l : List α) : ((drain p budget l).1 ++ (drain p budget l).2).Perm l :=
  drainFrom_perm p l.length budget 0 l

variable {budget : Nat} {x : α}

theorem drain_taken (hx : x ∈ (drain p budget l).1) : p x = true :=
  drainFrom_taken p l.length budget 0 l x hx

theorem drain_left (h : (drain p budget l).1.length < budget) (hx : x ∈ (drain p budget l).2) : p x = false :=
  drainFrom_left p l.length budget 0 l (by omega) (fun _ hj => absurd hj (by omega)) h x hx

theorem countP_drain (p q : α → Bool) (budget : Nat) (l : List α) :
    (drain p budget l).1.countP q + (drain p budget l).2.countP q = l.countP q := by
  rw [← countP_append]
  exact (drain_perm p budget l).countP_eq q

theorem mem_of_drain_taken (hx : x ∈ (drain p budget l).1) : x ∈ l :=
  (drain_perm p budget l).mem_iff.mp (mem_append_left _ hx)

theorem mem_of_drain_left (hx : x ∈ (drain p budget l).2) : x ∈ l :=
  (drain_perm p budget l).mem_iff.mp (mem_append_right _ hx)

theorem drain_all (hx : x ∈ (drain p (l.length + 1) l).2) : p x = false := by
  refine drain_left ?_ hx
  have hlen := (drain_perm p (l.length + 1) l).length_eq
  rw [length_append] at hlen
  omega

end Ruos.Lib
