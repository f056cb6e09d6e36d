import Mathlib.Algebra.BigOperators.Group.Finset.Basic

/-! Sums of a weight over a family in which one member changes. -/
namespace Ruos.Lib

open Function Finset

variable {ι α : Type*} [DecidableEq ι]

theorem sum_update_add (w : α → Nat) (f : ι → α) {S : Finset ι} {i : ι} (hi : i ∈ S) (a : α) :
    ∑ j ∈ S, w (update f i a j) + w (f i) = ∑ j ∈ S, w (f j) + w a := by
  rw [← add_sum_erase _ _ hi, ← add_sum_erase _ (fun j => w (f j)) hi, update_self]
  have hrest : ∀ j ∈ S.erase i, w (update f i a j) = w (f j) := by
    intro j hj
    rw [update_of_ne (ne_of_mem_erase hj)]
  rw [sum_congr rfl hrest]
  omega

theorem add_le_sum_of_ne (w : ι → Nat) {S : Finset ι} {i j : ι} (hi : i ∈ S) (hj : j ∈ S) (hne : i ≠ j) :
    w i + w j ≤ ∑ k ∈ S, w k := by
  rw [← add_sum_erase _ _ hi, ← add_sum_erase _ _ (mem_erase.mpr ⟨hne.symm, hj⟩)]
  omega

end Ruos.Lib
