import Mathlib.Algebra.BigOperators.Pi

/-! Multisets whose members are pairwise apart, and multisets that are spread over a family of lists. -/
namespace Ruos.Lib

open Function Multiset

variable {α β ι : Type*}

/-- Any two members, counted with their multiplicity, are related. -/
def Apart (r : α → α → Prop) (m : Multiset α) : Prop := ∀ a b, a ::ₘ {b} ≤ m → r a b

namespace Apart

variable {r : α → α → Prop} {m m' : Multiset α} {a b : α}

theorem zero : Apart r (0 : Multiset α) := by
  intro a b h
  have := mem_of_le h (mem_cons_self a {b})
  exact absurd this (notMem_zero a)

theorem mono (h : Apart r m) (hle : m' ≤ m) : Apart r m' := fun a b hab => h a b (le_trans hab hle)

theorem of_cons (h : Apart r (a ::ₘ m)) (hb : b ∈ m) : r a b :=
  h a b (cons_le_cons a (singleton_le.mpr hb))

theorem cons (h : Apart r m) (hsymm : ∀ a b, r a b → r b a) (ha : ∀ b ∈ m, r a b) : Apart r (a ::ₘ m) := by
  intro x y hxy
  by_cases hx : x = a
  · subst hx
    exact ha y (singleton_le.mp ((cons_le_cons_iff x).mp hxy))
  · by_cases hy : y = a
    · subst hy
      rw [← singleton_add, add_comm] at hxy
      exact hsymm y x (ha x (singleton_le.mp ((cons_le_cons_iff y).mp hxy)))
    · have hnot : a ∉ x ::ₘ {y} := by
        simp [Ne.symm hx, Ne.symm hy]
      exact h x y ((le_cons_of_notMem hnot).mp hxy)

end Apart

/-- Everything that the lists of a family hold; `g` says what an entry of each list stands for. -/
@[irreducible] def pooled [Fintype ι] (g : ι → α → β) (f : ι → List α) : Multiset β :=
  ∑ i, (((f i).map (g i) : List β) : Multiset β)

section

variable [Fintype ι] [DecidableEq ι] {g : ι → α → β} {f : ι → List α}

theorem pooled_update (g : ι → α → β) (f : ι → List α) (i : ι) (x : α) (l : List α) (h : f i = x :: l) :
    pooled g f = g i x ::ₘ pooled g (update f i l) := by
  unfold pooled
  rw [← Finset.add_sum_erase Finset.univ _ (Finset.mem_univ i),
    ← Finset.add_sum_erase Finset.univ (fun j => (((update f i l j).map (g j)) : Multiset β))
      (Finset.mem_univ i), h, update_self, List.map_cons, ← cons_coe, cons_add]
  congr 2
  apply Finset.sum_congr rfl
  intro j hj
  rw [update_of_ne (Finset.ne_of_mem_erase hj)]

theorem pooled_push (i : ι) (x : α) : pooled g (update f i (x :: f i)) = g i x ::ₘ pooled g f := by
  rw [pooled_update g _ i x (f i) (update_self i _ f), update_idem, update_eq_self]

omit [DecidableEq ι] in
theorem mem_pooled {b : β} : b ∈ pooled g f ↔ ∃ i, ∃ x ∈ f i, g i x = b := by
  unfold pooled
  simp

omit [DecidableEq ι] in
theorem mem_pooled_of_mem {i : ι} {x : α} (h : x ∈ f i) : g i x ∈ pooled g f := mem_pooled.mpr ⟨i, x, h, rfl⟩

omit [DecidableEq ι] in
@[simp] theorem pooled_nil (g : ι → α → β) : pooled g (fun _ => []) = 0 := by
  simp [pooled]

end

end Ruos.Lib
