import Mathlib.Order.Interval.Finset.Nat

/-! The slots of a ring of `N` that a window of consecutive numbers occupies. -/
namespace Ruos.Lib

/-- Slot `i` is that of some number of the window from `a` to `b`. -/
def InWindow (N a b i : Nat) : Prop := ∃ k, a ≤ k ∧ k < b ∧ k % N = i

variable {N a b i k k' : Nat}

theorem eq_of_mod_eq (hk : a ≤ k) (hkb : k < a + N) (hk' : a ≤ k') (hkb' : k' < a + N) (h : k % N = k' % N) :
    k = k' :=
  Nat.mod_injOn_Ico a N (by simpa using ⟨hk, hkb⟩) (by simpa using ⟨hk', hkb'⟩) h

theorem mod_eq_iff (hab : a ≤ b) (hb : b ≤ a + N) : a % N = b % N ↔ b = a ∨ b = a + N := by
  constructor
  · intro h
    by_cases hlt : b < a + N
    · exact .inl (eq_of_mod_eq hab hlt (Nat.le_refl a) (by omega) h.symm)
    · exact .inr (by omega)
  · rintro (rfl | rfl)
    · rfl
    · rw [Nat.add_mod_right]

namespace InWindow

theorem mem (hk : a ≤ k) (hkb : k < b) : InWindow N a b (k % N) := ⟨k, hk, hkb, rfl⟩

theorem end_iff (hb : b ≤ a + N) (hN : 0 < N) : InWindow N a b (b % N) ↔ b = a + N := by
  constructor
  · rintro ⟨k, hk, hkb, hmod⟩
    by_contra hne
    have hkeq := eq_of_mod_eq hk (by omega) (by omega : a ≤ b) (by omega) hmod
    omega
  · rintro rfl
    exact ⟨a, Nat.le_refl a, by omega, (Nat.add_mod_right a N).symm⟩

theorem succ_right (hab : a ≤ b) : InWindow N a (b + 1) i ↔ InWindow N a b i ∨ b % N = i := by
  constructor
  · rintro ⟨k, hk, hkb, rfl⟩
    rcases Nat.lt_succ_iff_lt_or_eq.mp hkb with hlt | rfl
    · exact .inl (mem hk hlt)
    · exact .inr rfl
  · rintro (⟨k, hk, hkb, rfl⟩ | rfl)
    · exact mem hk (by omega)
    · exact mem hab (by omega)

theorem of_succ_left (h : InWindow N a b i) (hne : a % N ≠ i) : InWindow N (a + 1) b i := by
  obtain ⟨k, hk, hkb, rfl⟩ := h
  have hak : a ≠ k := fun hak => hne (hak ▸ rfl)
  exact mem (by omega) hkb

end InWindow

theorem succ_mod (a N : Nat) : (a % N + 1) % N = (a + 1) % N := Nat.mod_add_mod a N 1

end Ruos.Lib
