import Mathlib.Data.Nat.Init

/-! Infinite runs of a step function, and what they reach when one event recurs. -/
namespace Ruos.Lib

variable {σ ε : Type*}

/-- The state after `n` events of an infinite sequence. -/
def forever (step : σ → ε → σ) (s : σ) (es : Nat → ε) : Nat → σ
  | 0 => s
  | n + 1 => step (forever step s es n) (es n)

def Recurs (es : Nat → ε) (e : ε) : Prop := ∀ n, ∃ m, n ≤ m ∧ es m = e

variable {step : σ → ε → σ} {s : σ} {es : Nat → ε}

theorem forever_invariant {guard : σ → ε → Prop} {I : σ → Prop} (hstep : ∀ s e, I s → guard s e → I (step s e))
    (hs : I s) {n : Nat} (hg : ∀ k < n, guard (forever step s es k) (es k)) : I (forever step s es n) := by
  induction n with
  | zero => exact hs
  | succ n ih => exact hstep _ _ (ih fun k hk => hg k (by omega)) (hg n (by omega))

theorem forever_preserves {I : σ → Prop} (hstep : ∀ s e, I s → I (step s e)) {n m : Nat} (hnm : n ≤ m)
    (h : I (forever step s es n)) : I (forever step s es m) := by
  induction m, hnm using Nat.le_induction with
  | base => exact h
  | succ m _ ih => exact hstep _ _ ih

/-- A measure that no step decreases, and that a recurring event increases while it is below `top`, reaches `top`. -/
theorem forever_reaches {μ : σ → Nat} {e : ε} (hrec : Recurs es e) {top : Nat} {n : Nat}
    (hmono : ∀ k, μ (forever step s es k) ≤ μ (forever step s es (k + 1)))
    (hup : ∀ k, n ≤ k → es k = e → μ (forever step s es k) < top →
      μ (forever step s es k) < μ (forever step s es (k + 1))) : ∃ m, n ≤ m ∧ top ≤ μ (forever step s es m) := by
  have hle : ∀ {j k : Nat}, j ≤ k → μ (forever step s es j) ≤ μ (forever step s es k) := by
    intro j k hjk
    induction k, hjk using Nat.le_induction with
    | base => exact Nat.le_refl _
    | succ k _ ih => exact Nat.le_trans ih (hmono k)
  have hreach : ∀ t ≤ top, ∃ m, n ≤ m ∧ t ≤ μ (forever step s es m) := by
    intro t ht
    induction t with
    | zero => exact ⟨n, Nat.le_refl n, Nat.zero_le _⟩
    | succ t ih =>
      obtain ⟨j, hnj, hj⟩ := ih (by omega)
      obtain ⟨k, hjk, hk⟩ := hrec j
      have hjk' := hle hjk
      by_cases hdone : t + 1 ≤ μ (forever step s es k)
      · exact ⟨k, by omega, hdone⟩
      · have hlt := hup k (by omega) hk (by omega)
        exact ⟨k + 1, by omega, by omega⟩
  exact hreach top (Nat.le_refl top)

end Ruos.Lib
