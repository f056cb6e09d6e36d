import Mathlib.Data.Finset.Card

/-! Caches of a table that may be stale on some keys, and the count of those that have answered. -/
namespace Ruos.Lib

open Function Finset

variable {κ β : Type*} {stale stale' : κ → Prop} {cache truth truth' : κ → Option β} {k : κ}

/-- What is cached for a key that is not stale is what the table holds. -/
def FreshOff (stale : κ → Prop) (cache truth : κ → Option β) : Prop :=
  ∀ k, ¬ stale k → ∀ b, cache k = some b → truth k = some b

namespace FreshOff

theorem mono (h : FreshOff stale cache truth) (hle : ∀ k, stale k → stale' k) : FreshOff stale' cache truth :=
  fun k hk => h k fun hs => hk (hle k hs)

theorem change (h : FreshOff stale cache truth) (hle : ∀ k, stale k → stale' k)
    (hsame : ∀ k, ¬ stale' k → ∀ b, truth k = some b → truth' k = some b) : FreshOff stale' cache truth' :=
  fun k hk b hb => hsame k hk b (h k (fun hs => hk (hle k hs)) b hb)

variable [DecidableEq κ]

theorem fill (h : FreshOff stale cache truth) (k : κ) : FreshOff stale (update cache k (truth k)) truth := by
  intro j hj b hb
  by_cases hjk : j = k
  · rw [hjk, update_self] at hb
    rw [hjk, hb]
  · rw [update_of_ne hjk] at hb
    exact h j hj b hb

theorem drop (h : FreshOff stale cache truth) (hle : ∀ j, j ≠ k → stale j → stale' j) :
    FreshOff stale' (update cache k none) truth := by
  intro j hj b hb
  by_cases hjk : j = k
  · rw [hjk, update_self] at hb
    cases hb
  · rw [update_of_ne hjk] at hb
    exact h j (fun hs => hj (hle j hjk hs)) b hb

end FreshOff

variable {s : Finset κ} {p q : κ → Prop} [DecidablePred p] [DecidablePred q] [DecidableEq κ]

theorem card_filter_succ (hk : k ∈ s) (hp : ¬ p k) (hq : ∀ j ∈ s, q j ↔ j = k ∨ p j) :
    (s.filter q).card = (s.filter p).card + 1 := by
  have hinsert : s.filter q = insert k (s.filter p) := by
    ext j
    rw [mem_filter, mem_insert, mem_filter]
    constructor
    · rintro ⟨hj, hqj⟩
      rcases (hq j hj).mp hqj with heq | hpj
      · exact .inl heq
      · exact .inr ⟨hj, hpj⟩
    · rintro (rfl | ⟨hj, hpj⟩)
      · exact ⟨hk, (hq j hk).mpr (.inl rfl)⟩
      · exact ⟨hj, (hq j hj).mpr (.inr hpj)⟩
  rw [hinsert, card_insert_of_notMem]
  intro hmem
  exact hp (mem_filter.mp hmem).2

end Ruos.Lib
