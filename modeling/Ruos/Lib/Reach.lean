import Mathlib.Data.Fintype.Pigeonhole
import Mathlib.Data.Set.Finite.Basic

/-! Cycles of a relation on finitely many elements, and orders that rule them out. -/
namespace Ruos.Lib

open Relation List

variable {α : Type*} {r : α → α → Prop} {l : List α}

def SuccessorsFirst (r : α → α → Prop) (l : List α) : Prop :=
  ∀ before a rest, l = before ++ a :: rest → ∀ b, r a b → b ∈ before

theorem SuccessorsFirst.mem_before (h : SuccessorsFirst r l) {a b : α} (hab : TransGen r a b) {before rest : List α}
    (hl : l = before ++ a :: rest) : b ∈ before := by
  induction hab using TransGen.head_induction_on generalizing before rest with
  | single hab => exact h before _ rest hl b hab
  | head hac _ ih =>
    obtain ⟨first, last, rfl⟩ := append_of_mem (h before _ rest hl _ hac)
    exact mem_append_left _ (ih (by rw [hl, append_assoc, cons_append]))

theorem SuccessorsFirst.mem (h : SuccessorsFirst r l) {a b : α} (hab : ReflTransGen r a b) (ha : a ∈ l) : b ∈ l := by
  rcases reflTransGen_iff_eq_or_transGen.mp hab with rfl | hab
  · exact ha
  · obtain ⟨before, rest, rfl⟩ := append_of_mem ha
    exact mem_append_left _ (h.mem_before hab rfl)

theorem SuccessorsFirst.acyclic (h : SuccessorsFirst r l) (hnodup : l.Nodup) {a : α} (ha : a ∈ l) :
    ¬TransGen r a a := by
  intro hcycle
  obtain ⟨before, rest, rfl⟩ := append_of_mem ha
  have hdisj := (nodup_append.mp hnodup).2.2
  exact hdisj a (h.mem_before hcycle rfl) a mem_cons_self rfl

theorem reaches_cycle (hsucc : ∀ a ∈ l, ∃ b ∈ l, r a b) {a : α} (ha : a ∈ l) :
    ∃ c, ReflTransGen r a c ∧ TransGen r c c := by
  choose! next hmem hnext using hsucc
  let path : Nat → α := fun i => next^[i] a
  have hpath : ∀ i, path i ∈ l := by
    intro i
    induction i with
    | zero => exact ha
    | succ i ih =>
      change next^[i + 1] a ∈ l
      rw [Function.iterate_succ_apply']
      exact hmem _ ih
  have hstep : ∀ i, TransGen r (path i) (path (i + 1)) := by
    intro i
    change TransGen r (path i) (next^[i + 1] a)
    rw [Function.iterate_succ_apply']
    exact .single (hnext _ (hpath i))
  have hlt : ∀ i j, i < j → TransGen r (path i) (path j) := by
    intro i j hij
    exact Nat.rel_of_forall_rel_succ_of_lt (TransGen r) hstep hij
  -- The path stays among finitely many elements, so it meets one twice.
  obtain ⟨i, j, hij, heq⟩ : ∃ i j, i < j ∧ path i = path j := by
    have : Finite { x // x ∈ l } := l.finite_toSet
    obtain ⟨i, j, hne, heq⟩ :=
      Finite.exists_ne_map_eq_of_infinite fun i => (⟨path i, hpath i⟩ : { x // x ∈ l })
    have heq := congrArg Subtype.val heq
    rcases Nat.lt_or_gt_of_ne hne with hlt | hlt
    · exact ⟨i, j, hlt, heq⟩
    · exact ⟨j, i, hlt, heq.symm⟩
  refine ⟨path i, ?_, ?_⟩
  · rcases Nat.eq_zero_or_pos i with rfl | hpos
    · exact .refl
    · exact (hlt 0 i hpos).to_reflTransGen
  · have hcycle := hlt i j hij
    rwa [← heq] at hcycle

end Ruos.Lib
