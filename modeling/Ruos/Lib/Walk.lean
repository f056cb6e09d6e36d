import Mathlib.Data.List.Nodup

/-! Lists linked through a table: the nodes that are visited from a head while they are live. -/
namespace Ruos.Lib

open Function List

variable {α : Type*}

/-- `l` are the nodes from `c` on, along `next`, up to the first one that is not live. -/
def Walk (live : α → Prop) (next : α → α) : α → List α → Prop
  | c, [] => ¬ live c
  | c, x :: l => c = x ∧ live c ∧ Walk live next (next c) l

namespace Walk

variable {live : α → Prop} {next next' : α → α} {c d x : α} {l l' : List α}

theorem unique (h : Walk live next c l) (h' : Walk live next c l') : l = l' := by
  induction l generalizing c l' with
  | nil =>
    cases l' with
    | nil => rfl
    | cons x l' => exact absurd h'.2.1 h
  | cons x l ih =>
    obtain ⟨rfl, hlive, hrest⟩ := h
    cases l' with
    | nil => exact absurd hlive h'
    | cons y l' =>
      obtain ⟨rfl, -, hrest'⟩ := h'
      rw [ih hrest hrest']

theorem rest (h : Walk live next c (l ++ x :: l')) : Walk live next x (x :: l') := by
  induction l generalizing c with
  | nil =>
    obtain ⟨rfl, hrest⟩ := h
    exact ⟨rfl, hrest⟩
  | cons y l ih => exact ih h.2.2

section

variable (h : Walk live next c l)
include h

theorem nodup : l.Nodup := by
  induction l generalizing c with
  | nil => exact nodup_nil
  | cons x l ih =>
    refine nodup_cons.mpr ⟨fun hx => ?_, ih h.2.2⟩
    obtain ⟨l₁, l₂, rfl⟩ := append_of_mem hx
    have hagain := rest (l := x :: l₁) h
    have hlen := congrArg List.length (unique (h.1 ▸ h) hagain)
    simp only [length_cons, length_append] at hlen
    omega

theorem live_of_mem (hx : x ∈ l) : live x := by
  obtain ⟨l₁, l₂, rfl⟩ := append_of_mem hx
  exact (rest h).2.1

theorem head_mem (hc : live c) : c ∈ l := by
  cases l with
  | nil => exact absurd hc h
  | cons x l => exact h.1 ▸ mem_cons_self

theorem head? (hc : live c) : l.head? = some c := by
  cases l with
  | nil => exact absurd hc h
  | cons x l => rw [head?_cons, h.1]

theorem head?_of_ne_nil (hl : l ≠ []) : l.head? = some c := by
  cases l with
  | nil => exact absurd rfl hl
  | cons x l => rw [head?_cons, h.1]

theorem congr (hagree : ∀ x ∈ l, next' x = next x) : Walk live next' c l := by
  induction l generalizing c with
  | nil => exact h
  | cons x l ih =>
    obtain ⟨rfl, hlive, hrest⟩ := h
    refine ⟨rfl, hlive, ?_⟩
    rw [hagree c mem_cons_self]
    exact ih hrest fun y hy => hagree y (mem_cons_of_mem _ hy)

end

variable [DecidableEq α]

/-- A node that was visited may be linked to the head of another walk: the rest of the old one is cut off. -/
theorem relink {m : List α} (h : Walk live next c (m ++ d :: l)) (h' : Walk live next x l') (hd : d ∉ l') :
    Walk live (Function.update next d x) c (m ++ d :: l') := by
  have hnodup := nodup h
  induction m generalizing c with
  | nil =>
    obtain ⟨rfl, hlive, -⟩ := h
    refine ⟨rfl, hlive, ?_⟩
    rw [update_self]
    exact h'.congr fun y hy => update_of_ne (ne_of_mem_of_not_mem hy hd) _ _
  | cons y m ih =>
    obtain ⟨rfl, hlive, hrest⟩ := h
    obtain ⟨hy, hnodup⟩ := nodup_cons.mp hnodup
    refine ⟨rfl, hlive, ?_⟩
    rw [update_of_ne (fun heq => hy (by simp [heq]))]
    exact ih hrest hnodup

end Walk
end Ruos.Lib
