import Ruos.Paging.ShootdownRuns

/-! Frames that `unmap_range` gives back, and the guarantees of the mapper calls over whole runs. -/
namespace Ruos.Paging

open Lib Function Option List

namespace Machine

variable {cores : Nat} {m m' : Machine} {a : Active} {e : Event} {f : Nat}

/-- The frame is mapped once at most, not while a call has taken it out, and unknown to every TLB while it waits to be
given back. -/
structure Withheld (cores f : Nat) (m : Machine) : Prop where
  once : ∀ p q, (m.table p).Uses f → (m.table q).Uses f → p = q
  freed : ∀ a ∈ m.active, f ∈ a.freed → ∀ p, ¬ (m.table p).Uses f
  held : f ∈ m.held → (∀ p, ¬ (m.table p).Uses f) ∧ ∀ c < cores, ∀ p, ∀ e ∈ m.tlb c p, e.frame ≠ f

namespace Withheld

theorem mono (h : m.Withheld cores f) (htable : m'.table = m.table) (hheld : m'.held = m.held)
    (htlb : ∀ c p, ∀ e ∈ m'.tlb c p, e ∈ m.tlb c p)
    (hfreed : ∀ a' ∈ m'.active, f ∈ a'.freed → ∃ a ∈ m.active, f ∈ a.freed) : m'.Withheld cores f where
  once := by rw [htable]; exact h.once
  freed a' ha' hf := by
    obtain ⟨a, ha, hmem⟩ := hfreed a' ha' hf
    rw [htable]
    exact h.freed a ha hmem
  held hf := by
    rw [hheld] at hf
    obtain ⟨huses, hclear⟩ := h.held hf
    rw [htable]
    exact ⟨huses, fun c hc p e he => hclear c hc p e (htlb c p e he)⟩

theorem mem_of_mem_invlpg {c d page p : Nat} {e : Entry} (he : e ∈ (m.invlpg c page).tlb d p) : e ∈ m.tlb d p := by
  by_cases hdc : d = c
  · rw [hdc, invlpg, Coherent.setTlb_self] at he
    by_cases hp : p = page
    · rw [hp, update_self] at he
      cases he
    · rw [update_of_ne hp] at he
      exact hdc ▸ he
  · rwa [invlpg, Coherent.setTlb_of_ne m _ hdc] at he

section

variable (h : m.Withheld cores f)
include h

theorem change (ha : m.active = some a) {page : Nat} {slot : Slot} {frames : List Nat}
    (htakes : Takes (m.table page) slot frames) {a' : Active} (hfreed : a'.freed = a.freed ++ frames) :
    Withheld cores f ({ m with table := update m.table page slot }.setActive a') := by
  have hback : ∀ {p : Nat}, (update m.table page slot p).Uses f → (m.table p).Uses f := by
    intro p hp
    by_cases heq : p = page
    · rw [heq, update_self] at hp
      rw [heq]
      exact htakes.uses f hp
    · rwa [update_of_ne heq] at hp
  constructor
  · intro p q hp hq
    exact h.once p q (hback hp) (hback hq)
  · refine of_setActive fun hf p hp => ?_
    rw [hfreed] at hf
    rcases mem_append.mp hf with hf | hf
    · exact h.freed a ha hf p (hback hp)
    · -- The frame was in this slot only, which does not use it any more.
      obtain ⟨huses, hgone⟩ := htakes.taken f hf
      have hpage := h.once p page (hback hp) huses
      have hslot : (update m.table page slot p).Uses f := hp
      rw [hpage, update_self] at hslot
      exact hgone f hslot
  · intro hf
    obtain ⟨huses, hclear⟩ := h.held hf
    exact ⟨fun p hp => huses p (hback hp), hclear⟩

theorem work (ha : m.active = some a) (hstep : m.work cores a = some m') : m'.Withheld cores f := by
  have hmove : ∀ {x : Machine} {a' : Active}, x.table = m.table → x.held = m.held →
      (∀ c p, ∀ e ∈ x.tlb c p, e ∈ m.tlb c p) → a'.freed = a.freed → (x.setActive a').Withheld cores f := by
    intro x a' htable hheld htlb hfreed
    refine h.mono htable hheld htlb (of_setActive fun hf => ⟨a, ha, ?_⟩)
    rwa [hfreed] at hf
  have hsame : ∀ c p, ∀ e ∈ m.tlb c p, e ∈ m.tlb c p := fun _ _ _ he => he
  unfold Machine.work at hstep
  split at hstep
  · unfold Machine.onPage at hstep
    split_ifs at hstep
    · split at hstep
      · rename_i slot frames happly
        cases hstep
        exact h.change ha (Call.takes happly) rfl
      · cases hstep
        split_ifs <;> exact hmove rfl rfl hsame rfl
    · cases hstep
      exact hmove rfl rfl hsame rfl
  · cases hstep
    exact hmove rfl rfl (fun _ _ _ => mem_of_mem_invlpg) rfl
  any_goals split_ifs at hstep
  all_goals cases hstep
  all_goals exact hmove rfl rfl hsame rfl

theorem handle (c : Nat) (x : Handler) : (m.handle c x).Withheld cores f := by
  have hmove : ∀ {y : Machine}, y.table = m.table → y.held = m.held → y.active = m.active →
      (∀ d p, ∀ e ∈ y.tlb d p, e ∈ m.tlb d p) → y.Withheld cores f := by
    intro y htable hheld hactive htlb
    refine h.mono htable hheld htlb fun a' ha' hf => ?_
    rw [hactive] at ha'
    exact ⟨a', ha', hf⟩
  cases x with
  | loadAddr | loadLen | ack => exact hmove rfl rfl rfl fun _ _ _ he => he
  | invlpg addr len i =>
    rw [Machine.handle]
    split_ifs
    · exact hmove rfl rfl rfl fun _ _ _ he => mem_of_mem_invlpg he
    · exact hmove rfl rfl rfl fun _ _ _ he => he
  | reload =>
    refine hmove rfl rfl rfl fun d p e he => ?_
    have he' : e ∈ (m.setTlb c fun p => (m.tlb c p).filter (·.isGlobal)).tlb d p := he
    by_cases hdc : d = c
    · rw [hdc, Coherent.setTlb_self] at he'
      rw [hdc]
      exact (filter_eq_some_iff.mp he').1
    · rwa [Coherent.setTlb_of_ne m _ hdc] at he'

theorem fill (c page : Nat) : Withheld cores f (m.setTlb c (update (m.tlb c) page (m.table page).translate)) where
  __ := h
  held hf := by
    obtain ⟨huses, hclear⟩ := h.held hf
    refine ⟨huses, fun d hd p e he => ?_⟩
    by_cases hdc : d = c
    · rw [hdc, Coherent.setTlb_self] at he
      by_cases hp : p = page
      · rw [hp, update_self] at he
        intro heq
        exact huses page (heq ▸ Slot.uses_of_translate he)
      · rw [update_of_ne hp] at he
        exact hclear d hd p e (hdc ▸ he)
    · rw [Coherent.setTlb_of_ne m _ hdc] at he
      exact hclear d hd p e he

theorem map (hidle : m.active = none) {page frame flags : Nat}
    (hnew : frame = f → f ∉ m.held ∧ ∀ p, ¬ (m.table p).Uses f) :
    Withheld cores f { m with table := update m.table page (.table ⟨frame, flags⟩) } := by
  have hback : ∀ {p : Nat}, (update m.table page (.table ⟨frame, flags⟩) p).Uses f →
      p = page ∧ frame = f ∨ (m.table p).Uses f := by
    intro p hp
    by_cases heq : p = page
    · rw [heq, update_self] at hp
      exact .inl ⟨heq, hp.2⟩
    · rw [update_of_ne heq] at hp
      exact .inr hp
  constructor
  · intro p q hp hq
    rcases hback hp with ⟨rfl, hframe⟩ | hp
    · rcases hback hq with ⟨rfl, -⟩ | hq
      · rfl
      · exact absurd hq ((hnew hframe).2 q)
    · rcases hback hq with ⟨-, hframe⟩ | hq
      · exact absurd hp ((hnew hframe).2 p)
      · exact h.once p q hp hq
  · intro a ha
    have ha' : a ∈ m.active := ha
    rw [hidle] at ha'
    cases ha'
  · intro hf
    obtain ⟨huses, hclear⟩ := h.held hf
    refine ⟨fun p hp => ?_, hclear⟩
    rcases hback hp with ⟨-, hframe⟩ | hp
    · exact (hnew hframe).1 hf
    · exact huses p hp

theorem finish (hcoherent : m.Coherent cores) (ha : m.active = some a) (hphase : a.phase = .ret) :
    Withheld cores f { m with active := none, held := m.held ++ a.freed } where
  once := h.once
  freed x hx := by cases hx
  held hf := by
    rcases mem_append.mp hf with hf | hf
    · exact h.held hf
    · have huses := h.freed a ha hf
      refine ⟨huses, fun c hc p e he heq => ?_⟩
      have htable := (hcoherent.finish ha hphase []).agrees rfl hc he
      exact huses p (heq ▸ Slot.uses_of_translate htable)

end

end Withheld

end Machine
end Ruos.Paging
