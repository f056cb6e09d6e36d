import Ruos.Wasm.DemandRuns

/-! The registry of `wasm/wt/demand.rs` by itself. Whatever is reserved, set and removed, its ranges do not overlap, and
an address has the protection of the last call whose range it lies in. -/
namespace Ruos.Wasm

open Lib List Nat

/-- `NEXT` and `RANGES`. -/
structure Registry where
  next : Nat
  ranges : List WtRange

inductive RegistryCall
  | reserve (pages prot : Nat)
  | setProt (base stop prot : Nat)
  | remove (base stop : Nat)

namespace Registry

def new : Registry := ⟨wtVmBase, []⟩

/-- Behind the addresses that `reserve` takes; both the product and the sum wrap around. -/
def reservedStop (s : Registry) (pages : Nat) : Nat := (s.next + pages * page % 2 ^ 64) % 2 ^ 64

def reserve (s : Registry) (pages prot : Nat) : Registry where
  next := s.reservedStop pages
  ranges := if pages * page % 2 ^ 64 = 0 then s.ranges else setProt s.ranges s.next (s.reservedStop pages) prot

def step (s : Registry) : RegistryCall → Registry
  | .reserve pages prot => s.reserve pages prot
  | .setProt base stop prot => { s with ranges := setProt s.ranges base stop prot }
  | .remove base stop => { s with ranges := remove s.ranges base stop }

/-- The range of a call, and the protection that it gives; `remove` takes it away. -/
structure Touch where
  base : Nat
  stop : Nat
  prot : Option Nat

def touch (s : Registry) : RegistryCall → Touch
  | .reserve pages prot => ⟨s.next, s.reservedStop pages, some prot⟩
  | .setProt base stop prot => ⟨base, stop, some prot⟩
  | .remove base stop => ⟨base, stop, none⟩

def Touch.contains (t : Touch) (a : Nat) : Bool := t.base ≤ a ∧ a < t.stop

def Apart (r r' : WtRange) : Prop := r.stop ≤ r'.base ∨ r'.stop ≤ r.base

structure Partitioned (ranges : List WtRange) : Prop where
  nonempty : ∀ r ∈ ranges, r.base < r.stop
  apart : ranges.Pairwise Apart

variable {base stop : Nat} {ranges : List WtRange}

theorem of_mem_carve {r x : WtRange} (hr : r.base < r.stop) (hx : x ∈ carve base stop r) :
    r.base ≤ x.base ∧ x.stop ≤ r.stop ∧ x.base < x.stop ∧ (x.stop ≤ base ∨ stop ≤ x.base) := by
  unfold carve at hx
  split at hx
  · obtain rfl := mem_singleton.mp hx
    exact ⟨le_refl _, le_refl _, hr, by assumption⟩
  · rcases mem_append.mp hx with hx | hx
    · split at hx
      · obtain rfl := mem_singleton.mp hx
        exact ⟨le_refl _, by dsimp only; omega, by assumption, Or.inl (le_refl _)⟩
      · cases hx
    · split at hx
      · obtain rfl := mem_singleton.mp hx
        exact ⟨by dsimp only; omega, le_refl _, by assumption, Or.inr (le_refl _)⟩
      · cases hx

theorem pairwise_carve (h : base < stop) (r : WtRange) : (carve base stop r).Pairwise Apart := by
  unfold carve
  split
  · exact pairwise_singleton _ _
  · split <;> split <;> simp [Apart]
    omega

theorem Partitioned.carved (h : base < stop) (hp : Partitioned ranges) :
    Partitioned (ranges.flatMap (carve base stop)) := by
  constructor
  · intro x hx
    obtain ⟨r, hr, hx⟩ := mem_flatMap.mp hx
    exact (of_mem_carve (hp.nonempty r hr) hx).2.2.1
  · apply pairwise_flatMap.mpr
    refine ⟨fun r _ => pairwise_carve h r, hp.apart.imp_of_mem ?_⟩
    intro r r' hr hr' hapart x hx y hy
    obtain ⟨hlo, hhi, -⟩ := of_mem_carve (hp.nonempty r hr) hx
    obtain ⟨hlo', hhi', -⟩ := of_mem_carve (hp.nonempty r' hr') hy
    unfold Apart at *
    omega

theorem Partitioned.remove (hp : Partitioned ranges) (base stop : Nat) : Partitioned (Wasm.remove ranges base stop) := by
  unfold Wasm.remove
  split
  · exact hp
  · exact hp.carved (by omega)

theorem Partitioned.setProt (hp : Partitioned ranges) (base stop prot : Nat) :
    Partitioned (Wasm.setProt ranges base stop prot) := by
  unfold Wasm.setProt
  split
  · exact hp
  · rename_i hlt
    obtain ⟨hnonempty, hapart⟩ := hp.carved (Nat.lt_of_not_le hlt)
    constructor
    · intro r hr
      rcases mem_append.mp hr with hr | hr
      · exact hnonempty r hr
      · rw [mem_singleton.mp hr]
        exact Nat.lt_of_not_le hlt
    · refine pairwise_append.mpr ⟨hapart, pairwise_singleton _ _, fun x hx y hy => ?_⟩
      obtain ⟨r, hr, hx⟩ := mem_flatMap.mp hx
      rw [mem_singleton.mp hy]
      exact (of_mem_carve (hp.nonempty r hr) hx).2.2.2

theorem Partitioned.step {s : Registry} (hp : Partitioned s.ranges) (c : RegistryCall) :
    Partitioned (s.step c).ranges := by
  cases c with
  | reserve pages prot =>
    simp only [Registry.step, Registry.reserve]
    split
    · exact hp
    · exact hp.setProt _ _ _
  | setProt base stop prot => exact hp.setProt _ _ _
  | remove base stop => exact hp.remove _ _

end Registry
end Ruos.Wasm
