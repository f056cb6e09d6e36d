import Mathlib.Data.List.Nodup
import Mathlib.Data.List.Perm.Subperm
import Mathlib.Data.List.Range

/-! The topological sort of `service/topo.rs` (Kahn's algorithm): dependencies come before what depends on them, and no
node is lost. -/
namespace Ruos.Service

open List

/-- A name with the names it depends on; only those that are nodes themselves count. -/
abbrev Nodes := List (String × List String)

namespace Nodes

def names (nodes : Nodes) : List String := nodes.map Prod.fst

def nameAt (nodes : Nodes) (i : Nat) : String := (nodes[i]?.map Prod.fst).getD ""

def depsAt (nodes : Nodes) (i : Nat) : List String := (nodes[i]?.map Prod.snd).getD []

end Nodes

/-- `indeg` and `done` are the two arrays, by index. -/
structure Kahn where
  indeg : Nat → Nat
  done : Nat → Bool
  order : List String

namespace Kahn

variable (nodes : Nodes)

def start : Kahn where
  indeg := fun i => ((nodes.depsAt i).filter fun d => d ∈ nodes.names).length
  done := fun _ => false
  order := []

/-- The smallest index with no open dependency that has not been emitted. -/
def next (s : Kahn) : Option Nat := (List.range nodes.length).find? fun i => !s.done i && s.indeg i == 0

def emit (s : Kahn) (i : Nat) : Kahn :=
  let done := Function.update s.done i true
  { indeg := fun j => if !done j && (nodes.depsAt j).contains (nodes.nameAt i) then s.indeg j - 1 else s.indeg j
    done := done
    order := s.order ++ [nodes.nameAt i] }

/-- The loop, cut off after `fuel` rounds. -/
def loop : Nat → Kahn → Kahn
  | 0, s => s
  | fuel + 1, s =>
    match s.next nodes with
    | none => s
    | some i => loop fuel (s.emit nodes i)

end Kahn

/-- The order, and the nodes that are left in cycles. Each round emits a node, so there is one for each at most. -/
def topoSort (nodes : Nodes) : List String × List String :=
  let s := Kahn.loop nodes nodes.length (Kahn.start nodes)
  (s.order, ((List.range nodes.length).filter fun i => !s.done i).map nodes.nameAt)

namespace Nodes

variable {nodes : Nodes}

theorem nameAt_eq {i : Nat} (hi : i < nodes.length) : nodes.nameAt i = (nodes[i]).1 := by
  simp [nameAt, hi]

theorem nameAt_mem {i : Nat} (hi : i < nodes.length) : nodes.nameAt i ∈ nodes.names := by
  rw [nameAt_eq hi]
  exact mem_map.mpr ⟨nodes[i], getElem_mem hi, rfl⟩

theorem nameAt_inj (hnodup : nodes.names.Nodup) {i j : Nat} (hi : i < nodes.length) (hj : j < nodes.length)
    (h : nodes.nameAt i = nodes.nameAt j) : i = j := by
  rw [nameAt_eq hi, nameAt_eq hj] at h
  have hi' : i < nodes.names.length := by simpa [names] using hi
  have hj' : j < nodes.names.length := by simpa [names] using hj
  exact hnodup.getElem_inj_iff.mp (show nodes.names[i] = nodes.names[j] by simpa [names] using h)

end Nodes

namespace Kahn

variable {nodes : Nodes}

/-- The dependencies of node `j` that are nodes, as they stand in its list. -/
def inner (nodes : Nodes) (j : Nat) : List String := (nodes.depsAt j).filter fun d => d ∈ nodes.names

/-- The nodes of `emitted` on which node `j` depends. -/
def met (nodes : Nodes) (emitted : List Nat) (j : Nat) : List Nat :=
  emitted.filter fun i => nodes.nameAt i ∈ nodes.depsAt j

section

variable (hnodup : nodes.names.Nodup) {emitted : List Nat} (hem : emitted.Nodup)
  (hlt : ∀ i ∈ emitted, i < nodes.length)
include hnodup hem hlt

theorem nodup_met (j : Nat) : ((met nodes emitted j).map nodes.nameAt).Nodup := by
  refine (hem.filter _).map_on fun i hi k hk heq => ?_
  exact Nodes.nameAt_inj hnodup (hlt i (mem_filter.mp hi).1) (hlt k (mem_filter.mp hk).1) heq

theorem met_subperm (j : Nat) : ((met nodes emitted j).map nodes.nameAt).Subperm (inner nodes j) := by
  refine (nodup_met hnodup hem hlt j).subperm fun n hn => ?_
  obtain ⟨i, hi, rfl⟩ := mem_map.mp hn
  obtain ⟨hmem, hdep⟩ := mem_filter.mp hi
  exact mem_filter.mpr ⟨by simpa using hdep, by simpa using Nodes.nameAt_mem (hlt i hmem)⟩

end

/-- What the loop maintains, with the indices emitted so far: the counter of an open node and its met dependencies add
up to the number it started with. -/
structure Inv (nodes : Nodes) (s : Kahn) (emitted : List Nat) : Prop where
  nodup : emitted.Nodup
  lt : ∀ i ∈ emitted, i < nodes.length
  done : ∀ i, s.done i ↔ i ∈ emitted
  order : s.order = emitted.map nodes.nameAt
  indeg : ∀ j, s.done j = false → s.indeg j + (met nodes emitted j).length = (inner nodes j).length
  sorted : ∀ before i rest, emitted = before ++ i :: rest → ∀ d ∈ inner nodes i, d ∈ before.map nodes.nameAt
  single : ∀ i ∈ emitted, (inner nodes i).Nodup

theorem Inv.start : Inv nodes (start nodes) [] where
  nodup := nodup_nil
  lt := fun _ h => by cases h
  done := fun i => by simp [Kahn.start]
  order := rfl
  indeg := fun j _ => by simp [Kahn.start, met, inner]
  sorted := fun before i rest h => by simp at h
  single := fun _ h => by cases h

variable {emitted : List Nat}

theorem Inv.emit (hnodup : nodes.names.Nodup) {s : Kahn} (h : Inv nodes s emitted) {i : Nat} (hi : i < nodes.length)
    (hopen : s.done i = false) (hzero : s.indeg i = 0) : Inv nodes (s.emit nodes i) (emitted ++ [i]) := by
  have hnew : i ∉ emitted := fun hmem => by
    rw [(h.done i).mpr hmem] at hopen
    cases hopen
  have hnodup' : (emitted ++ [i]).Nodup := by
    rw [nodup_append]
    refine ⟨h.nodup, by simp, fun a ha b hb heq => hnew ?_⟩
    rw [mem_singleton.mp hb] at heq
    exact heq ▸ ha
  have hlt' : ∀ k ∈ emitted ++ [i], k < nodes.length := by
    intro k hk
    rcases mem_append.mp hk with hk | hk
    · exact h.lt k hk
    · rw [mem_singleton.mp hk]
      exact hi
  -- The counter of the new node is zero, so its inner dependencies are those that have been met.
  have hperm : ((met nodes emitted i).map nodes.nameAt).Perm (inner nodes i) := by
    have hcount := h.indeg i hopen
    exact (met_subperm hnodup h.nodup h.lt i).perm_of_length_le (by rw [length_map]; omega)
  refine ⟨hnodup', hlt', ?_, ?_, ?_, ?_, ?_⟩
  · intro k
    by_cases heq : k = i
    · subst heq
      simp [Kahn.emit]
    · simp [Kahn.emit, heq, h.done k]
  · simp [Kahn.emit, h.order]
  · intro j hj
    have hji : j ≠ i := by
      rintro rfl
      simp [Kahn.emit] at hj
    have hj' : s.done j = false := by simpa [Kahn.emit, hji] using hj
    have hold := h.indeg j hj'
    have hle := (met_subperm hnodup hnodup' hlt' j).length_le
    rw [length_map] at hle
    by_cases hdep : nodes.nameAt i ∈ nodes.depsAt j
    · have hmet : (met nodes (emitted ++ [i]) j).length = (met nodes emitted j).length + 1 := by
        simp [met, filter_append, hdep]
      have hind : (s.emit nodes i).indeg j = s.indeg j - 1 := by
        simp [Kahn.emit, hji, hj', hdep]
      omega
    · have hmet : met nodes (emitted ++ [i]) j = met nodes emitted j := by
        simp [met, filter_append, hdep]
      have hind : (s.emit nodes i).indeg j = s.indeg j := by
        simp [Kahn.emit, hdep]
      rw [hind, hmet, hold]
  · have hall : ∀ d ∈ inner nodes i, d ∈ emitted.map nodes.nameAt := by
      intro d hd
      obtain ⟨k, hk, rfl⟩ := mem_map.mp (hperm.mem_iff.mpr hd)
      exact mem_map.mpr ⟨k, (mem_filter.mp hk).1, rfl⟩
    intro before k rest heq
    rcases eq_nil_or_concat rest with rfl | ⟨rest', z, rfl⟩
    · obtain ⟨rfl, hk⟩ := append_inj' heq rfl
      obtain rfl : i = k := by simpa using hk
      exact hall
    · have hsplit : emitted ++ [i] = (before ++ k :: rest') ++ [z] := by simpa using heq
      exact h.sorted before k rest' (append_inj' hsplit rfl).1
  · intro k hk
    rcases mem_append.mp hk with hk | hk
    · exact h.single k hk
    · rw [mem_singleton.mp hk]
      exact hperm.nodup_iff.mp (nodup_met hnodup h.nodup h.lt i)

/-- Every round emits a node, so after as many rounds as there are nodes none can be emitted any more. -/
theorem Inv.loop (hnodup : nodes.names.Nodup) (fuel : Nat) {s : Kahn} (h : Inv nodes s emitted) :
    ∃ emitted', Inv nodes (loop nodes fuel s) emitted' ∧
      (nodes.length ≤ emitted.length + fuel → (loop nodes fuel s).next nodes = none) := by
  induction fuel generalizing s emitted with
  | zero =>
    refine ⟨emitted, h, fun hfuel => find?_eq_none.mpr fun i hi => ?_⟩
    have hsub : emitted.Subperm (range nodes.length) := h.nodup.subperm fun i hi => mem_range.mpr (h.lt i hi)
    have hperm := hsub.perm_of_length_le (by simpa using hfuel)
    simp [loop, (h.done i).mpr (hperm.mem_iff.mpr hi)]
  | succ fuel ih =>
    rw [loop]
    split
    · next hnext => exact ⟨emitted, h, fun _ => hnext⟩
    · rename_i i hnext
      have hi := mem_range.mp (mem_of_find?_eq_some hnext)
      obtain ⟨hopen, hzero⟩ : s.done i = false ∧ s.indeg i = 0 := by simpa using find?_some hnext
      obtain ⟨emitted', hinv, hnone⟩ := ih (h.emit hnodup hi hopen hzero)
      refine ⟨emitted', hinv, fun hfuel => hnone ?_⟩
      rw [length_append, length_singleton]
      omega

theorem Inv.all (hnodup : nodes.names.Nodup) :
    ∃ emitted, Inv nodes (Kahn.loop nodes nodes.length (Kahn.start nodes)) emitted ∧
      (Kahn.loop nodes nodes.length (Kahn.start nodes)).next nodes = none := by
  obtain ⟨emitted, h, hnone⟩ := Inv.start.loop hnodup nodes.length
  exact ⟨emitted, h, hnone (by simp)⟩

end Kahn

variable {nodes : Nodes}

theorem topoSort_perm (hnodup : nodes.names.Nodup) : ((topoSort nodes).2 ++ (topoSort nodes).1).Perm nodes.names := by
  obtain ⟨emitted, h, -⟩ := Kahn.Inv.all hnodup
  have hnames : nodes.names = (range nodes.length).map nodes.nameAt := by
    apply ext_getElem (by simp [Nodes.names])
    intro i hi hi'
    have hlt : i < nodes.length := by simpa using hi'
    simp [Nodes.names, Nodes.nameAt_eq hlt]
  have hdone : ((range nodes.length).filter
      fun i => (Kahn.loop nodes nodes.length (Kahn.start nodes)).done i).Perm emitted := by
    rw [perm_ext_iff_of_nodup (nodup_range.filter _) h.nodup]
    intro i
    simp only [mem_filter, mem_range, h.done i]
    exact ⟨fun hi => hi.2, fun hi => ⟨h.lt i hi, hi⟩⟩
  rw [hnames, topoSort, h.order, ← map_append]
  apply List.Perm.map
  refine (List.Perm.append_left _ hdone.symm).trans ?_
  refine perm_append_comm.trans ?_
  exact filter_append_perm _ _

theorem topoSort_sorted (hnodup : nodes.names.Nodup) {before rest : List String} {n : String}
    (h : (topoSort nodes).1 = before ++ n :: rest) {deps : List String} (hn : (n, deps) ∈ nodes) {d : String}
    (hd : d ∈ deps) (hmem : d ∈ nodes.names) : d ∈ before := by
  obtain ⟨emitted, hinv, -⟩ := Kahn.Inv.all hnodup
  rw [topoSort, hinv.order] at h
  obtain ⟨is, tail, rfl, rfl, htail⟩ := map_eq_append_iff.mp h
  obtain ⟨i, js, rfl, rfl, rfl⟩ := map_eq_cons_iff.mp htail
  apply hinv.sorted is i js rfl
  have hi : i < nodes.length := hinv.lt i (by simp)
  obtain ⟨k, hk, heq⟩ := getElem_of_mem hn
  have hik : i = k := Nodes.nameAt_inj hnodup hi hk (by rw [Nodes.nameAt_eq hk, heq])
  subst hik
  refine mem_filter.mpr ⟨?_, by simpa using hmem⟩
  simpa [Nodes.depsAt, hk, heq] using hd

end Ruos.Service
