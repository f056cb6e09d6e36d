import Ruos.Lib.Reach
import Ruos.Service.Activate

/-! What the topological sort leaves over: the nodes from which a cycle can be reached, as long as only such nodes list a
dependency twice. Then the bookkeeping of `activate_target` between its sort and its end: which units are settled, and
what was known about their dependencies then. -/
namespace Ruos.Service

open Relation Ruos.Lib List Kahn Nodes

namespace Nodes

def Edge (nodes : Nodes) (a b : String) : Prop := b ∈ nodes.names ∧ ∃ deps, (a, deps) ∈ nodes ∧ b ∈ deps

def ReachesCycle (nodes : Nodes) (n : String) : Prop :=
  ∃ m, ReflTransGen nodes.Edge n m ∧ TransGen nodes.Edge m m

def Repeats (nodes : Nodes) (n : String) : Prop :=
  ∃ deps, (n, deps) ∈ nodes ∧ ¬ (deps.filter fun d => d ∈ nodes.names).Nodup

end Nodes

variable {nodes : Nodes}

theorem Nodes.Edge.mem_left {a b : String} (h : nodes.Edge a b) : a ∈ nodes.names := by
  obtain ⟨-, deps, hmem, -⟩ := h
  exact mem_map.mpr ⟨(a, deps), hmem, rfl⟩

section

variable (hnodup : nodes.names.Nodup) {n : String}
include hnodup

theorem topoSort_successorsFirst : SuccessorsFirst nodes.Edge (topoSort nodes).1 := by
  intro before a rest heq b hab
  obtain ⟨hb, deps, hmem, hdep⟩ := hab
  exact topoSort_sorted hnodup heq hmem hdep hb

/-- The counter of a node that is left over is not zero, so one of its dependencies is left over too. -/
theorem exists_edge_of_left (hn : n ∈ (topoSort nodes).2) (hrep : ¬ nodes.Repeats n) :
    ∃ d ∈ (topoSort nodes).2, nodes.Edge n d := by
  obtain ⟨emitted, hinv, hnext⟩ := Kahn.Inv.all hnodup
  obtain ⟨j, hj, rfl⟩ := mem_map.mp hn
  obtain ⟨hrange, hopen⟩ := mem_filter.mp hj
  have hlt : j < nodes.length := mem_range.mp hrange
  have hopen : (loop nodes nodes.length (start nodes)).done j = false := by simpa using hopen
  have hpos : (loop nodes nodes.length (start nodes)).indeg j ≠ 0 := by
    have hnone := find?_eq_none.mp hnext j hrange
    simpa [hopen] using hnone
  have hat : nodes.depsAt j = (nodes[j]).2 := by simp [depsAt, hlt]
  have hnode : (nodes.nameAt j, (nodes[j]).2) ∈ nodes := by
    rw [nameAt_eq hlt]
    exact getElem_mem hlt
  -- If all dependencies among the nodes had been emitted, they would all have been counted.
  obtain ⟨d, hd, hnew⟩ : ∃ d ∈ inner nodes j, d ∉ emitted.map nodes.nameAt := by
    by_contra hall
    push Not at hall
    have hsingle : (inner nodes j).Nodup := by
      by_contra hdup
      exact hrep ⟨_, hnode, hat ▸ hdup⟩
    have hsub : (inner nodes j).Subperm ((met nodes emitted j).map nodes.nameAt) := by
      refine hsingle.subperm fun d hd => ?_
      obtain ⟨k, hk, rfl⟩ := mem_map.mp (hall d hd)
      exact mem_map.mpr ⟨k, mem_filter.mpr ⟨hk, by simpa using (mem_filter.mp hd).1⟩, rfl⟩
    have hle := hsub.length_le
    rw [length_map] at hle
    have hcount := hinv.indeg j hopen
    omega
  obtain ⟨hdep, hname⟩ := mem_filter.mp hd
  have hname : d ∈ nodes.names := by simpa using hname
  refine ⟨d, ?_, hname, (nodes[j]).2, hnode, hat ▸ hdep⟩
  have hmem := (topoSort_perm hnodup).mem_iff.mpr hname
  rcases mem_append.mp hmem with hleft | horder
  · exact hleft
  · rw [topoSort, hinv.order] at horder
    exact absurd horder hnew

theorem mem_left_of_repeats (h : nodes.Repeats n) : n ∈ (topoSort nodes).2 := by
  obtain ⟨deps, hmem, hdup⟩ := h
  obtain ⟨emitted, hinv, -⟩ := Kahn.Inv.all hnodup
  have hname : n ∈ nodes.names := mem_map.mpr ⟨(n, deps), hmem, rfl⟩
  rcases mem_append.mp ((topoSort_perm hnodup).mem_iff.mpr hname) with hleft | horder
  · exact hleft
  · rw [topoSort, hinv.order] at horder
    obtain ⟨i, hi, heq⟩ := mem_map.mp horder
    obtain ⟨k, hk, hnode⟩ := getElem_of_mem hmem
    have hik : i = k := nameAt_inj hnodup (hinv.lt i hi) hk (by rw [heq, nameAt_eq hk, hnode])
    have hdeps : nodes.depsAt i = deps := by simp [depsAt, hik, hk, hnode]
    exact absurd (hdeps ▸ hinv.single i hi) hdup

theorem mem_left_of_reachesCycle (h : nodes.ReachesCycle n) : n ∈ (topoSort nodes).2 := by
  obtain ⟨m, hnm, hcycle⟩ := h
  have hperm := topoSort_perm hnodup
  have hfirst := topoSort_successorsFirst hnodup
  have horder : (topoSort nodes).1.Nodup := (nodup_append.mp (hperm.nodup_iff.mpr hnodup)).2.1
  have hname : n ∈ nodes.names := by
    rcases hnm.cases_head with rfl | ⟨c, hedge, -⟩
    · obtain ⟨c, hedge, -⟩ := TransGen.head'_iff.mp hcycle
      exact hedge.mem_left
    · exact hedge.mem_left
  rcases mem_append.mp (hperm.mem_iff.mpr hname) with hleft | hin
  · exact hleft
  · exact absurd hcycle (hfirst.acyclic horder (hfirst.mem hnm hin))

open Classical in
theorem mem_left_iff (hrep : ∀ n, nodes.Repeats n → nodes.ReachesCycle n) :
    n ∈ (topoSort nodes).2 ↔ nodes.ReachesCycle n := by
  refine ⟨fun hn => ?_, mem_left_of_reachesCycle hnodup⟩
  by_contra hnot
  -- Each node that is left over and reaches no cycle depends on another one.
  have hsucc : ∀ a ∈ (topoSort nodes).2.filter fun a => ¬ nodes.ReachesCycle a,
      ∃ b ∈ (topoSort nodes).2.filter fun a => ¬ nodes.ReachesCycle a, nodes.Edge a b := by
    intro a ha
    obtain ⟨hleft, hfree⟩ := mem_filter.mp ha
    have hfree := of_decide_eq_true hfree
    obtain ⟨d, hd, hedge⟩ := exists_edge_of_left hnodup hleft fun hr => hfree (hrep a hr)
    refine ⟨d, mem_filter.mpr ⟨hd, decide_eq_true ?_⟩, hedge⟩
    rintro ⟨m, hdm, hcycle⟩
    exact hfree ⟨m, hdm.head hedge, hcycle⟩
  exact hnot (reaches_cycle hsucc (mem_filter.mpr ⟨hn, decide_eq_true hnot⟩))

end

/-- The two results are a partition of the nodes, an ordered node comes after its dependencies, and the others are those
from which a cycle can be reached. -/
structure SortsOut (nodes : Nodes) : Prop where
  partition : ((topoSort nodes).2 ++ (topoSort nodes).1).Perm nodes.names
  sorted : SuccessorsFirst nodes.Edge (topoSort nodes).1
  cyclic : ∀ n, n ∈ (topoSort nodes).2 ↔ nodes.ReachesCycle n

/-- The sort does what it is for exactly if no node without a cycle behind it lists a dependency twice. -/
theorem topoSort_sortsOut_iff (hnodup : nodes.names.Nodup) :
    SortsOut nodes ↔ ∀ n, nodes.Repeats n → nodes.ReachesCycle n := by
  constructor
  · intro h n hrep
    exact (h.cyclic n).mp (mem_left_of_repeats hnodup hrep)
  · intro hrep
    exact ⟨topoSort_perm hnodup, topoSort_successorsFirst hnodup, fun n => mem_left_iff hnodup hrep⟩

theorem two_nodes_sorted_out :
    Nodes.names [("a", []), ("b", ["a"])] = ["a", "b"] ∧ SortsOut [("a", []), ("b", ["a"])] := by
  refine ⟨rfl, (topoSort_sortsOut_iff (by decide)).mpr ?_⟩
  rintro n ⟨deps, hmem, hdup⟩
  simp only [mem_cons, Prod.mk.injEq, not_mem_nil, or_false] at hmem
  rcases hmem with ⟨rfl, rfl⟩ | ⟨rfl, rfl⟩ <;> exact absurd (by decide) hdup

/-- A dependency that is listed twice is counted twice and met once. -/
theorem repeated_dependency_left_over : Nodes.names [("a", []), ("b", ["a", "a"])] = ["a", "b"] ∧
      topoSort [("a", []), ("b", ["a", "a"])] = (["a"], ["b"]) ∧ ¬ SortsOut [("a", []), ("b", ["a", "a"])] := by
  have hrun : topoSort [("a", []), ("b", ["a", "a"])] = (["a"], ["b"]) := by decide
  refine ⟨rfl, hrun, fun h => ?_⟩
  obtain ⟨m, -, hcycle⟩ := (h.cyclic "b").mp (hrun ▸ mem_singleton_self "b")
  have hedge : ∀ n d, Nodes.Edge [("a", []), ("b", ["a", "a"])] n d → n = "b" ∧ d = "a" := by
    rintro n d ⟨-, deps, hmem, hdep⟩
    simp only [mem_cons, Prod.mk.injEq, not_mem_nil, or_false] at hmem
    rcases hmem with ⟨rfl, rfl⟩ | ⟨rfl, rfl⟩
    · cases hdep
    · exact ⟨rfl, by simpa using hdep⟩
  obtain ⟨x, hfirst, -⟩ := Relation.TransGen.head'_iff.mp hcycle
  obtain ⟨y, -, hlast⟩ := Relation.TransGen.tail'_iff.mp hcycle
  exact absurd ((hedge m x hfirst).1.symm.trans (hedge y m hlast).2) (by decide)

namespace Units

variable {us : Units} {t : ActivateTarget}

def depsOf (us : Units) (n : String) : List String := ((us.lookup n).map deps).getD []

def DependsOn (us : Units) (t : ActivateTarget) (a b : String) : Prop :=
  us.Active t a ∧ us.Active t b ∧ b ∈ us.depsOf a

def OnCycle (us : Units) (t : ActivateTarget) (n : String) : Prop := TransGen (us.DependsOn t) n n

def Blocked (us : Units) (t : ActivateTarget) (n : String) : Prop :=
  ∃ m, ReflTransGen (us.DependsOn t) n m ∧ us.OnCycle t m

theorem nodup_deps {u : UnitEntry} (h : u.after.Nodup) : (deps u).Nodup := by
  have hfold : ∀ reqs acc : List String, acc.Nodup →
      (reqs.foldl (fun deps q => if deps.contains q then deps else deps ++ [q]) acc).Nodup := by
    intro reqs
    induction reqs with
    | nil => exact fun acc hacc => hacc
    | cons r reqs ih =>
      intro acc hacc
      rw [foldl_cons]
      apply ih
      split
      · exact hacc
      · rename_i hnew
        have hnew : r ∉ acc := by simpa using hnew
        refine nodup_append.mpr ⟨hacc, by simp, ?_⟩
        rintro a ha b hb rfl
        exact hnew (mem_singleton.mp hb ▸ ha)
  exact hfold u.requires u.after h

theorem mem_activationNodes {n : String} {ds : List String} :
    (n, ds) ∈ us.activationNodes t ↔ n ∈ us.activationSet t ∧ ds = us.depsOf n := by
  unfold activationNodes
  rw [mem_map]
  constructor
  · rintro ⟨m, hm, heq⟩
    obtain ⟨rfl, rfl⟩ := Prod.mk.inj heq
    exact ⟨hm, rfl⟩
  · rintro ⟨hn, rfl⟩
    exact ⟨n, hn, rfl⟩

theorem nodup_names_activationNodes (h : us.Distinct) : (us.activationNodes t).names.Nodup := by
  rw [names_activationNodes]
  exact activationSet_nodup h

theorem edge_activationNodes (h : us.Distinct) : (us.activationNodes t).Edge = us.DependsOn t := by
  funext a b
  apply propext
  unfold Nodes.Edge DependsOn
  rw [names_activationNodes, mem_activationSet h]
  constructor
  · rintro ⟨hb, ds, hmem, hdep⟩
    obtain ⟨ha, rfl⟩ := mem_activationNodes.mp hmem
    exact ⟨(mem_activationSet h).mp ha, hb, hdep⟩
  · rintro ⟨ha, hb, hdep⟩
    exact ⟨hb, us.depsOf a, mem_activationNodes.mpr ⟨(mem_activationSet h).mpr ha, rfl⟩, hdep⟩

/-- The units that the sort leaves over, which are marked failed first. -/
def leftOver (us : Units) (t : ActivateTarget) : List String := (topoSort (us.activationNodes t)).2

def sorted (us : Units) (t : ActivateTarget) : List String := (topoSort (us.activationNodes t)).1

theorem mem_leftOver_iff (h : us.Distinct) (hafter : ∀ u ∈ us, us.Active t u.name → u.after.Nodup) {n : String} :
    n ∈ us.leftOver t ↔ us.Blocked t n := by
  have hnodup : (us.activationNodes t).names.Nodup := nodup_names_activationNodes h
  have hrep : ∀ n, ¬ (us.activationNodes t).Repeats n := by
    rintro n ⟨ds, hx, hdup⟩
    obtain ⟨hn, rfl⟩ := mem_activationNodes.mp hx
    have hactive := (mem_activationSet h).mp hn
    obtain ⟨u, hu⟩ := Option.isSome_iff_exists.mp hactive.registered
    obtain ⟨hmem, rfl⟩ := lookup_eq_some hu
    have hds : us.depsOf u.name = deps u := by simp [depsOf, hu]
    exact hdup ((hds ▸ nodup_deps (hafter u hmem hactive)).filter _)
  unfold leftOver Blocked OnCycle
  rw [mem_left_iff hnodup fun n hn => absurd hn (hrep n), Nodes.ReachesCycle, edge_activationNodes h]

theorem nodup_leftOver_append (h : us.Distinct) : (us.leftOver t ++ us.sorted t).Nodup :=
  (topoSort_perm (nodup_names_activationNodes h)).nodup_iff.mpr (nodup_names_activationNodes h)

theorem mem_leftOver_append (h : us.Distinct) {n : String} : n ∈ us.leftOver t ++ us.sorted t ↔ us.Active t n := by
  rw [← mem_activationSet h, ← names_activationNodes]
  exact (topoSort_perm (nodup_names_activationNodes h)).mem_iff

theorem successorsFirst_sorted (h : us.Distinct) : SuccessorsFirst (us.DependsOn t) (us.sorted t) := by
  rw [← edge_activationNodes h]
  exact topoSort_successorsFirst (nodup_names_activationNodes h)
end Units

open Lib ActivatePhase Service.Units

variable {n : String}

theorem Units.depsFor_activationNodes {us : Units} {t : ActivateTarget} (hn : n ∈ us.activationSet t) :
    (us.activationNodes t).depsFor n = us.depsOf n := by
  unfold Nodes.depsFor
  cases hfind : (us.activationNodes t).find? fun x => x.1 = n with
  | none =>
    have hall := find?_eq_none.mp hfind (n, us.depsOf n) (mem_activationNodes.mpr ⟨hn, rfl⟩)
    simp at hall
  | some x =>
    have hname : x.1 = n := by simpa using find?_some hfind
    obtain ⟨-, hdeps⟩ := mem_activationNodes.mp (mem_of_find?_eq_some hfind)
    rw [hname] at hdeps
    exact hdeps

theorem Units.map_config_markFailed (us : Units) (name reason : String) :
    (us.markFailed name reason).map UnitEntry.toUnitConfig = us.map UnitEntry.toUnitConfig := by
  unfold markFailed
  induction us with
  | nil => rfl
  | cons u us ih =>
    rw [modify]
    split
    · rfl
    · rw [map_cons, map_cons, ih]

namespace ActivatePhase

/-- The units that have been taken off a list and have no outcome yet. -/
def unsettled : ActivatePhase → List String
  | .begin | .units | .done => []
  | .cycles rest => rest
  | .deps name _ | .polling name .. | .sleeping name .. | .checking name .. | .failing name | .ready name
  | .starting name | .queueing name => [name]

/-- The unit that may still be started, with the dependencies that have not been considered. -/
def pending : ActivatePhase → Option (String × List String)
  | .begin | .cycles _ | .units | .failing _ | .done => none
  | .deps name rest => some (name, rest)
  | .polling name d rest _ | .sleeping name d rest .. | .checking name d rest => some (name, d :: rest)
  | .ready name | .starting name | .queueing name => some (name, [])

/-- The units of the order are gone through, and the one at hand has not failed. -/
def inOrder : ActivatePhase → Bool
  | .begin | .cycles _ | .failing _ | .done => false
  | .units | .deps .. | .polling .. | .sleeping .. | .checking .. | .ready _ | .starting _ | .queueing _ => true

theorem ne_begin {phase : ActivatePhase} (h : phase.inOrder = true) : phase ≠ .begin := by
  rintro rfl
  cases h

end ActivatePhase

namespace Activation

variable {us : Units} {t : ActivateTarget}

/-- The registered dependencies of `n` have been considered and not found failed, apart from `rest`. -/
def Checked (us : Units) (considered : List (String × String × Bool)) (n : String) (rest : List String) : Prop :=
  ∀ d ∈ us.depsOf n, (us.lookup d).isSome → d ∈ rest ∨ (n, d, false) ∈ considered

structure Running (us : Units) (t : ActivateTarget) (order : List String) (phase : ActivatePhase)
    (queue : List String) (outcomes : List (String × Outcome)) (considered : List (String × String × Bool)) :
    Prop where
  plan : outcomes.map Prod.fst ++ (phase.unsettled ++ order) = us.leftOver t ++ us.sorted t
  blocked : ∀ n ∈ us.leftOver t, us.OnCycle t n ∨ ∃ d ∈ us.requiresOf n, us.Blocked t d
  cycles : ∀ rest, phase = .cycles rest → ∀ n ∈ rest, n ∈ us.leftOver t
  marked : ∀ n ∈ us.leftOver t, (n, .failed) ∈ outcomes ∨ ∃ rest, phase = .cycles rest ∧ n ∈ rest
  queue : queue = (outcomes.filter fun x => x.2 = .queued).map Prod.fst
  found : ∀ n d, (n, d, true) ∈ considered →
    d ∈ us.requiresOf n ∧ ((n, .failed) ∈ outcomes ∨ phase = .failing n)
  failing : ∀ n, phase = .failing n → ∃ d, (n, d, true) ∈ considered
  failed : ∀ n, (n, .failed) ∈ outcomes → n ∈ us.leftOver t ∨ ∃ d, (n, d, true) ∈ considered
  pending : ∀ n rest, phase.pending = some (n, rest) → Checked us considered n rest
  started : ∀ n, (n, .queued) ∈ outcomes → Checked us considered n []
  accepted : ∀ x ∈ outcomes, x.2 ≠ .refused
  done : phase = .done → order = []

variable {order order' queue : List String} {phase phase' : ActivatePhase} {outcomes : List (String × Outcome)}
  {considered : List (String × String × Bool)}

section

variable (h : Running us t order phase queue outcomes considered)
  (hopen : phase'.unsettled ++ order' = phase.unsettled ++ order)
include h hopen

theorem Running.move (hcycles : ∀ rest, phase = .cycles rest → rest = [])
    (hcycles' : ∀ rest, phase' ≠ .cycles rest)
    (hfailing : ∀ n, phase ≠ .failing n) (hfailing' : ∀ n, phase' ≠ .failing n)
    (hpending : ∀ n rest, phase'.pending = some (n, rest) → Checked us considered n rest)
    (hdone : phase' = .done → order' = []) : Running us t order' phase' queue outcomes considered where
  plan := by rw [hopen, h.plan]
  __ := h
  cycles := fun rest hphase => absurd hphase (hcycles' rest)
  marked := by
    intro n hn
    rcases h.marked n hn with hfailed | ⟨rest, hphase, hrest⟩
    · exact .inl hfailed
    · rw [hcycles rest hphase] at hrest
      cases hrest
  found := by
    intro n d hc
    obtain ⟨hreq, hfailed | hphase⟩ := h.found n d hc
    · exact ⟨hreq, .inl hfailed⟩
    · exact absurd hphase (hfailing n)
  failing := fun n hn => absurd hn (hfailing' n)
  pending := hpending
  done := hdone

theorem Running.move_inOrder (hp : phase.inOrder = true)
    (hp' : phase'.inOrder = true)
    (hpending : ∀ n rest, phase'.pending = some (n, rest) → Checked us considered n rest) :
    Running us t order' phase' queue outcomes considered := by
  apply h.move hopen _ _ _ _ hpending
  · rintro rfl
    cases hp'
  · rintro rest rfl
    cases hp
  · rintro rest rfl
    cases hp'
  · rintro n rfl
    cases hp
  · rintro n rfl
    cases hp'

end

inductive Settles (n : String) : Outcome → ActivatePhase → ActivatePhase → Prop
  | cycle (rest : List String) : Settles n .failed (.cycles (n :: rest)) (.cycles rest)
  | failing : Settles n .failed (.failing n) .units
  | ready : Settles n .up (.ready n) .units
  | starting : Settles n .active (.starting n) .units
  | queueing : Settles n .queued (.queueing n) .units

variable {o : Outcome}

theorem Running.settle (h : Running us t order phase queue outcomes considered) (hset : Settles n o phase phase') :
    Running us t order phase' (if o = .queued then queue ++ [n] else queue) (outcomes ++ [(n, o)]) considered where
  plan := by
    rw [← h.plan]
    cases hset <;> simp [unsettled]
  blocked := h.blocked
  cycles := by
    intro rest hphase
    cases hset with
    | cycle rest' =>
      obtain rfl := cycles.inj hphase
      exact fun m hm => h.cycles _ rfl m (mem_cons_of_mem n hm)
    | failing | ready | starting | queueing => cases hphase
  marked := by
    intro m hm
    rcases h.marked m hm with hmem | ⟨rest, rfl, hmem⟩
    · exact .inl (mem_append_left _ hmem)
    · cases hset with
      | cycle rest' =>
        rcases mem_cons.mp hmem with rfl | hmem
        · exact .inl (by simp)
        · exact .inr ⟨rest', rfl, hmem⟩
  queue := by
    rw [h.queue]
    cases hset <;> simp
  found := by
    intro m d hc
    obtain ⟨hreq, hmem | rfl⟩ := h.found m d hc
    · exact ⟨hreq, .inl (mem_append_left _ hmem)⟩
    · cases hset
      exact ⟨hreq, .inl (by simp)⟩
  failing := fun m hm => by cases hset <;> cases hm
  failed := by
    intro m hm
    rcases mem_append.mp hm with hm | hm
    · exact h.failed m hm
    · obtain ⟨rfl, rfl⟩ := Prod.mk.inj (mem_singleton.mp hm)
      cases hset with
      | cycle rest => exact .inl (h.cycles _ rfl m mem_cons_self)
      | failing => exact .inr (h.failing m rfl)
  pending := fun m rest hm => by cases hset <;> cases hm
  started := by
    intro m hm
    rcases mem_append.mp hm with hm | hm
    · exact h.started m hm
    · obtain ⟨rfl, rfl⟩ := Prod.mk.inj (mem_singleton.mp hm)
      cases hset
      exact h.pending m [] rfl
  accepted := by
    intro x hx
    rcases mem_append.mp hx with hx | hx
    · exact h.accepted x hx
    · rw [mem_singleton.mp hx]
      cases hset <;> exact nofun
  done := fun hm => by cases hset <;> cases hm

theorem Running.check {name d : String} {rest : List String} {failed : Bool}
    (h : Running us t order (.checking name d rest) queue outcomes considered)
    (hreq : failed = true → d ∈ us.requiresOf name) :
    Running us t order (if failed then .failing name else .deps name rest) queue outcomes
      (considered ++ [(name, d, failed)]) where
  plan := by
    rw [← h.plan]
    cases failed <;> rfl
  __ := h
  cycles := fun rest hphase => by cases failed <;> cases hphase
  marked := by
    intro m hm
    rcases h.marked m hm with hmem | ⟨rest, hphase, -⟩
    · exact .inl hmem
    · cases hphase
  found := by
    intro m e hc
    rcases mem_append.mp hc with hc | hc
    · obtain ⟨hreq, hmem | hphase⟩ := h.found m e hc
      · exact ⟨hreq, .inl hmem⟩
      · cases hphase
    · obtain ⟨rfl, rfl, rfl⟩ : m = name ∧ e = d ∧ true = failed := by simpa using hc
      exact ⟨hreq rfl, .inr rfl⟩
  failing := by
    intro m hphase
    cases failed with
    | false => cases hphase
    | true =>
      obtain rfl := ActivatePhase.failing.inj hphase
      exact ⟨d, by simp⟩
  failed := by
    intro m hm
    rcases h.failed m hm with hleft | ⟨e, hc⟩
    · exact .inl hleft
    · exact .inr ⟨e, mem_append_left _ hc⟩
  pending := by
    intro m rest' hphase e he hreg
    cases failed with
    | true => cases hphase
    | false =>
      obtain ⟨rfl, rfl⟩ : name = m ∧ rest = rest' := by simpa [ActivatePhase.pending] using hphase
      rcases h.pending name _ rfl e he hreg with hmem | hc
      · rcases mem_cons.mp hmem with rfl | hmem
        · exact .inr (by simp)
        · exact .inl hmem
      · exact .inr (mem_append_left _ hc)
  started := by
    intro m hm e he hreg
    rcases h.started m hm e he hreg with hmem | hc
    · cases hmem
    · exact .inr (mem_append_left _ hc)
  done := fun hphase => by cases failed <;> cases hphase

theorem Running.start (hleft : ∀ n ∈ us.leftOver t, us.OnCycle t n ∨ ∃ d ∈ us.requiresOf n, us.Blocked t d) :
    Running us t (us.sorted t) (.cycles (us.leftOver t)) [] [] [] where
  plan := rfl
  blocked := hleft
  cycles := by
    intro rest hphase n hn
    obtain rfl := cycles.inj hphase
    exact hn
  marked := fun n hn => .inr ⟨_, rfl, hn⟩
  queue := rfl
  found := fun n d hc => by cases hc
  failing := fun n hphase => by cases hphase
  failed := fun n hn => by cases hn
  pending := fun n rest hphase => by cases hphase
  started := fun n hn => by cases hn
  accepted := fun x hx => by cases hx
  done := fun hphase => by cases hphase

section

variable (hd : us.Distinct) (h : Running us t order phase queue outcomes considered)
include hd h

theorem Running.active (hn : n ∈ phase.unsettled ++ order) : us.Active t n := by
  rw [← mem_leftOver_append hd, ← h.plan]
  exact mem_append_right _ hn

theorem Running.active_of_outcome (ho : (n, o) ∈ outcomes) : us.Active t n := by
  rw [← mem_leftOver_append hd, ← h.plan]
  exact mem_append_left _ (mem_map.mpr ⟨(n, o), ho, rfl⟩)

theorem Running.outcome_unique {o o' : Outcome} (ho : (n, o) ∈ outcomes) (ho' : (n, o') ∈ outcomes) : o = o' := by
  have hnodup := nodup_leftOver_append (t := t) hd
  rw [← h.plan] at hnodup
  exact congrArg Prod.snd (inj_on_of_nodup_map (nodup_append.mp hnodup).1 ho ho' rfl)

theorem Running.not_unsettled (ho : (n, o) ∈ outcomes) : n ∉ phase.unsettled := by
  intro hn
  have hnodup := nodup_leftOver_append (t := t) hd
  rw [← h.plan] at hnodup
  exact (nodup_append.mp hnodup).2.2 n (mem_map.mpr ⟨(n, o), ho, rfl⟩) n (mem_append_left _ hn) rfl

theorem Running.ordered {before rest : List (String × Outcome)} {n d : String}
    (heq : outcomes = before ++ (n, .queued) :: rest) (hdep : us.DependsOn t n d) : ∃ o, (d, o) ∈ before := by
  have hmem : (n, .queued) ∈ outcomes := by simp [heq]
  have hnot : n ∉ us.leftOver t := by
    intro hleft
    rcases h.marked n hleft with hfailed | ⟨rest', rfl, hrest⟩
    · cases h.outcome_unique hd hfailed hmem
    · exact h.not_unsettled hd hmem hrest
  have hplan := h.plan
  rw [heq, map_append, append_assoc] at hplan
  have hbefore : d ∈ before.map Prod.fst := by
    rcases append_eq_append_iff.mp hplan with ⟨mid, hleft, hrest⟩ | ⟨mid, hleft, hrest⟩
    · cases mid with
      | nil =>
        exact absurd (successorsFirst_sorted hd [] n _ hrest.symm d hdep) not_mem_nil
      | cons m mid =>
        obtain ⟨rfl, -⟩ := cons.inj hrest
        exact absurd (by simp [hleft]) hnot
    · rw [hleft]
      exact mem_append_right _ (successorsFirst_sorted hd mid n _ hrest d hdep)
  obtain ⟨⟨d', o⟩, ho, rfl⟩ := mem_map.mp hbefore
  exact ⟨o, ho⟩

end

theorem Running.mem_queue (h : Running us t order phase queue outcomes considered) :
    n ∈ queue ↔ (n, .queued) ∈ outcomes := by
  simp [h.queue]

end Activation

end Ruos.Service
