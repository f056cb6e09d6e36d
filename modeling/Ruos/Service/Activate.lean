import Ruos.Lib.Run
import Ruos.Service.Registry
import Ruos.Service.Topo

/-! `activate_target` of `service/mod.rs`: the activation set, which is the closure of the target under `requires`, and
the loop that starts it in dependency order while the units that were started change their status. The loop comes to an
end. -/
namespace Ruos.Service

open Lib

namespace Units

def requiresOf (us : Units) (name : String) : List String := ((us.lookup name).map fun u => u.requires).getD []

/-- The requirements of one unit join the set, unless they are in it or not registered. -/
def addRequires (us : Units) (set : List String) (reqs : List String) : List String :=
  reqs.foldl (fun set q => if !set.contains q && (us.lookup q).isSome then set ++ [q] else set) set

/-- The loop over the growing set, cut off after `fuel` rounds. -/
def closeRequires (us : Units) : Nat → List String → Nat → List String
  | 0, set, _ => set
  | fuel + 1, set, i =>
    match set[i]? with
    | none => set
    | some n => closeRequires us fuel (us.addRequires set (us.requiresOf n)) (i + 1)

/-- Every round looks at the next member, and there are no more members than units. -/
def activationSet (us : Units) (t : ActivateTarget) : List String :=
  us.closeRequires us.length ((us.filter fun u => u.enabled && u.target = t).map fun u => u.name) 0

/-- `after` and `requires` without repeating the latter. -/
def deps (u : UnitEntry) : List String :=
  u.requires.foldl (fun deps q => if deps.contains q then deps else deps ++ [q]) u.after

def activationNodes (us : Units) (t : ActivateTarget) : Nodes :=
  (us.activationSet t).map fun n => (n, ((us.lookup n).map deps).getD [])

end Units

def Nodes.depsFor (nodes : Nodes) (name : String) : List String :=
  ((nodes.find? fun x => x.1 = name).map Prod.snd).getD []

/-- What became of a unit of the activation set: a start was queued, it was up or active already, it was marked failed,
or its start was refused. -/
inductive Outcome
  | queued
  | up
  | active
  | failed
  | refused
deriving DecidableEq

/-- Where `activate_target` is. In the loop over the dependencies `rest` holds those still to come. -/
inductive ActivatePhase
  | begin
  | cycles (rest : List String)
  | units
  | deps (name : String) (rest : List String)
  | polling (name d : String) (rest : List String) (deadline : Nat)
  | sleeping (name d : String) (rest : List String) (deadline wake : Nat)
  | checking (name d : String) (rest : List String)
  | failing (name : String)
  | ready (name : String)
  | starting (name : String)
  | queueing (name : String)
  | done
deriving DecidableEq

/-- `order` holds the units still to come. The last two fields are not in the code: what became of the units so far, and
for every dependency that was considered whether it was failed then. -/
structure Activation where
  target : ActivateTarget
  units : Units
  ticks : Nat
  nodes : Nodes
  order : List String
  phase : ActivatePhase
  queue : List String
  outcomes : List (String × Outcome)
  considered : List (String × String × Bool)

/-- Between the steps of `activate_target` time passes and the units change their status. -/
inductive ActivateEvent
  | advance
  | tick (n : Nat)
  | change (status : String → UnitStatus)

namespace Activation

def start (us : Units) (t : ActivateTarget) (ticks : Nat) : Activation := ⟨t, us, ticks, [], [], .begin, [], [], []⟩

def finish (s : Activation) (name : String) (o : Outcome) : Activation :=
  { s with phase := .units, outcomes := s.outcomes ++ [(name, o)] }

def advance (s : Activation) : Option Activation :=
  match s.phase with
  | .begin =>
    let nodes := s.units.activationNodes s.target
    some { s with nodes := nodes, order := (topoSort nodes).1, phase := .cycles (topoSort nodes).2 }
  | .cycles [] => some { s with phase := .units }
  | .cycles (n :: rest) =>
    some { s with
           units := s.units.markFailed n "cycle"
           phase := .cycles rest
           outcomes := s.outcomes ++ [(n, .failed)] }
  | .units =>
    match s.order with
    | [] => some { s with phase := .done }
    | name :: order => some { s with order := order, phase := .deps name (s.nodes.depsFor name) }
  | .deps name [] => some { s with phase := .ready name }
  | .deps name (d :: rest) =>
    if (s.units.lookup d).isSome then some { s with phase := .polling name d rest (s.ticks + 1000) }
    else some { s with phase := .deps name rest }
  | .polling name d rest deadline =>
    if !s.units.isUp d && !s.units.isFailed d && s.ticks < deadline then
      some { s with phase := .sleeping name d rest deadline (s.ticks + 10) }
    else some { s with phase := .checking name d rest }
  | .sleeping name d rest deadline wake =>
    if wake ≤ s.ticks then some { s with phase := .polling name d rest deadline } else none
  | .checking name d rest =>
    let failed := s.units.isFailed d
    some { s with
           phase := if failed then .failing name else .deps name rest
           considered := s.considered ++ [(name, d, failed)] }
  | .failing name => some ({ s with units := s.units.markFailed name "dep" }.finish name .failed)
  | .ready name => if s.units.isUp name then some (s.finish name .up) else some { s with phase := .starting name }
  | .starting name =>
    match s.units.startCheck name with
    | .error .alreadyRunning => some (s.finish name .active)
    | .error _ => some (s.finish name .refused)
    | .ok _ => some { s with phase := .queueing name }
  | .queueing name => some ({ s with queue := s.queue ++ [name] }.finish name .queued)
  | .done => none

def step (s : Activation) : ActivateEvent → Option Activation
  | .advance => s.advance
  | .tick n => some { s with ticks := s.ticks + n }
  | .change status => some { s with units := s.units.map fun u => { u with status := status u.name } }
end Activation

open UnitEntry List

namespace Units

/-- The units that a target activates: the enabled ones of the target, and what they require. -/
inductive Active (us : Units) (t : ActivateTarget) : String → Prop
  | target {u : UnitEntry} (hu : u ∈ us) (henabled : u.enabled) (ht : u.target = t) : Active us t u.name
  | required {n q : String} (hn : Active us t n) (hq : q ∈ us.requiresOf n) (hreg : (us.lookup q).isSome) :
      Active us t q

variable {us : Units} {t : ActivateTarget}

theorem Active.registered {n : String} (h : Active us t n) : (us.lookup n).isSome := by
  induction h with
  | target hu _ _ =>
    rw [Option.isSome_iff_ne_none]
    intro hnone
    exact lookup_eq_none.mp hnone _ hu rfl
  | required _ _ hreg _ => exact hreg

theorem mem_names_of_isSome {n : String} (h : (us.lookup n).isSome) : n ∈ us.map fun u => u.name := by
  obtain ⟨u, hu⟩ := Option.isSome_iff_exists.mp h
  obtain ⟨hmem, hname⟩ := lookup_eq_some hu
  exact mem_map.mpr ⟨u, hmem, hname⟩

structure Adds (us : Units) (set reqs result : List String) : Prop where
  extends_ : set <+: result
  nodup : set.Nodup → result.Nodup
  new : ∀ q ∈ result, q ∈ set ∨ q ∈ reqs ∧ (us.lookup q).isSome
  all : ∀ q ∈ reqs, (us.lookup q).isSome → q ∈ result

theorem adds (us : Units) (set reqs : List String) : Adds us set reqs (us.addRequires set reqs) := by
  induction reqs generalizing set with
  | nil => exact ⟨prefix_rfl, id, fun q hq => .inl hq, fun q hq => by cases hq⟩
  | cons r reqs ih =>
    rw [addRequires, foldl_cons]
    split
    · rename_i hadd
      obtain ⟨hnew, hreg⟩ : r ∉ set ∧ (us.lookup r).isSome := by simpa using hadd
      have h := ih (set ++ [r])
      refine ⟨(prefix_append set [r]).trans h.extends_, fun hs => h.nodup ?_, ?_, ?_⟩
      · rw [nodup_append]
        refine ⟨hs, by simp, fun a ha b hb heq => hnew ?_⟩
        rw [mem_singleton.mp hb] at heq
        exact heq ▸ ha
      · intro q hq
        rcases h.new q hq with hq | ⟨hq, hqr⟩
        · rcases mem_append.mp hq with hq | hq
          · exact .inl hq
          · rw [mem_singleton.mp hq]
            exact .inr ⟨mem_cons_self, hreg⟩
        · exact .inr ⟨mem_cons_of_mem r hq, hqr⟩
      · intro q hq hqr
        rcases mem_cons.mp hq with rfl | hq
        · exact h.extends_.subset (by simp)
        · exact h.all q hq hqr
    · rename_i hskip
      have h := ih set
      refine { h with new := ?_, all := ?_ }
      · intro q hq
        rcases h.new q hq with hq | ⟨hq, hqr⟩
        · exact .inl hq
        · exact .inr ⟨mem_cons_of_mem r hq, hqr⟩
      · intro q hq hqr
        rcases mem_cons.mp hq with rfl | hq
        · have hin : q ∈ set := by
            by_contra hnot
            exact hskip (by simp [hnot, hqr])
          exact h.extends_.subset hin
        · exact h.all q hq hqr

/-- The set is as it should be, and closed as far as the loop has looked. -/
structure Closing (us : Units) (t : ActivateTarget) (set : List String) (i : Nat) : Prop where
  nodup : set.Nodup
  active : ∀ n ∈ set, Active us t n
  target : ∀ u ∈ us, u.enabled → u.target = t → u.name ∈ set
  closed : ∀ j (hj : j < set.length), j < i → ∀ q ∈ us.requiresOf set[j], (us.lookup q).isSome → q ∈ set

theorem Closing.length_le {set : List String} {i : Nat} (h : Closing us t set i) : set.length ≤ us.length := by
  have hsub : set.Subperm (us.map fun u => u.name) :=
    h.nodup.subperm fun n hn => mem_names_of_isSome (h.active n hn).registered
  simpa using hsub.length_le

theorem Closing.closeRequires (fuel : Nat) {set : List String} {i : Nat} (h : Closing us t set i)
    (hfuel : us.length ≤ i + fuel) : ∃ j, Closing us t (us.closeRequires fuel set i) j ∧
      (us.closeRequires fuel set i).length ≤ j := by
  induction fuel generalizing set i with
  | zero => exact ⟨i, h, h.length_le.trans hfuel⟩
  | succ fuel ih =>
    rw [Units.closeRequires]
    split
    · rename_i hend
      exact ⟨i, h, List.getElem?_eq_none_iff.mp hend⟩
    · rename_i n hn
      obtain ⟨hi, rfl⟩ := List.getElem?_eq_some_iff.mp hn
      have hadds := adds us set (us.requiresOf set[i])
      refine ih ⟨hadds.nodup h.nodup, ?_, ?_, ?_⟩ (by omega)
      · intro q hq
        rcases hadds.new q hq with hq | ⟨hq, hreg⟩
        · exact h.active q hq
        · exact .required (h.active _ (List.getElem_mem hi)) hq hreg
      · exact fun u hu he ht => hadds.extends_.subset (h.target u hu he ht)
      · intro j hj hji q hq hreg
        have hold : j < set.length := by omega
        have hget := hadds.extends_.getElem hold |>.symm
        rw [hget] at hq
        by_cases heq : j = i
        · subst heq
          exact hadds.all q hq hreg
        · exact hadds.extends_.subset (h.closed j hold (by omega) q hq hreg)

theorem closing_start (h : us.Distinct) :
    Closing us t ((us.filter fun u => u.enabled && u.target = t).map fun u => u.name) 0 where
  nodup := (filter_sublist.map _).nodup h
  active := by
    intro n hn
    obtain ⟨u, hu, rfl⟩ := mem_map.mp hn
    obtain ⟨hmem, hsel⟩ := mem_filter.mp hu
    obtain ⟨he, ht⟩ : u.enabled = true ∧ u.target = t := by simpa using hsel
    exact .target hmem he ht
  target := by
    intro u hu he ht
    exact mem_map.mpr ⟨u, mem_filter.mpr ⟨hu, by simp [he, ht]⟩, rfl⟩
  closed := fun j _ hj => absurd hj (Nat.not_lt_zero j)

theorem activationSet_nodup (h : us.Distinct) : (us.activationSet t).Nodup := by
  obtain ⟨j, hc, -⟩ := (closing_start h).closeRequires us.length (by omega)
  exact hc.nodup

theorem mem_activationSet (h : us.Distinct) {n : String} : n ∈ us.activationSet t ↔ Active us t n := by
  obtain ⟨j, hc, hlen⟩ := (closing_start h).closeRequires us.length (by omega)
  refine ⟨hc.active n, fun hn => ?_⟩
  induction hn with
  | target hu he ht => exact hc.target _ hu he ht
  | required _ hq hreg ih =>
    obtain ⟨k, hk, rfl⟩ := getElem_of_mem ih
    exact hc.closed k hk (Nat.lt_of_lt_of_le hk hlen) _ hq hreg

theorem mem_deps {u : UnitEntry} {d : String} : d ∈ deps u ↔ d ∈ u.after ∨ d ∈ u.requires := by
  have hfold : ∀ (reqs acc : List String),
      d ∈ reqs.foldl (fun deps q => if deps.contains q then deps else deps ++ [q]) acc ↔ d ∈ acc ∨ d ∈ reqs := by
    intro reqs
    induction reqs with
    | nil => simp
    | cons r reqs ih =>
      intro acc
      rw [foldl_cons, ih]
      split
      · rename_i hin
        have hin : r ∈ acc := by simpa using hin
        constructor
        · rintro (h | h)
          · exact .inl h
          · exact .inr (mem_cons_of_mem r h)
        · rintro (h | h)
          · exact .inl h
          · rcases mem_cons.mp h with rfl | h
            · exact .inl hin
            · exact .inr h
      · simp [or_assoc]
  exact hfold u.requires u.after

theorem names_activationNodes : (us.activationNodes t).names = us.activationSet t := by
  simp [Nodes.names, activationNodes, Function.comp_def]

theorem lookup_congr {us' : Units} (h : us'.map toUnitConfig = us.map toUnitConfig)
    (n : String) : (us'.lookup n).map toUnitConfig = (us.lookup n).map toUnitConfig := by
  have hfind : ∀ vs : Units, (vs.lookup n).map toUnitConfig =
      (vs.map toUnitConfig).find? fun c => c.name = n := by
    intro vs
    rw [find?_map]
    rfl
  rw [hfind, hfind, h]

section

variable {us' : Units} (h : us'.map UnitEntry.toUnitConfig = us.map UnitEntry.toUnitConfig)

include h

theorem isSome_lookup_congr (n : String) : (us'.lookup n).isSome = (us.lookup n).isSome := by
  rw [← Option.isSome_map, lookup_congr h n, Option.isSome_map]

theorem requiresOf_congr (n : String) : us'.requiresOf n = us.requiresOf n := by
  have hmap : ∀ vs : Units, vs.requiresOf n =
      (((vs.lookup n).map toUnitConfig).map fun c => c.requires).getD [] := by
    intro vs
    rw [Option.map_map]
    rfl
  rw [hmap, hmap, lookup_congr h n]

theorem addRequires_congr (set reqs : List String) : us'.addRequires set reqs = us.addRequires set reqs := by
  simp only [addRequires, isSome_lookup_congr h]

theorem closeRequires_congr (fuel : Nat) (set : List String) (i : Nat) :
    us'.closeRequires fuel set i = us.closeRequires fuel set i := by
  induction fuel generalizing set i with
  | zero => rfl
  | succ fuel ih => simp only [closeRequires, requiresOf_congr h, addRequires_congr h, ih]

theorem activationSet_congr : us'.activationSet t = us.activationSet t := by
  have hlen : us'.length = us.length := by simpa using congrArg length h
  have hsel : ∀ vs : Units, ((vs.filter fun u => u.enabled && u.target = t).map fun u => u.name) =
      ((vs.map toUnitConfig).filter fun c => c.enabled && c.target = t).map fun c => c.name := by
    intro vs
    rw [filter_map, map_map]
    rfl
  rw [activationSet, activationSet, hsel, hsel, h, hlen, closeRequires_congr h]

theorem activationNodes_congr : us'.activationNodes t = us.activationNodes t := by
  have hdeps : ∀ vs : Units, ∀ n, ((vs.lookup n).map deps).getD [] = (((vs.lookup n).map toUnitConfig).map
      fun c => deps c.entry).getD [] := by
    intro vs n
    rw [Option.map_map]
    rfl
  simp only [activationNodes, activationSet_congr h, hdeps, lookup_congr h]
end
end Units

open ActivateEvent Activation

/-- The steps that `activate_target` itself makes. -/
def ActivateEvent.isAdvance : ActivateEvent → Bool
  | .advance => true
  | .tick _ | .change _ => false

namespace Activation

variable {s s' : Activation}

/-- What is left to do for the units that are still to come: a dependency takes at most a thousand ticks. -/
def orderWork (nodes : Nodes) (order : List String) : Nat :=
  (order.map fun n => 2010 * (nodes.depsFor n).length + 5).sum + 1

def phaseWork (ticks : Nat) : ActivatePhase → Nat
  | .begin | .units | .done => 0
  | .cycles rest => rest.length + 1
  | .deps _ rest => 2010 * rest.length + 4
  | .polling _ _ rest deadline => 2010 * rest.length + 2 * (deadline - ticks) + 7
  | .sleeping _ _ rest deadline wake => 2010 * rest.length + 2 * (deadline - wake) + 8
  | .checking _ _ rest => 2010 * rest.length + 6
  | .ready _ => 3
  | .starting _ => 2
  | .queueing _ | .failing _ => 1

def work (s : Activation) : Nat :=
  match s.phase with
  | .begin =>
    let nodes := s.units.activationNodes s.target
    (topoSort nodes).2.length + 2 + orderWork nodes (topoSort nodes).1
  | .done => 0
  | phase => phaseWork s.ticks phase + orderWork s.nodes s.order

theorem orderWork_cons (nodes : Nodes) (n : String) (order : List String) :
    orderWork nodes (n :: order) = 2010 * (nodes.depsFor n).length + 5 + orderWork nodes order := by
  simp only [orderWork, map_cons, sum_cons]
  omega

theorem advance_work (hs : s.advance = some s') : 1 + s'.work ≤ s.work := by
  obtain ⟨target, units, ticks, nodes, order, phase, queue, outcomes, considered⟩ := s
  cases phase with
  | begin | failing name | queueing name =>
    cases hs
    simp only [work, phaseWork, finish]
    omega
  | cycles rest =>
    cases rest with
    | nil | cons n rest =>
      cases hs
      simp only [work, phaseWork, length_cons, length_nil]
      omega
  | units =>
    cases order with
    | nil =>
      cases hs
      simp [work, phaseWork, orderWork]
    | cons name order =>
      cases hs
      simp only [work, phaseWork, orderWork_cons]
      omega
  | deps name rest =>
    cases rest with
    | nil =>
      cases hs
      simp only [work, phaseWork, length_nil]
      omega
    | cons d rest =>
      simp only [advance] at hs
      split at hs <;>
      · cases hs
        simp only [work, phaseWork, length_cons]
        omega
  | polling name d rest deadline =>
    simp only [advance] at hs
    split at hs
    · rename_i hwait
      cases hs
      have hlt : ticks < deadline := by simp at hwait; exact hwait.2
      simp only [work, phaseWork]
      omega
    · cases hs
      simp only [work, phaseWork]
      omega
  | sleeping name d rest deadline wake =>
    simp only [advance] at hs
    split at hs <;> cases hs
    simp only [work, phaseWork]
    omega
  | checking name d rest =>
    cases hs
    cases hfail : units.isFailed d with
    | false | true =>
      simp only [work, phaseWork, if_true, if_false, Bool.false_eq_true]
      omega
  | ready | starting =>
    simp only [advance] at hs
    split at hs <;>
    · cases hs
      simp only [work, phaseWork, finish]
      omega
  | done => cases hs

theorem step_work {e : ActivateEvent} (hs : s.step e = some s') : (if e.isAdvance then 1 else 0) + s'.work ≤ s.work := by
  cases e with
  | advance => exact advance_work hs
  | tick n =>
    cases hs
    obtain ⟨target, units, ticks, nodes, order, phase, queue, outcomes, considered⟩ := s
    cases phase with
    | polling name d rest deadline =>
      simp only [work, phaseWork, isAdvance]
      simp
      omega
    | _ => simp [work, phaseWork, isAdvance]
  | change status =>
    cases hs
    have hnodes : Units.activationNodes (s.units.map fun u => { u with status := status u.name }) s.target =
        s.units.activationNodes s.target := by
      apply Units.activationNodes_congr
      rw [map_map]
      rfl
    simp only [work, hnodes, isAdvance]
    simp

theorem advances_le {t : Activation} {es : List ActivateEvent} (h : exec step s es = some t) :
    es.countP ActivateEvent.isAdvance ≤ s.work := by
  have hle := exec_countP_le (p := isAdvance) (fun _ _ _ hs => step_work hs) h
  omega

theorem exists_advance (s : Activation) : s.phase = .done ∨ ∃ n, (exec step s [.tick n, .advance]).isSome := by
  obtain ⟨target, units, ticks, nodes, order, phase, queue, outcomes, considered⟩ := s
  cases phase with
  | done => exact .inl rfl
  | sleeping name d rest deadline wake =>
    refine .inr ⟨wake - ticks, ?_⟩
    have hle : wake ≤ ticks + (wake - ticks) := by omega
    simp [exec, step, advance, hle]
  | cycles rest => exact .inr ⟨0, by cases rest <;> rfl⟩
  | units => exact .inr ⟨0, by cases order <;> rfl⟩
  | deps name rest =>
    refine .inr ⟨0, ?_⟩
    cases rest with
    | nil => rfl
    | cons d rest =>
      simp only [exec, step, advance, Option.bind_some]
      split <;> rfl
  | begin | polling | checking | failing | ready | starting | queueing =>
    refine .inr ⟨0, ?_⟩
    simp only [exec, step, advance, Option.bind_some]
    first
      | rfl
      | split <;> rfl

end Activation

end Ruos.Service
