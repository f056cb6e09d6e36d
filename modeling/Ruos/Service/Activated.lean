import Ruos.Service.ActivateRuns

/-! What `activate_target` guarantees about the units of its set, whatever becomes of the units it starts. -/
namespace Ruos.Service

open Lib ActivatePhase Service.Units Activation List UnitEntry

namespace Activation

variable {us : Units} {t : ActivateTarget}

/-- A unit with a requirement found failed is marked failed and not started; a unit is marked failed only if it is on a
cycle, or has a requirement that is failed or cannot be started; a start is queued only when every dependency in the
set is started, up or failed; and in the end every unit of the set is. -/
structure Activated (us : Units) (t : ActivateTarget) (s : Activation) : Prop where
  queue : s.queue = (s.outcomes.filter fun x => x.2 = .queued).map Prod.fst
  requires : ∀ n d, d ∈ us.requiresOf n → (n, d, true) ∈ s.considered →
    n ∉ s.queue ∧ ((n, .failed) ∈ s.outcomes ∨ s.phase = .failing n)
  checked : ∀ n ∈ s.queue, ∀ d ∈ us.requiresOf n, (us.lookup d).isSome → (n, d, false) ∈ s.considered
  after : ∀ n, (n, .failed) ∈ s.outcomes → us.OnCycle t n ∨
    ∃ d ∈ us.requiresOf n, (n, d, true) ∈ s.considered ∨ us.Blocked t d
  ordered : ∀ before n rest, s.outcomes = before ++ (n, .queued) :: rest → ∀ d ∈ us.depsOf n, us.Active t d →
    ∃ o, (d, o) ∈ before ∧ o ≠ .refused
  complete : s.phase = .done → ∀ n, us.Active t n → ∃ o, (n, o) ∈ s.outcomes ∧ o ≠ .refused

/-- No `after` list repeats a name, and a unit from which a cycle can be reached is on one or requires such a unit. -/
structure OrderlyUnits (us : Units) (t : ActivateTarget) : Prop where
  nodup : ∀ u ∈ us, us.Active t u.name → u.after.Nodup
  blocked : ∀ n, us.Blocked t n → us.OnCycle t n ∨ ∃ d ∈ us.requiresOf n, us.Blocked t d

def OrderlyAt (us units : Units) : ActivatePhase → Prop
  | .checking name d _ => d ∉ us.requiresOf name → units.isFailed d = false
  | .starting name => ∀ u ∈ units, u.name = name → u.path = builtinPath → u.active
  | _ => True

/-- A dependency that is only listed in `after` is not failed when it is considered, and a built-in unit is active when
its turn comes. -/
def Orderly (us : Units) (s : Activation) : ActivateEvent → Prop
  | .advance => OrderlyAt us s.units s.phase
  | .tick _ | .change _ => True

instance (us units : Units) (phase : ActivatePhase) : Decidable (OrderlyAt us units phase) :=
  match phase with
  | .checking name d _ => inferInstanceAs (Decidable (d ∉ us.requiresOf name → units.isFailed d = false))
  | .starting name => inferInstanceAs (Decidable (∀ u ∈ units, u.name = name → u.path = builtinPath → u.active))
  | .begin | .cycles _ | .units | .deps .. | .polling .. | .sleeping .. | .failing _ | .ready _ | .queueing _
  | .done => isTrue trivial

instance (us : Units) (s : Activation) (e : ActivateEvent) : Decidable (Orderly us s e) :=
  match e with
  | .advance => inferInstanceAs (Decidable (OrderlyAt us s.units s.phase))
  | .tick _ | .change _ => isTrue trivial

structure Inv (us : Units) (t : ActivateTarget) (s : Activation) : Prop where
  target : s.target = t
  config : s.units.map UnitEntry.toUnitConfig = us.map UnitEntry.toUnitConfig
  progress : (s.phase = .begin ∧ s.queue = [] ∧ s.outcomes = [] ∧ s.considered = []) ∨
    (s.phase ≠ .begin ∧ s.nodes = us.activationNodes t ∧
      Running us t s.order s.phase s.queue s.outcomes s.considered)

theorem Inv.start (us : Units) (t : ActivateTarget) (ticks : Nat) : Inv us t (start us t ticks) :=
  ⟨rfl, rfl, .inl ⟨rfl, rfl, rfl, rfl⟩⟩

variable {s s' : Activation}

theorem Inv.running (h : Inv us t s) (hphase : s.phase ≠ .begin) : s.nodes = us.activationNodes t ∧
    Running us t s.order s.phase s.queue s.outcomes s.considered :=
  (h.progress.resolve_left fun hbegin => hphase hbegin.1).2

theorem startCheck_refused {us : Units} {n : String} {e : ServiceError} (h : us.startCheck n = .error e)
    (he : e ≠ .alreadyRunning) : us.lookup n = none ∨ ∃ u ∈ us, u.name = n ∧ u.path = builtinPath ∧ ¬u.active := by
  unfold startCheck at h
  split at h
  · rename_i hnone
    exact .inl hnone
  · rename_i u hu
    obtain ⟨hmem, hname⟩ := lookup_eq_some hu
    split at h
    · cases h
      exact absurd rfl he
    · rename_i hactive
      split at h
      · rename_i hpath
        exact .inr ⟨u, hmem, hname, hpath, hactive⟩
      · cases h

theorem Inv.advance (hd : us.Distinct) (hunits : OrderlyUnits us t) (h : Inv us t s) (hg : Orderly us s .advance)
    (hs : s.advance = some s') : Inv us t s' := by
  obtain ⟨target, units, ticks, nodes, order, phase, queue, outcomes, considered⟩ := s
  obtain rfl : target = t := h.target
  have hconfig : units.map toUnitConfig = us.map toUnitConfig := h.config
  by_cases hbegin : phase = .begin
  · subst hbegin
    cases hs
    obtain ⟨-, rfl, rfl, rfl⟩ : _ ∧ queue = [] ∧ outcomes = [] ∧ considered = [] :=
      h.progress.resolve_right fun hrun => hrun.1 rfl
    have hnodes := activationNodes_congr (t := target) hconfig
    refine ⟨rfl, hconfig, .inr ⟨by simp, hnodes, ?_⟩⟩
    rw [hnodes]
    exact Running.start fun n hn => hunits.blocked n ((mem_leftOver_iff hd hunits.nodup).mp hn)
  obtain ⟨hnodes, hrun⟩ : nodes = us.activationNodes target ∧ Running us target order phase queue outcomes considered :=
    h.running hbegin
  -- A step that changes the phase only, or takes the next unit off the order.
  have hmove : ∀ order' phase', phase.inOrder = true → phase'.inOrder = true →
      phase'.unsettled ++ order' = phase.unsettled ++ order →
      (∀ n rest, phase'.pending = some (n, rest) → Checked us considered n rest) →
      Inv us target ⟨target, units, ticks, nodes, order', phase', queue, outcomes, considered⟩ :=
    fun _ _ hp hp' hopen hpending =>
      ⟨rfl, hconfig, .inr ⟨ne_begin hp', hnodes, hrun.move_inOrder hopen hp hp' hpending⟩⟩
  have hfailed : ∀ n reason, (units.markFailed n reason).map toUnitConfig = us.map toUnitConfig :=
    fun n reason => (map_config_markFailed units n reason).trans hconfig
  cases phase with
  | begin => exact absurd rfl hbegin
  | cycles rest =>
    cases rest with
    | nil =>
      cases hs
      refine ⟨rfl, hconfig, .inr ⟨by simp, hnodes, ?_⟩⟩
      exact hrun.move rfl (fun _ heq => (cycles.inj heq).symm) (by simp) (by simp) (by simp)
        (by simp [pending]) (by simp)
    | cons n rest =>
      cases hs
      exact ⟨rfl, hfailed n _, .inr ⟨by rintro ⟨⟩, hnodes, hrun.settle (.cycle rest)⟩⟩
  | units =>
    cases order with
    | nil =>
      cases hs
      refine ⟨rfl, hconfig, .inr ⟨by simp, hnodes, ?_⟩⟩
      exact hrun.move rfl (by simp) (by simp) (by simp) (by simp) (by simp [pending]) fun _ => rfl
    | cons name order =>
      cases hs
      have hactive : us.Active target name := hrun.active hd (by simp [unsettled])
      refine hmove _ _ rfl rfl rfl ?_
      intro n rest hpending d hdep _
      obtain ⟨rfl, rfl⟩ := Prod.mk.inj (Option.some.inj hpending)
      subst hnodes
      rw [depsFor_activationNodes ((mem_activationSet hd).mpr hactive)]
      exact .inl hdep
  | deps name rest =>
    cases rest with
    | nil =>
      cases hs
      exact hmove _ _ rfl rfl rfl hrun.pending
    | cons d rest =>
      simp only [advance] at hs
      split at hs
      · cases hs
        exact hmove _ _ rfl rfl rfl hrun.pending
      · rename_i hunknown
        cases hs
        refine hmove _ _ rfl rfl rfl ?_
        intro n rest' hpending e hdep hreg
        obtain ⟨rfl, rfl⟩ := Prod.mk.inj (Option.some.inj hpending)
        rcases hrun.pending name _ rfl e hdep hreg with hmem | hc
        · rcases mem_cons.mp hmem with rfl | hmem
          · exact absurd ((isSome_lookup_congr hconfig e).trans hreg) hunknown
          · exact .inl hmem
        · exact .inr hc
  | polling name d rest deadline =>
    simp only [advance] at hs
    split at hs <;> cases hs <;> exact hmove _ _ rfl rfl rfl hrun.pending
  | sleeping name d rest deadline wake =>
    simp only [advance] at hs
    split at hs <;> cases hs
    exact hmove _ _ rfl rfl rfl hrun.pending
  | checking name d rest =>
    cases hs
    refine ⟨rfl, hconfig, .inr ⟨?_, hnodes, hrun.check fun hfail => ?_⟩⟩
    · split <;> simp
    · by_contra hreq
      have hok := hg hreq
      rw [hok] at hfail
      cases hfail
  | failing name =>
    cases hs
    exact ⟨rfl, hfailed name _, .inr ⟨by rintro ⟨⟩, hnodes, hrun.settle .failing⟩⟩
  | ready name =>
    simp only [advance] at hs
    split at hs
    · cases hs
      exact ⟨rfl, hconfig, .inr ⟨by rintro ⟨⟩, hnodes, hrun.settle .ready⟩⟩
    · cases hs
      exact hmove _ _ rfl rfl rfl hrun.pending
  | starting name =>
    simp only [advance] at hs
    split at hs
    · cases hs
      exact ⟨rfl, hconfig, .inr ⟨by rintro ⟨⟩, hnodes, hrun.settle .starting⟩⟩
    · rename_i e hne hcheck
      exfalso
      rcases startCheck_refused hcheck hne with hnone | ⟨u, hu, hname, hpath, hidle⟩
      · have hreg := (hrun.active hd (n := name) (by simp [unsettled])).registered
        rw [← isSome_lookup_congr hconfig, hnone] at hreg
        cases hreg
      · exact hidle (hg u hu hname hpath)
    · cases hs
      exact hmove _ _ rfl rfl rfl hrun.pending
  | queueing name =>
    cases hs
    exact ⟨rfl, hconfig, .inr ⟨by rintro ⟨⟩, hnodes, hrun.settle .queueing⟩⟩
  | done => cases hs

theorem Inv.step (hd : us.Distinct) (hunits : OrderlyUnits us t) {e : ActivateEvent} (h : Inv us t s)
    (hg : Orderly us s e) (hs : s.step e = some s') : Inv us t s' := by
  cases e with
  | advance => exact h.advance hd hunits hg hs
  | tick n =>
    cases hs
    exact { h with }
  | change status =>
    cases hs
    refine { h with config := ?_ }
    rw [← h.config, map_map]
    rfl

theorem mem_depsOf_of_requiresOf {n d : String} (h : d ∈ us.requiresOf n) : d ∈ us.depsOf n := by
  unfold requiresOf at h
  unfold depsOf
  cases hu : us.lookup n with
  | none => simp [hu] at h
  | some u =>
    rw [hu] at h
    exact mem_deps.mpr (.inr h)

theorem Running.activated (hd : us.Distinct) (h : Running us t s.order s.phase s.queue s.outcomes s.considered) :
    Activated us t s where
  queue := h.queue
  requires := by
    intro n d _ hc
    have hmarked := (h.found n d hc).2
    refine ⟨fun hqueue => ?_, hmarked⟩
    have hqueued := h.mem_queue.mp hqueue
    rcases hmarked with hfailed | hphase
    · cases h.outcome_unique hd hfailed hqueued
    · exact h.not_unsettled hd hqueued (by simp [hphase, unsettled])
  checked := by
    intro n hn d hreq hreg
    have hchecked := h.started n (h.mem_queue.mp hn) d (mem_depsOf_of_requiresOf hreq) hreg
    exact hchecked.resolve_left not_mem_nil
  after := by
    intro n hn
    rcases h.failed n hn with hleft | ⟨d, hc⟩
    · rcases h.blocked n hleft with hcycle | ⟨d, hreq, hblocked⟩
      · exact .inl hcycle
      · exact .inr ⟨d, hreq, .inr hblocked⟩
    · exact .inr ⟨d, (h.found n d hc).1, .inl hc⟩
  ordered := by
    intro before n rest heq d hdep hactive
    have hn : us.Active t n := h.active_of_outcome hd (o := .queued) (by simp [heq])
    obtain ⟨o, ho⟩ := h.ordered hd heq ⟨hn, hactive, hdep⟩
    exact ⟨o, ho, h.accepted (d, o) (by simp [heq, ho])⟩
  complete := by
    intro hdone n hactive
    have hplan := h.plan
    rw [h.done hdone, hdone] at hplan
    have hmem : n ∈ s.outcomes.map Prod.fst := by
      have hall := (mem_leftOver_append hd).mpr hactive
      rw [← hplan] at hall
      simpa [unsettled] using hall
    obtain ⟨⟨n', o⟩, ho, rfl⟩ := mem_map.mp hmem
    exact ⟨o, ho, h.accepted _ ho⟩

theorem Inv.activated (hd : us.Distinct) (h : Inv us t s) : Activated us t s := by
  rcases h.progress with ⟨hphase, hqueue, houtcomes, hconsidered⟩ | ⟨-, -, hrun⟩
  · constructor <;> simp [hphase, hqueue, houtcomes, hconsidered]
  · exact hrun.activated hd

/-- In every run of that kind the units of the target are activated, and the run comes to its end. -/
theorem target_activated (hd : us.Distinct) (hunits : OrderlyUnits us t) {ticks : Nat} {es : List ActivateEvent}
    (hg : Guarded step (Orderly us) (start us t ticks) es) (he : exec step (start us t ticks) es = some s) :
    Activated us t s ∧ es.countP ActivateEvent.isAdvance ≤ (start us t ticks).work ∧
      (s.phase = .done ∨ ∃ n, (exec step s [.tick n, .advance]).isSome) := by
  have hinv : Inv us t s :=
    exec_invariant (fun _ _ _ hI hg hs => hI.step hd hunits hg hs) (Inv.start us t ticks) hg he
  exact ⟨hinv.activated hd, advances_le he, exists_advance s⟩

def netAndWeb (after requires : List String) : Units :=
  [UnitConfig.entry ⟨"net", "/bin/net.wasm", .oneshot, .no, [], [], .boot, true, none⟩,
    UnitConfig.entry ⟨"web", "/bin/web.wasm", .oneshot, .no, after, requires, .boot, true, none⟩]

/-- The sort and the first unit, which is started and ends with the given status; then steps for the second. -/
def netFirst (status : UnitStatus) (steps : Nat) : List ActivateEvent :=
  List.replicate 7 .advance ++
    .change (fun n => if n = "net" then status else .idle) :: List.replicate steps .advance

theorem distinct_netAndWeb (after requires : List String) : (netAndWeb after requires).Distinct := by
  simp [Units.Distinct, netAndWeb, UnitConfig.entry]

variable {after requires : List String}

theorem mem_depsOf_netAndWeb {n d : String} (h : d ∈ (netAndWeb after requires).depsOf n) :
    n = "web" ∧ (d ∈ after ∨ d ∈ requires) := by
  unfold depsOf at h
  cases hu : (netAndWeb after requires).lookup n with
  | none => simp [hu] at h
  | some u =>
    rw [hu] at h
    obtain ⟨hmem, rfl⟩ := lookup_eq_some hu
    have hdep := mem_deps.mp h
    rcases mem_cons.mp hmem with rfl | hmem
    · rcases hdep with hdep | hdep <;> cases hdep
    · obtain rfl := mem_singleton.mp hmem
      exact ⟨rfl, hdep⟩

theorem not_onCycle_netAndWeb (hafter : "web" ∉ after) (hrequires : "web" ∉ requires) (n : String) :
    ¬(netAndWeb after requires).OnCycle .boot n := by
  intro hcycle
  obtain ⟨m, hfirst, -⟩ := Relation.TransGen.head'_iff.mp hcycle
  obtain ⟨l, -, hlast⟩ := Relation.TransGen.tail'_iff.mp hcycle
  obtain ⟨rfl, -⟩ := mem_depsOf_netAndWeb hfirst.2.2
  exact (mem_depsOf_netAndWeb hlast.2.2).2.elim hafter hrequires

theorem web_activated : ∃ s, exec step (start (netAndWeb [] ["net"]) .boot 0) (netFirst (.exited 0) 9) = some s ∧
    s.phase = .done ∧ s.queue = ["net", "web"] ∧ Activated (netAndWeb [] ["net"]) .boot s := by
  have hafter : ∀ u ∈ netAndWeb [] ["net"], u.after.Nodup := by decide
  have hunits : OrderlyUnits (netAndWeb [] ["net"]) .boot := by
    refine ⟨fun u hu _ => hafter u hu, ?_⟩
    rintro n ⟨m, -, hcycle⟩
    exact absurd hcycle (not_onCycle_netAndWeb (by decide) (by decide) m)
  have hg : Guarded step (Orderly (netAndWeb [] ["net"])) (start (netAndWeb [] ["net"]) .boot 0)
      (netFirst (.exited 0) 9) := by decide
  exact ⟨_, rfl, rfl, rfl, (target_activated (distinct_netAndWeb _ _) hunits hg rfl).1⟩

/-- The first unit fails, and the second, which only comes after it, is marked failed and not started. -/
theorem after_failure_spreads : (netAndWeb ["net"] []).Distinct ∧ ∃ s,
    exec step (start (netAndWeb ["net"] []) .boot 0) (netFirst (.failed "exit") 6) = some s ∧
      s.phase = .done ∧ s.queue = ["net"] ∧ ¬Activated (netAndWeb ["net"] []) .boot s := by
  refine ⟨distinct_netAndWeb _ _, _, rfl, rfl, rfl, fun h => ?_⟩
  rcases h.after "web" (by decide) with hcycle | ⟨d, hd, -⟩
  · exact not_onCycle_netAndWeb (by decide) (by decide) "web" hcycle
  · cases hd

end Activation

end Ruos.Service
