import Ruos.Service.Instances

/-! Stop requests to supervised units: when they keep the unit from being started again, and when one from before a
start has no effect on it. -/
namespace Ruos.Service

open Lib Service.Units List

/-- The runner has still to look at the stop flag of the run it is in. -/
def RunnerPhase.listens : RunnerPhase → Bool
  | .running .. | .ended .. => true
  | _ => false

def RunnerPhase.exits : RunnerPhase → Bool
  | .exiting .. => true
  | _ => false

namespace Supervisor

/-- No stopped unit got a new instance before it was started again, and no runner was kept from restarting by a stop
from before its start. -/
structure StopsHeeded (s : Supervisor) : Prop where
  revived : s.revived = []
  prevented : s.prevented = []

/-- A start of the unit has been accepted, at time `since`, and not been carried out yet. -/
def PendingAt (s : Supervisor) (name : String) (since : Nat) : Prop :=
  (name, since) ∈ s.starting ∨ .start name since ∈ s.queue ∨ s.dispatcher = .taken (.start name since)

/-- The files are not loaded again: only starts, stops, and steps of the dispatcher and the runners are considered. -/
def NoReload (_ : Supervisor) : ServiceEvent → Prop
  | .request .reload => False
  | _ => True

/-- A supervised unit is stopped only while its process runs and no start of it is pending, no runner fails to
instantiate a unit that has just been stopped, and starts are carried out only when the unit has no runner. -/
def Timely (s : Supervisor) : ServiceEvent → Prop
  | .stop name => ∀ u ∈ s.units, u.name = name → supervised u → u.path ≠ builtinPath →
      (∃ k r, s.runners k = some r ∧ r.name = name ∧ ∃ policy path pid, r.phase = .running policy path pid) ∧
      ∀ since, ¬ s.PendingAt name since
  | .runner k .instantiateFails => ∀ r, s.runners k = some r → ∀ u ∈ s.units, u.name = r.name →
      u.stopRequested = false
  | e => s.Single e

/-- Every stop flag of a supervised unit has a runner that will look at it and was started before; a stopped unit has no
start pending, and its runner will end. -/
structure Heeding (s : Supervisor) : Prop where
  distinct : s.units.Distinct
  unique : ∀ k k' r r', s.runners k = some r → s.runners k' = some r' → r.name = r'.name → k = k'
  noReload : .reload ∉ s.queue ∧ s.dispatcher ≠ .taken .reload
  known : ∀ k r, s.runners k = some r → ∃ u ∈ s.units, u.name = r.name ∧ supervised u
  inline : ∀ name, s.dispatcher.inline = some name → ∃ u ∈ s.units, u.name = name ∧ supervised u = false
  stoppedKnown : ∀ name, s.stopped name → ∃ u ∈ s.units, u.name = name
  flag : ∀ u ∈ s.units, supervised u → u.stopRequested →
    ∃ k r, s.runners k = some r ∧ r.name = u.name ∧ r.phase.listens ∧ r.since ≤ s.stopTime u.name
  halted : ∀ u ∈ s.units, supervised u → s.stopped u.name → (∀ since, ¬ s.PendingAt u.name since) ∧
    ∀ k r, s.runners k = some r → r.name = u.name → r.phase.listens ∧ u.stopRequested ∨ r.phase.exits
  early : ∀ name since, s.PendingAt name since → since < s.clock
  runnersEarly : ∀ k r, s.runners k = some r → r.since < s.clock
  revived : s.revived = []
  prevented : s.prevented = []

theorem Heeding.boot : Supervisor.boot.Heeding where
  distinct := nodup_nil
  unique := fun _ _ _ _ h => by cases h
  noReload := ⟨not_mem_nil, by decide⟩
  known := fun _ _ h => by cases h
  inline := fun _ h => by cases h
  stoppedKnown := fun _ h => by cases h
  flag := fun _ h => by cases h
  halted := fun _ h => by cases h
  early := by
    rintro name since (h | h | h) <;> cases h
  runnersEarly := fun _ _ h => by cases h
  revived := rfl
  prevented := rfl

variable {s s' : Supervisor}

theorem Heeding.setNextPid (h : s.Heeding) (pid : Nat) : Heeding { s with nextPid := pid } :=
  { h with }

theorem modify_id (us : Units) (name : String) : us.modify name id = us := by
  induction us with
  | nil => rfl
  | cons u us ih =>
    rw [Units.modify, ih]
    split <;> rfl

variable {f : UnitEntry → UnitEntry} {u : UnitEntry}

theorem exists_modify {us : Units} (name : String) (hf : ∀ u, (f u).toUnitConfig = u.toUnitConfig) (hu : u ∈ us) :
    ∃ v ∈ us.modify name f, v.toUnitConfig = u.toUnitConfig := by
  induction us with
  | nil => cases hu
  | cons w us ih =>
    rw [Units.modify]
    rcases mem_cons.mp hu with rfl | hu
    · split
      · exact ⟨f u, by simp, hf u⟩
      · exact ⟨u, by simp, rfl⟩
    · split
      · exact ⟨u, mem_cons_of_mem _ hu, rfl⟩
      · obtain ⟨v, hv, heq⟩ := ih hu
        exact ⟨v, mem_cons_of_mem _ hv, heq⟩

theorem supervised_congr {u v : UnitEntry} (h : v.toUnitConfig = u.toUnitConfig) : supervised v = supervised u := by
  unfold supervised
  rw [h]

theorem name_congr {u v : UnitEntry} (h : v.toUnitConfig = u.toUnitConfig) : v.name = u.name := by
  rw [h]

section

variable {us : Units} {n : String} (name : String) (hf : ∀ u, (f u).toUnitConfig = u.toUnitConfig)
include hf

theorem named_modify (h : ∃ u ∈ us, u.name = n) : ∃ v ∈ us.modify name f, v.name = n := by
  obtain ⟨u, hu, hname⟩ := h
  obtain ⟨v, hv, heq⟩ := exists_modify name hf hu
  exact ⟨v, hv, (name_congr heq).trans hname⟩

theorem known_modify {b : Bool} (h : ∃ u ∈ us, u.name = n ∧ supervised u = b) :
    ∃ v ∈ us.modify name f, v.name = n ∧ supervised v = b := by
  obtain ⟨u, hu, hname, hsup⟩ := h
  obtain ⟨v, hv, heq⟩ := exists_modify name hf hu
  exact ⟨v, hv, (name_congr heq).trans hname, (supervised_congr heq).trans hsup⟩

end

variable {k : Nat} {r : Runner}

section

variable (h : s.Heeding) (hk : s.runners k = some r)
include h hk

theorem Heeding.flag_since (hu : u ∈ s.units) (hname : u.name = r.name) (hsup : supervised u)
    (hfl : u.stopRequested) : r.since ≤ s.stopTime r.name := by
  obtain ⟨k', r', hk', hr', -, ht⟩ := h.flag u hu hsup hfl
  obtain rfl := h.unique k k' r r' hk hk' (hname.symm.trans hr'.symm)
  rw [hk] at hk'
  cases hk'
  exact hname ▸ ht

theorem Heeding.flag_clear (hl : r.phase.listens = false) (hu : u ∈ s.units) (hsup : supervised u)
    (hname : u.name = r.name) : u.stopRequested = false := by
  cases hflag : u.stopRequested with
  | false => rfl
  | true =>
    obtain ⟨k', r', hk', hr', hl', -⟩ := h.flag u hu hsup hflag
    obtain rfl := h.unique k k' r r' hk hk' (hname.symm.trans hr'.symm)
    rw [hk] at hk'
    cases hk'
    rw [hl] at hl'
    cases hl'

theorem Heeding.not_stopped (hl : r.phase.listens = false) (hx : r.phase.exits = false) :
    s.stopped r.name = false := by
  obtain ⟨u, hu, hname, hsup⟩ := h.known k r hk
  cases hst : s.stopped r.name with
  | false => rfl
  | true =>
    obtain ⟨-, hrun⟩ := h.halted u hu hsup (hname ▸ hst)
    rcases hrun k r hk hname.symm with ⟨hl', -⟩ | hx'
    · rw [hl] at hl'
      cases hl'
    · rw [hx] at hx'
      cases hx'

theorem Heeding.move (p : Option RunnerPhase) (hf : ∀ u, (f u).toUnitConfig = u.toUnitConfig)
    (hflag : ∀ u ∈ s.units, u.name = r.name → supervised u → (f u).stopRequested →
      ∃ q, p = some q ∧ q.listens ∧ r.since ≤ s.stopTime r.name)
    (hhalt : ∀ u ∈ s.units, u.name = r.name → supervised u → s.stopped r.name → ∀ q, p = some q →
      q.listens ∧ (f u).stopRequested ∨ q.exits) :
    Heeding { s.setRunner k (p.map fun q => { r with phase := q }) with units := s.units.modify r.name f } := by
  have hcase : ∀ {k' r'}, (s.setRunner k (p.map fun q => { r with phase := q })).runners k' = some r' →
      (k' = k ∧ ∃ q, p = some q ∧ r' = { r with phase := q }) ∨ k' ≠ k ∧ s.runners k' = some r' := by
    intro k' r' hr'
    rcases runners_setRunner hr' with ⟨rfl, hmap⟩ | hold
    · obtain ⟨q, hq, rfl⟩ := Option.map_eq_some_iff.mp hmap
      exact .inl ⟨rfl, q, hq, rfl⟩
    · exact .inr hold
  have hold : ∀ {k' r'}, (s.setRunner k (p.map fun q => { r with phase := q })).runners k' = some r' →
      ∃ r₀, s.runners k' = some r₀ ∧ r₀.name = r'.name ∧ r₀.since = r'.since := by
    intro k' r' hr'
    rcases hcase hr' with ⟨rfl, q, -, rfl⟩ | ⟨-, hr'⟩
    · exact ⟨r, hk, rfl, rfl⟩
    · exact ⟨r', hr', rfl, rfl⟩
  refine ⟨h.distinct.modify fun u => name_congr (hf u), ?_, h.noReload, fun k' r' hr' => ?_,
    fun name hd => known_modify r.name hf (h.inline name hd),
    fun name hst => named_modify r.name hf (h.stoppedKnown name hst), ?_, ?_, h.early, ?_, h.revived, h.prevented⟩
  · intro k₁ k₂ r₁ r₂ h₁ h₂ heq
    obtain ⟨q₁, hq₁, hn₁, -⟩ := hold h₁
    obtain ⟨q₂, hq₂, hn₂, -⟩ := hold h₂
    exact h.unique k₁ k₂ q₁ q₂ hq₁ hq₂ (by rw [hn₁, hn₂, heq])
  · obtain ⟨q, hq, hn, -⟩ := hold hr'
    exact known_modify r.name hf (hn ▸ h.known k' q hq)
  · intro u hu hsup hfl
    rcases mem_modify h.distinct hu with ⟨hmem, hne⟩ | ⟨v, hv, hname, rfl⟩
    · obtain ⟨k', r', hk', hr', hl, ht⟩ := h.flag u hmem hsup hfl
      have hkk : k' ≠ k := by
        rintro rfl
        rw [hk] at hk'
        cases hk'
        exact hne hr'.symm
      exact ⟨k', r', by simpa [setRunner, hkk] using hk', hr', hl, ht⟩
    · rw [supervised_congr (hf v)] at hsup
      obtain ⟨q, rfl, hl, ht⟩ := hflag v hv hname hsup hfl
      refine ⟨k, { r with phase := q }, by simp [setRunner], ?_, hl, ?_⟩
      · rw [name_congr (hf v)]
        exact hname.symm
      · rw [name_congr (hf v), hname]
        exact ht
  · intro u hu hsup hst
    rcases mem_modify h.distinct hu with ⟨hmem, hne⟩ | ⟨v, hv, hname, rfl⟩
    · obtain ⟨hpend, hrun⟩ := h.halted u hmem hsup hst
      refine ⟨hpend, fun k' r' hr' hn => ?_⟩
      rcases hcase hr' with ⟨rfl, q, -, rfl⟩ | ⟨-, hr'⟩
      · exact absurd hn.symm hne
      · exact hrun k' r' hr' hn
    · rw [supervised_congr (hf v)] at hsup
      rw [name_congr (hf v)] at hst ⊢
      obtain ⟨hpend, hrun⟩ := h.halted v hv hsup hst
      refine ⟨hpend, fun k' r' hr' hn => ?_⟩
      rcases hcase hr' with ⟨rfl, q, rfl, rfl⟩ | ⟨hkk, hr'⟩
      · exact hhalt v hv hname hsup (hname ▸ hst) q rfl
      · exact absurd (h.unique k' k r' r hr' hk (hn.trans hname)) hkk
  · intro k' r' hr'
    obtain ⟨q, hq, -, ht⟩ := hold hr'
    exact ht ▸ h.runnersEarly k' q hq

theorem Heeding.moveIdle (hidle : (r.phase.listens || r.phase.exits) = false) (p : Option RunnerPhase)
    (hf : ∀ u, (f u).toUnitConfig = u.toUnitConfig) (hsame : ∀ u, (f u).stopRequested = u.stopRequested) :
    Heeding { s.setRunner k (p.map fun q => { r with phase := q }) with units := s.units.modify r.name f } := by
  obtain ⟨hl, hx⟩ := Bool.or_eq_false_iff.mp hidle
  refine h.move hk p hf (fun u hu hname hsup hfl => ?_) fun u hu hname hsup hst => ?_
  · rw [hsame, h.flag_clear hk hl hu hsup hname] at hfl
    cases hfl
  · rw [h.not_stopped hk hl hx] at hst
    cases hst

theorem Heeding.stepRunner {e : RunnerEvent} (htimely : s.Timely (.runner k e)) (hs : s.stepRunner k r e = some s') :
    s'.Heeding := by
  have hidle := fun hfree p => h.moveIdle hk hfree p (f := id) (fun _ => rfl) fun _ => rfl
  simp only [modify_id] at hidle
  -- Each event is one of a single phase.
  cases hphase : r.phase <;> cases e <;> simp only [Supervisor.stepRunner, hphase, reduceCtorEq] at hs
  case starting.info =>
    split at hs <;> cases hs
    · exact hidle (by rw [hphase]; rfl) none
    · exact hidle (by rw [hphase]; rfl) (some (.reading _ _))
  case reading.readFails =>
    cases hs
    exact h.moveIdle hk (by rw [hphase]; rfl) none (fun _ => rfl) fun _ => rfl
  case reading.readDone policy path =>
    cases hs
    exact (hidle (by rw [hphase]; rfl) (some (.registered policy path s.nextPid))).setNextPid _
  case registered.markRunning policy path pid =>
    have hl : r.phase.listens = false := by rw [hphase]; rfl
    have hx : r.phase.exits = false := by rw [hphase]; rfl
    rw [if_neg (by rw [h.not_stopped hk hl hx]; decide)] at hs
    cases hs
    exact h.moveIdle hk (by rw [hphase]; rfl) (some (.running policy path pid)) (fun _ => rfl) fun _ => rfl
  case running.instantiateFails =>
    split at hs <;> cases hs
    refine h.move hk none (fun _ => rfl) (fun u hu hname _ hfl => ?_) fun _ _ _ _ _ q hq => by cases hq
    have hclear := htimely r hk u hu hname
    rw [hfl] at hclear
    cases hclear
  case running.childExits policy path pid code =>
    cases hs
    have hmove := h.move hk (some (.ended policy pid code)) (f := id) (fun _ => rfl)
      (fun u hu hname hsup hfl => ⟨_, rfl, rfl, h.flag_since hk hu hname hsup hfl⟩) fun u hu hname hsup hst q hq => ?_
    · rwa [modify_id] at hmove
    · cases hq
      obtain ⟨-, hrun⟩ := h.halted u hu hsup (hname.symm ▸ hst)
      rcases hrun k r hk hname.symm with ⟨-, hfl⟩ | hx
      · exact .inl ⟨rfl, hfl⟩
      · rw [hphase] at hx
        cases hx
  case ended.takeStop policy pid code =>
    obtain ⟨u₀, hu₀, hname₀, hsup₀⟩ := h.known k r hk
    have htake : ∀ u ∈ s.units, u.name = r.name → (s.units.takeStopRequested r.name).1 = u.stopRequested := by
      intro u hu hname
      simp only [takeStopRequested, ← hname, h.distinct.lookup_of_mem hu]
      rfl
    have hold : ¬ ((s.units.takeStopRequested r.name).1 && restarts policy code && s.stopTime r.name < r.since) := by
      rw [htake u₀ hu₀ hname₀]
      intro hbad
      obtain ⟨⟨hfl, -⟩, hlt⟩ : (u₀.stopRequested = true ∧ restarts policy code = true) ∧
          s.stopTime r.name < r.since := by simpa using hbad
      have ht := h.flag_since hk hu₀ hname₀ hsup₀ hfl
      omega
    rw [if_neg hold] at hs
    cases hs
    refine h.move hk (some _) (fun _ => rfl) (fun _ _ _ _ hfl => by cases hfl) fun u hu hname hsup hst q hq => ?_
    obtain ⟨-, hrun⟩ := h.halted u hu hsup (hname.symm ▸ hst)
    cases hq
    rcases hrun k r hk hname.symm with ⟨-, hfl⟩ | hx
    · rw [htake u hu hname, hfl]
      exact .inr rfl
    · rw [hphase] at hx
      cases hx
  case exiting.markExited =>
    cases hs
    exact h.move hk none (fun _ => rfl) (fun _ _ _ _ hfl => by cases hfl) fun _ _ _ _ _ q hq => by cases hq
  case retrying.markRestarting =>
    cases hs
    exact h.moveIdle hk (by rw [hphase]; rfl) (some .backoff) (fun _ => rfl) fun _ => rfl
  case backoff.wake =>
    cases hs
    exact hidle (by rw [hphase]; rfl) (some .starting)

end

end Supervisor

end Ruos.Service
