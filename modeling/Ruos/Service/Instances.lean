import Ruos.Service.Supervisor

/-! At most one instance of each unit: which runs of the supervisor keep it. -/
namespace Ruos.Service

open Lib Guarded

namespace Supervisor

/-- A runner is an instance of its unit, and so is an execution by the dispatcher; a recorded process is the one of the
instance. -/
structure OneInstance (s : Supervisor) : Prop where
  runners : ∀ k k' r r', s.runners k = some r → s.runners k' = some r' → r.name = r'.name → k = k'
  inline : ∀ name pid, s.dispatcher.Executes name pid → ∀ k r, s.runners k = some r → r.name ≠ name
  pid : ∀ u ∈ s.units, ∀ pid, u.pid = some pid →
    (∃ k r, s.runners k = some r ∧ r.name = u.name ∧ r.phase.pid = some pid) ∨ s.dispatcher.Executes u.name pid

/-- A start request is carried out only when the unit has no runner. -/
def Single (s : Supervisor) : ServiceEvent → Prop
  | .dispatch => ∀ name since, s.dispatcher = .taken (.start name since) → ∀ k r, s.runners k = some r → r.name ≠ name
  | _ => True

/-- The process that a unit has on record, if it has one, is that of a live instance. -/
def Recorded (s : Supervisor) (u : UnitEntry) : Prop := ∀ pid, u.pid = some pid →
  (∃ k r, s.runners k = some r ∧ r.name = u.name ∧ r.phase.pid = some pid) ∨ s.dispatcher.Executes u.name pid

structure Inv (s : Supervisor) : Prop where
  distinct : s.units.Distinct
  runners : ∀ k k' r r', s.runners k = some r → s.runners k' = some r' → r.name = r'.name → k = k'
  inline : ∀ name, s.dispatcher.inline = some name → ∀ k r, s.runners k = some r → r.name ≠ name
  recorded : ∀ u ∈ s.units, s.Recorded u

variable {name : String}

theorem Dispatcher_inline_of_executes {d : Dispatcher} {pid : Nat} (h : d.Executes name pid) :
    d.inline = some name := by
  rcases h with rfl | ⟨code, rfl⟩ <;> rfl

theorem Inv.boot : boot.Inv where
  distinct := List.nodup_nil
  runners := fun _ _ _ _ h => by cases h
  inline := fun _ h => by cases h
  recorded := fun _ h => by cases h

theorem Inv.oneInstance {s : Supervisor} (h : s.Inv) : s.OneInstance where
  runners := h.runners
  inline := fun name _ hd => h.inline name (Dispatcher_inline_of_executes hd)
  pid := h.recorded

variable {s s' : Supervisor}

theorem Inv.congr (h : s.Inv) (hu : s'.units = s.units) (hr : s'.runners = s.runners)
    (hd : s'.dispatcher = s.dispatcher) : s'.Inv := by
  obtain ⟨units', _⟩ := s'
  subst hu hr hd
  exact { h with }

theorem Inv.setUnits (h : s.Inv) {us : Units} (hd : us.Distinct) (hrec : ∀ u ∈ us, s.Recorded u) :
    Inv { s with units := us } :=
  ⟨hd, h.runners, h.inline, hrec⟩

theorem Inv.register (h : s.Inv) (c : UnitConfig) : Inv { s with units := s.units.register c } := by
  refine h.setUnits (h.distinct.register c) fun u hu => ?_
  rcases Units.mem_register hu with hu | rfl
  · exact h.recorded u hu
  · intro pid hpid
    cases hpid

variable {f : UnitEntry → UnitEntry}

theorem Inv.modify (h : s.Inv) (name : String) (hf : ∀ u, (f u).name = u.name)
    (hrec : ∀ u ∈ s.units, u.name = name → s.Recorded (f u)) : Inv { s with units := s.units.modify name f } := by
  refine h.setUnits (h.distinct.modify hf) fun u hu => ?_
  rcases Units.mem_modify h.distinct hu with ⟨hmem, -⟩ | ⟨v, hv, hname, rfl⟩
  · exact h.recorded u hmem
  · exact hrec v hv hname

theorem Inv.modify_forget (h : s.Inv) (name : String) (hf : ∀ u, (f u).name = u.name)
    (hpid : ∀ u, (f u).pid = none ∨ (f u).pid = u.pid) : Inv { s with units := s.units.modify name f } := by
  refine h.modify name hf fun u hu _ pid hp => ?_
  rcases hpid u with hnone | hsame
  · rw [hnone] at hp
    cases hp
  · rw [hf u]
    exact h.recorded u hu pid (hsame ▸ hp)

variable {k : Nat} {r : Runner}

section

variable (h : s.Inv)
include h

theorem Inv.recorded_of_runner (hk : s.runners k = some r) {u : UnitEntry} (hu : u ∈ s.units)
    (hname : u.name = r.name) {pid : Nat} (hpid : u.pid = some pid) : r.phase.pid = some pid := by
  rcases h.recorded u hu pid hpid with ⟨k', r', hk', hr', hp⟩ | hexec
  · obtain rfl := h.runners k k' r r' hk hk' (hname.symm.trans hr'.symm)
    rw [hk] at hk'
    cases hk'
    exact hp
  · exact absurd hname.symm (h.inline u.name (Dispatcher_inline_of_executes hexec) k r hk)

/-- A runner that goes on keeps its process, unless its unit records none; one that ends leaves no process recorded. -/
theorem Inv.move (hk : s.runners k = some r) (p : Option RunnerPhase)
    (hp : (∃ q, p = some q ∧ q.pid = r.phase.pid) ∨ ∀ u ∈ s.units, u.name = r.name → u.pid = none) :
    (s.setRunner k (p.map fun q => { r with phase := q })).Inv := by
  have hname : ∀ {k' r'}, (s.setRunner k (p.map fun q => { r with phase := q })).runners k' = some r' →
      ∃ r₀, s.runners k' = some r₀ ∧ r₀.name = r'.name := by
    intro k' r' hr'
    rcases runners_setRunner hr' with ⟨rfl, hq⟩ | ⟨-, hr'⟩
    · obtain ⟨q, -, rfl⟩ := Option.map_eq_some_iff.mp hq
      exact ⟨r, hk, rfl⟩
    · exact ⟨r', hr', rfl⟩
  refine ⟨h.distinct, ?_, ?_, ?_⟩
  · intro k₁ k₂ r₁ r₂ h₁ h₂ heq
    obtain ⟨q₁, hq₁, hn₁⟩ := hname h₁
    obtain ⟨q₂, hq₂, hn₂⟩ := hname h₂
    exact h.runners k₁ k₂ q₁ q₂ hq₁ hq₂ (by rw [hn₁, hn₂, heq])
  · intro name hd k' r' hr'
    obtain ⟨q, hq, hn⟩ := hname hr'
    exact hn ▸ h.inline name hd k' q hq
  · intro u hu pid hpid
    rcases h.recorded u hu pid hpid with ⟨k', r', hk', hr', hp'⟩ | hexec
    · by_cases heq : k' = k
      · subst heq
        rw [hk] at hk'
        cases hk'
        rcases hp with ⟨q, rfl, hp⟩ | hnone
        · exact .inl ⟨k', { r with phase := q }, by simp [setRunner], hr', hp.trans hp'⟩
        · rw [hnone u hu hr'.symm] at hpid
          cases hpid
      · exact .inl ⟨k', r', by simpa [setRunner, heq] using hk', hr', hp'⟩
    · exact .inr hexec

theorem Inv.setPhase (hk : s.runners k = some r) (p : RunnerPhase)
    (hp : p.pid = r.phase.pid ∨ ∀ u ∈ s.units, u.name = r.name → u.pid = none) :
    (s.setRunner k (some { r with phase := p })).Inv :=
  h.move hk (some p) (hp.imp_left fun hp => ⟨p, rfl, hp⟩)

theorem Inv.removeRunner (hk : s.runners k = some r) (hnone : ∀ u ∈ s.units, u.name = r.name → u.pid = none) :
    (s.setRunner k none).Inv :=
  h.move hk none (.inr hnone)

theorem Inv.setDispatcher {d₀ d : Dispatcher} (hd : s.dispatcher = d₀)
    (hinl : ∀ name, d.inline = some name → ∀ k r, s.runners k = some r → r.name ≠ name)
    (hrec : ∀ name pid, d₀.Executes name pid → d.Executes name pid ∨ ∀ u ∈ s.units, u.name = name → u.pid = none) :
    Inv { s with dispatcher := d } := by
  subst hd
  refine ⟨h.distinct, h.runners, hinl, fun u hu pid hpid => ?_⟩
  rcases h.recorded u hu pid hpid with hrun | hexec
  · exact .inl hrun
  · rcases hrec u.name pid hexec with hexec' | hnone
    · exact .inr hexec'
    · rw [hnone u hu rfl] at hpid
      cases hpid

theorem Inv.spawn (hfree : s.runners k = none) (hsingle : ∀ k' r', s.runners k' = some r' → r'.name ≠ r.name)
    (hidle : s.dispatcher.inline = none) : (s.setRunner k (some r)).Inv := by
  refine ⟨h.distinct, unique_setRunner h.runners hsingle, ?_, ?_⟩
  · intro name hd
    rw [show (s.setRunner k (some r)).dispatcher = s.dispatcher from rfl, hidle] at hd
    cases hd
  · intro u hu pid hpid
    rcases h.recorded u hu pid hpid with ⟨k', r', hk', hr', hp'⟩ | hexec
    · exact .inl ⟨k', r', runners_setRunner_other hfree (by simp) hk' _, hr', hp'⟩
    · exact .inr hexec

end

theorem pid_none_of_modify {us : Units} (h : us.Distinct) (hf : ∀ u, (f u).pid = none) :
    ∀ u ∈ us.modify name f, u.name = name → u.pid = none := by
  intro u hu hname
  rcases Units.mem_modify h hu with ⟨-, hne⟩ | ⟨v, -, -, rfl⟩
  · exact absurd hname hne
  · exact hf v

theorem Inv.finishRunner (h : s.Inv) (hk : s.runners k = some r) (hf : ∀ u, (f u).name = u.name)
    (hpid : ∀ u, (f u).pid = none) : Inv { s.setRunner k none with units := s.units.modify r.name f } :=
  (h.modify_forget r.name hf fun u => .inl (hpid u)).removeRunner hk (pid_none_of_modify h.distinct hpid)

theorem Inv.stepRunner (h : s.Inv) (hk : s.runners k = some r) {e : RunnerEvent} (hs : s.stepRunner k r e = some s') :
    s'.Inv := by
  cases hphase : r.phase <;> cases e <;> simp only [Supervisor.stepRunner, hphase, reduceCtorEq] at hs
  case starting.info =>
    have hnone : r.phase.pid = none := by rw [hphase]; rfl
    split at hs <;> cases hs
    · refine h.removeRunner hk fun u hu hname => ?_
      cases hpid : u.pid with
      | none => rfl
      | some pid => rw [h.recorded_of_runner hk hu hname hpid] at hnone; cases hnone
    · exact h.setPhase hk _ (.inl hnone.symm)
  case reading.readFails | exiting.markExited =>
    cases hs
    exact h.finishRunner hk (fun _ => rfl) fun _ => rfl
  case reading.readDone =>
    cases hs
    exact (h.setPhase hk _ (.inl (by rw [hphase]; rfl))).congr rfl rfl rfl
  case registered.markRunning policy path pid =>
    cases hs
    have hnone : ∀ u ∈ s.units, u.name = r.name → u.pid = none := by
      intro u hu hname
      cases hpid : u.pid with
      | none => rfl
      | some p =>
        have hp := h.recorded_of_runner hk hu hname hpid
        rw [hphase] at hp
        cases hp
    have hset := h.setPhase hk (.running policy path pid) (.inr hnone)
    refine (hset.modify r.name (f := fun u => { u with status := .running, pid := some pid })
      (fun _ => rfl) fun u hu hname p hp => ?_).congr rfl rfl rfl
    cases hp
    exact .inl ⟨k, { r with phase := .running policy path pid }, by simp [setRunner], hname.symm, rfl⟩
  case running.instantiateFails =>
    split at hs <;> cases hs
    exact h.finishRunner hk (fun _ => rfl) fun _ => rfl
  case running.childExits | backoff.wake =>
    cases hs
    exact h.setPhase hk _ (.inl (by rw [hphase]; rfl))
  case ended.takeStop policy pid code =>
    cases hs
    have hset := h.modify_forget r.name (f := fun u => { u with stopRequested := false })
      (fun _ => rfl) fun _ => .inr rfl
    refine (hset.setPhase hk (if (s.units.takeStopRequested r.name).1 || !restarts policy code then
      .exiting pid code else .retrying pid) (.inl ?_)).congr rfl rfl rfl
    rw [hphase]
    split <;> rfl
  case retrying.markRestarting =>
    cases hs
    have hset := h.modify_forget r.name (f := fun u => { u with status := .restarting, pid := none })
      (fun _ => rfl) fun _ => .inl rfl
    exact hset.setPhase hk .backoff (.inr (pid_none_of_modify h.distinct fun _ => rfl))

theorem Inv.dispatch (h : s.Inv) (hsingle : s.Single .dispatch) (hs : s.step .dispatch = some s') : s'.Inv := by
  have hno : ∀ {req : UnitReq} n p, ¬ (Dispatcher.taken req).Executes n p := by
    rintro req n p (hd | ⟨code, hd⟩) <;> cases hd
  simp only [step] at hs
  split at hs
  · rename_i name since hreq
    have hfree := hsingle name since hreq
    split at hs
    · cases hs
      exact h.setDispatcher hreq (fun _ hd => by cases hd) fun n p he => absurd he (hno n p)
    · split at hs
      · split at hs
        · cases hs
          exact h.setDispatcher hreq (fun _ hd => by cases hd) fun n p he => absurd he (hno n p)
        · rename_i k hslot
          cases hs
          have hk : s.runners k = none := by simpa using List.find?_some hslot
          have hspawn := h.spawn (r := ⟨name, .starting, since⟩) hk hfree (by rw [hreq]; rfl)
          exact hspawn.setDispatcher hreq (fun _ hd => by cases hd) fun n p he => absurd he (hno n p)
      · cases hs
        refine h.setDispatcher hreq (fun n hd => ?_) fun n p he => absurd he (hno n p)
        cases hd
        exact hfree
  · rename_i name hreq
    cases hs
    exact h.setDispatcher hreq (fun _ hd => by cases hd) fun n p he => absurd he (hno n p)
  · rename_i hreq
    cases hs
    have hset := h.setUnits h.distinct.retainActive fun u hu => h.recorded u (List.mem_filter.mp hu).1
    exact hset.setDispatcher hreq (fun _ hd => by cases hd) fun n p he => absurd he (hno n p)
  · cases hs

theorem Inv.finishInline (h : s.Inv) (hf : ∀ u, (f u).name = u.name) (hpid : ∀ u, (f u).pid = none) {d : Dispatcher}
    (hd : s.dispatcher = d) (hname : ∀ n p, d.Executes n p → n = name) :
    Inv { s with units := s.units.modify name f, dispatcher := .idle } := by
  refine (h.modify_forget name hf fun u => .inl (hpid u)).setDispatcher hd (fun _ hd => by cases hd) fun n p he => ?_
  obtain rfl := hname n p he
  exact .inr (pid_none_of_modify h.distinct hpid)

theorem Inv.step (h : s.Inv) {e : ServiceEvent} (hsingle : s.Single e) (hs : s.step e = some s') : s'.Inv := by
  cases e <;> simp only [Supervisor.step] at hs
  case register c =>
    cases hs
    exact h.register c
  case start name =>
    split at hs <;> cases hs
    · exact h
    · exact h.congr rfl rfl rfl
  case push | request =>
    split at hs <;> cases hs
    exact h.congr rfl rfl rfl
  case stop name =>
    split at hs <;> cases hs
    · exact h
    · rename_i units hstop
      obtain ⟨-, -, -, rfl⟩ := Units.stop_eq_ok hstop
      exact (h.modify_forget name (f := fun u => { u with stopRequested := true }) (fun _ => rfl)
        fun _ => .inr rfl).congr rfl rfl rfl
  case take =>
    split at hs <;> cases hs
    rename_i req rest hidle hq
    refine (h.setDispatcher hidle (fun _ hd => by cases hd) ?_).congr rfl rfl rfl
    rintro n p (he | ⟨code, he⟩) <;> cases he
  case dispatch => exact h.dispatch hsingle hs
  case markNoSlot | inlineFails =>
    split at hs <;> cases hs
    rename_i name hd
    refine h.finishInline (fun _ => rfl) (fun _ => rfl) hd ?_
    rintro n p (he | ⟨code, he⟩) <;> cases he
  case inlineRegister =>
    split at hs <;> cases hs
    rename_i name hd
    have hinl := h.inline name (by rw [hd]; rfl)
    refine (h.setDispatcher hd (fun n hn => ?_) ?_).congr rfl rfl rfl
    · cases hn
      exact hinl
    · rintro n p (he | ⟨code, he⟩) <;> cases he
  case inlineMark =>
    split at hs <;> cases hs
    rename_i name pid hd
    have hinl := h.inline name (by rw [hd]; rfl)
    have hset := h.setDispatcher (d := .running name pid) hd (fun n hn => by cases hn; exact hinl)
      (by rintro n p (he | ⟨code, he⟩) <;> cases he)
    refine hset.modify name (fun _ => rfl) fun u hu hname p hp => ?_
    cases hp
    exact .inr (.inl (by rw [← hname]))
  case inlineExits code =>
    split at hs <;> cases hs
    rename_i name pid hd
    have hinl := h.inline name (by rw [hd]; rfl)
    refine h.setDispatcher hd (fun n hn => by cases hn; exact hinl) ?_
    rintro n p (he | ⟨code, he⟩) <;> cases he
    exact .inl (.inr ⟨code, rfl⟩)
  case inlineDone =>
    split at hs <;> cases hs
    rename_i name pid code hd
    refine h.finishInline (fun _ => rfl) (fun _ => rfl) hd ?_
    rintro n p (he | ⟨code, he⟩) <;> cases he
    rfl
  case reloadDone =>
    split at hs <;> cases hs
    rename_i hd
    refine h.setDispatcher hd (fun _ hn => by cases hn) ?_
    rintro n p (he | ⟨code, he⟩) <;> cases he
  case runner k e =>
    split at hs
    · cases hs
    · rename_i r hk
      exact h.stepRunner hk hs

/-- Over every interleaving in which start requests are carried out only when the unit has no runner, each unit has at
most one instance, and its recorded process is that instance's. -/
theorem one_instance {es : List ServiceEvent} (hg : Guarded step Single boot es)
    (he : exec step boot es = some s) : s.OneInstance :=
  (exec_invariant (fun _ _ _ h hsg hs => h.step hsg hs) Inv.boot hg he).oneInstance

def sampleDaemon : UnitConfig := ⟨"d", "/bin/d.wasm", .daemon, .always, [], [], .manual, false, none⟩

theorem one_instance_daemon : ∃ s : Supervisor,
    exec step boot [.register sampleDaemon, .start "d", .push ("d", 0), .take, .dispatch, .runner 0 .info,
      .runner 0 .readDone, .runner 0 .markRunning] = some s ∧
      s.units = [{ sampleDaemon with status := .running, pid := some 1, stopRequested := false }] ∧
      s.OneInstance := by
  refine exists_end ⟨_, rfl, rfl⟩ fun s hrun => one_instance ?_ hrun
  refine cons trivial rfl (cons trivial rfl (cons trivial rfl (cons trivial rfl
    (cons ?_ rfl (cons trivial rfl (cons trivial rfl (cons trivial rfl trivial)))))))
  intro name since _ k r hr
  cases hr

/-- Two starts that are both accepted before the first is carried out give two runners. -/
theorem two_runners : ∃ s : Supervisor,
    exec step boot [.register sampleDaemon, .start "d", .start "d", .push ("d", 0), .push ("d", 1), .take, .dispatch,
      .take, .dispatch] = some s ∧ s.runners 0 = some ⟨"d", .starting, 0⟩ ∧ s.runners 1 = some ⟨"d", .starting, 1⟩ ∧
      ¬ s.OneInstance := by
  refine ⟨_, rfl, rfl, rfl, fun h => ?_⟩
  exact absurd (h.runners 0 1 _ _ rfl rfl rfl) (by decide)

end Supervisor

end Ruos.Service
