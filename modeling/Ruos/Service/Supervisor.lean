import Ruos.Lib.Run
import Ruos.Service.Registry

/-! The service queue, its dispatcher and the supervised runners of `executor/mod.rs`, interleaved at their critical
sections. -/
namespace Ruos.Service

open Lib

def maxDaemons : Nat := 8

/-- A start request carries the time at which it was accepted, which is not in the code. -/
inductive UnitReq
  | start (name : String) (since : Nat)
  | persist (name : String)
  | reload
deriving DecidableEq

inductive RunnerPhase
  | starting
  | reading (policy : RestartPolicy) (path : String)
  | registered (policy : RestartPolicy) (path : String) (pid : Nat)
  | running (policy : RestartPolicy) (path : String) (pid : Nat)
  | ended (policy : RestartPolicy) (pid : Nat) (code : Int)
  | exiting (pid : Nat) (code : Int)
  | retrying (pid : Nat)
  | backoff
deriving DecidableEq

/-- The process of a runner that has marked its unit as running and not yet recorded the exit. -/
def RunnerPhase.pid : RunnerPhase → Option Nat
  | .running _ _ pid | .ended _ pid _ | .exiting pid _ | .retrying pid => some pid
  | .starting | .reading .. | .registered .. | .backoff => none

/-- `since` is the time of the start request that the runner was spawned for. -/
structure Runner where
  name : String
  phase : RunnerPhase
  since : Nat
deriving DecidableEq

/-- The dispatcher executes a unit that is not supervised itself. -/
inductive Dispatcher
  | idle
  | taken (req : UnitReq)
  | noSlot (name : String)
  | reading (name : String)
  | registered (name : String) (pid : Nat)
  | running (name : String) (pid : Nat)
  | ended (name : String) (pid : Nat) (code : Int)
  | reloading
deriving DecidableEq

/-- `starting` holds the starts that have passed the check and are not yet queued. The fields from `clock` on are not
in the code: the time, which units have been stopped and not started since, when each was stopped last, which units got
a new instance while stopped, and which runners a stop from before their start kept from restarting. -/
structure Supervisor where
  units : Units
  starting : List (String × Nat)
  queue : List UnitReq
  dispatcher : Dispatcher
  runners : Nat → Option Runner
  nextPid : Nat
  clock : Nat
  stopped : String → Bool
  stopTime : String → Nat
  revived : List String
  prevented : List String

inductive RunnerEvent
  | info
  | readFails
  | readDone
  | markRunning
  | instantiateFails
  | childExits (code : Int)
  | takeStop
  | markExited
  | markRestarting
  | wake

inductive ServiceEvent
  | register (c : UnitConfig)
  | start (name : String)
  | push (x : String × Nat)
  | stop (name : String)
  | request (req : UnitReq)
  | take
  | dispatch
  | markNoSlot
  | inlineFails (reason : String)
  | inlineRegister
  | inlineMark
  | inlineExits (code : Int)
  | inlineDone
  | reloadDone
  | runner (slot : Nat) (e : RunnerEvent)

namespace Supervisor

def boot : Supervisor where
  units := []
  starting := []
  queue := []
  dispatcher := .idle
  runners := fun _ => none
  nextPid := 1
  clock := 0
  stopped := fun _ => false
  stopTime := fun _ => 0
  revived := []
  prevented := []

def freeSlot (s : Supervisor) : Option Nat := (List.range maxDaemons).find? fun k => (s.runners k).isNone

def supervised (u : UnitEntry) : Bool := u.kind = .daemon || u.restart ≠ .no

def setRunner (s : Supervisor) (k : Nat) (r : Option Runner) : Supervisor :=
  { s with runners := Function.update s.runners k r }

section

variable {s : Supervisor} {k k' : Nat} {r r' : Runner} {o : Option Runner}

theorem runners_setRunner (h : (s.setRunner k o).runners k' = some r') :
    k' = k ∧ o = some r' ∨ k' ≠ k ∧ s.runners k' = some r' := by
  by_cases heq : k' = k
  · subst heq
    exact .inl ⟨rfl, by simpa [setRunner] using h⟩
  · exact .inr ⟨heq, by simpa [setRunner, heq] using h⟩

theorem runners_setRunner_other (hr : s.runners k = o) (ho : o ≠ some r') (hk : s.runners k' = some r')
    (q : Option Runner) : (s.setRunner k q).runners k' = some r' := by
  have hne : k' ≠ k := by
    rintro rfl
    exact ho (hr.symm.trans hk)
  simpa [setRunner, hne] using hk

theorem unique_setRunner
    (h : ∀ k₁ k₂ r₁ r₂, s.runners k₁ = some r₁ → s.runners k₂ = some r₂ → r₁.name = r₂.name → k₁ = k₂)
    (hsingle : ∀ k' r', s.runners k' = some r' → r'.name ≠ r.name) :
    ∀ k₁ k₂ r₁ r₂, (s.setRunner k (some r)).runners k₁ = some r₁ → (s.setRunner k (some r)).runners k₂ = some r₂ →
      r₁.name = r₂.name → k₁ = k₂ := by
  intro k₁ k₂ r₁ r₂ h₁ h₂ heq
  rcases runners_setRunner h₁ with ⟨rfl, ⟨⟩⟩ | ⟨-, hold₁⟩
  · rcases runners_setRunner h₂ with ⟨rfl, -⟩ | ⟨-, hold₂⟩
    · rfl
    · exact absurd heq.symm (hsingle k₂ r₂ hold₂)
  · rcases runners_setRunner h₂ with ⟨rfl, ⟨⟩⟩ | ⟨-, hold₂⟩
    · exact absurd heq (hsingle k₁ r₁ hold₁)
    · exact h k₁ k₂ r₁ r₂ hold₁ hold₂ heq

end

def restarts (policy : RestartPolicy) (code : Int) : Bool :=
  policy = .always || (policy = .onFailure && code ≠ 0)

def stepRunner (s : Supervisor) (k : Nat) (r : Runner) : RunnerEvent → Option Supervisor
  | .info =>
    match r.phase with
    | .starting =>
      match s.units.lookup r.name with
      | none => some (s.setRunner k none)
      | some u => some (s.setRunner k (some { r with phase := .reading u.restart u.path }))
    | _ => none
  | .readFails =>
    match r.phase with
    | .reading .. => some { s.setRunner k none with units := s.units.markFailed r.name "read" }
    | _ => none
  | .readDone =>
    match r.phase with
    | .reading policy path =>
      some { s.setRunner k (some { r with phase := .registered policy path s.nextPid }) with
             nextPid := s.nextPid + 1 }
    | _ => none
  | .markRunning =>
    match r.phase with
    | .registered policy path pid =>
      some { s.setRunner k (some { r with phase := .running policy path pid }) with
             units := s.units.markRunning r.name pid
             revived := if s.stopped r.name then s.revived ++ [r.name] else s.revived }
    | _ => none
  | .instantiateFails =>
    match r.phase with
    | .running _ path _ =>
      if path.endsWith ".cwasm" then none
      else some { s.setRunner k none with units := s.units.markFailed r.name "instantiate" }
    | _ => none
  | .childExits code =>
    match r.phase with
    | .running policy _ pid => some (s.setRunner k (some { r with phase := .ended policy pid code }))
    | _ => none
  | .takeStop =>
    match r.phase with
    | .ended policy pid code =>
      let t := s.units.takeStopRequested r.name
      let next := if t.1 || !restarts policy code then .exiting pid code else .retrying pid
      some { s.setRunner k (some { r with phase := next }) with
             units := t.2
             prevented := if t.1 && restarts policy code && s.stopTime r.name < r.since then s.prevented ++ [r.name]
               else s.prevented }
    | _ => none
  | .markExited =>
    match r.phase with
    | .exiting _ code => some { s.setRunner k none with units := s.units.markExited r.name code }
    | _ => none
  | .markRestarting =>
    match r.phase with
    | .retrying _ =>
      some { s.setRunner k (some { r with phase := .backoff }) with units := s.units.markRestarting r.name }
    | _ => none
  | .wake =>
    match r.phase with
    | .backoff => some (s.setRunner k (some { r with phase := .starting }))
    | _ => none

def step (s : Supervisor) : ServiceEvent → Option Supervisor
  | .register c => some { s with units := s.units.register c }
  | .start name =>
    match s.units.startCheck name with
    | .error _ => some s
    | .ok _ =>
      some { s with
             starting := s.starting ++ [(name, s.clock)]
             clock := s.clock + 1
             stopped := Function.update s.stopped name false }
  | .push x =>
    if x ∈ s.starting then some { s with starting := s.starting.erase x, queue := s.queue ++ [.start x.1 x.2] }
    else none
  | .stop name =>
    match s.units.stop name with
    | .error _ => some s
    | .ok units =>
      some { s with
             units := units
             clock := s.clock + 1
             stopped := Function.update s.stopped name true
             stopTime := Function.update s.stopTime name s.clock }
  -- A request to persist a unit or to reload the files.
  | .request req =>
    match req with
    | .start .. => none
    | req => some { s with queue := s.queue ++ [req] }
  | .take =>
    match s.dispatcher, s.queue with
    | .idle, req :: rest => some { s with dispatcher := .taken req, queue := rest }
    | _, _ => none
  | .dispatch =>
    match s.dispatcher with
    | .taken (.start name since) =>
      match s.units.lookup name with
      | none => some { s with dispatcher := .idle }
      | some u =>
        if supervised u then
          match s.freeSlot with
          | none => some { s with dispatcher := .noSlot name }
          | some k => some { s.setRunner k (some ⟨name, .starting, since⟩) with dispatcher := .idle }
        else some { s with dispatcher := .reading name }
    | .taken (.persist _) => some { s with dispatcher := .idle }
    | .taken .reload => some { s with units := s.units.retainActive, dispatcher := .reloading }
    | _ => none
  | .markNoSlot =>
    match s.dispatcher with
    | .noSlot name => some { s with units := s.units.markFailed name "noslot", dispatcher := .idle }
    | _ => none
  -- The file cannot be read, or not instantiated.
  | .inlineFails reason =>
    match s.dispatcher with
    | .reading name => some { s with units := s.units.markFailed name reason, dispatcher := .idle }
    | _ => none
  | .inlineRegister =>
    match s.dispatcher with
    | .reading name => some { s with dispatcher := .registered name s.nextPid, nextPid := s.nextPid + 1 }
    | _ => none
  | .inlineMark =>
    match s.dispatcher with
    | .registered name pid => some { s with units := s.units.markRunning name pid, dispatcher := .running name pid }
    | _ => none
  | .inlineExits code =>
    match s.dispatcher with
    | .running name pid => some { s with dispatcher := .ended name pid code }
    | _ => none
  | .inlineDone =>
    match s.dispatcher with
    | .ended name _ code => some { s with units := s.units.markExited name code, dispatcher := .idle }
    | _ => none
  -- The units of the files have been registered again one by one.
  | .reloadDone =>
    match s.dispatcher with
    | .reloading => some { s with dispatcher := .idle }
    | _ => none
  | .runner k e =>
    match s.runners k with
    | none => none
    | some r => s.stepRunner k r e

end Supervisor

/-- The dispatcher is executing the unit as process `pid`. -/
def Dispatcher.Executes (d : Dispatcher) (name : String) (pid : Nat) : Prop :=
  d = .running name pid ∨ ∃ code, d = .ended name pid code

/-- The dispatcher is busy with the unit: it has decided to execute it. -/
def Dispatcher.inline : Dispatcher → Option String
  | .reading name | .registered name _ | .running name _ | .ended name _ _ => some name
  | .idle | .taken _ | .noSlot _ | .reloading => none

end Ruos.Service
