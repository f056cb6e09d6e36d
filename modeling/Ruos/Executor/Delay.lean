import Mathlib
import Ruos.Lib.Run

/-! The timers of one core in `executor/delay.rs`: the slots, the `Delay` futures that register in them, and the timer
interrupt that empties them. Every step is one critical section or one access to an atomic. -/
namespace Ruos.Executor

open Lib Option

/-- `SLOTS`. -/
def slotCount : Nat := 64

structure Slot where
  target : Nat
  waker : Nat
  gen : Nat
deriving DecidableEq

/-- What `poll` of a `Delay` does next. -/
inductive DelayPhase
  | idle
  /-- `poll` has seen a tick before the target: refresh the slot or find one. -/
  | registering (waker : Nat)
  /-- `poll` has seen the target: free the slot and return `Ready`. -/
  | freeing
  | ready
deriving DecidableEq

/-- Whether a poll has already returned `Pending` is not in the code. -/
structure Delay where
  target : Nat
  slot : Option (Fin slotCount × Nat)
  phase : DelayPhase
  polled : Bool
deriving DecidableEq

/-- How a poll came to return `Ready`: the target, the tick at that time, whether it was the first poll of the `Delay`,
and whether all slots were occupied. -/
structure Resolution where
  target : Nat
  time : Nat
  first : Bool
  full : Bool
deriving DecidableEq

/-- `GEN_COUNTER` and `TICKS` belong to all cores. The last field is not in the code: the polls that have returned
`Ready`. -/
structure Timers where
  slots : Fin slotCount → Option Slot
  genCounter : Nat
  ticks : Nat
  delays : Nat → Option Delay
  woken : List Nat
  resolutions : List Resolution

inductive TimerStep
  /-- `Delay::ticks`. -/
  | create (id n : Nat)
  /-- `poll` loads the tick counter. -/
  | poll (id waker : Nat)
  /-- The critical section of `poll`. -/
  | resume (id : Nat)
  | drop (id : Nat)
  /-- `timer_tick_core`, with a tick that `timer_handler` has loaded. -/
  | tick (now : Nat)
  /-- The first core advances the tick counter. -/
  | clock
  /-- A `Delay` on another core takes a generation. -/
  | elsewhere
deriving DecidableEq

namespace Timers

def new : Timers where
  slots := fun _ => none
  genCounter := 0
  ticks := 0
  delays := fun _ => none
  woken := []
  resolutions := []

def setSlot (s : Timers) (i : Fin slotCount) (e : Option Slot) : Timers :=
  { s with slots := Function.update s.slots i e }

def setDelay (s : Timers) (id : Nat) (d : Option Delay) : Timers :=
  { s with delays := Function.update s.delays id d }

def takeGen (s : Timers) : Timers := { s with genCounter := (s.genCounter + 1) % 2 ^ 64 }

/-- The registration of a `Delay`, if its slot still carries its generation. -/
def held (s : Timers) (d : Delay) : Option (Fin slotCount × Nat) :=
  d.slot.filter fun r => (s.slots r.1).any (·.gen == r.2)

/-- What `free_slot` does to the slots. -/
def freeSlot (s : Timers) (d : Delay) : Timers :=
  { s with
    slots :=
      match s.held d with
      | none => s.slots
      | some r => Function.update s.slots r.1 none }

def full (s : Timers) : Bool := (List.finRange slotCount).all fun i => (s.slots i).isSome

def freeIndex (s : Timers) : Option (Fin slotCount) := (List.finRange slotCount).find? fun i => (s.slots i).isNone

def resolve (s : Timers) (d : Delay) : Timers :=
  { s with resolutions := s.resolutions ++ [⟨d.target, s.ticks, !d.polled, s.full⟩] }

/-- The critical section of `poll` for a `Delay` whose target is not reached. -/
def register (s : Timers) (id : Nat) (d : Delay) (waker : Nat) : Timers :=
  match s.held d with
  | some r =>
    (s.setSlot r.1 (some ⟨d.target, waker, r.2⟩)).setDelay id (some { d with phase := .idle, polled := true })
  | none =>
    match s.freeIndex with
    | some i =>
      (s.setSlot i (some ⟨d.target, waker, s.genCounter⟩)).takeGen.setDelay id
        (some { d with slot := some (i, s.genCounter), phase := .idle, polled := true })
    | none => (s.resolve d).setDelay id (some { d with slot := none, phase := .ready })

def due (now : Nat) (e : Slot) : Bool := decide (e.target ≤ now)

def tickCore (s : Timers) (now : Nat) : Timers :=
  { s with
    slots := fun i => (s.slots i).filter fun e => !due now e
    woken := s.woken ++ ((List.finRange slotCount).filterMap fun i => (s.slots i).filter (due now)).map (·.waker) }

def step (s : Timers) : TimerStep → Option Timers
  | .create id n =>
    match s.delays id with
    | none => some (s.setDelay id (some ⟨min (s.ticks + n) (2 ^ 64 - 1), none, .idle, false⟩))
    | some _ => none
  | .poll id waker =>
    match s.delays id with
    | some d =>
      if d.phase = .idle then
        some (s.setDelay id (some { d with phase := if d.target ≤ s.ticks then .freeing else .registering waker }))
      else none
    | none => none
  | .resume id =>
    match s.delays id with
    | some d =>
      match d.phase with
      | .registering waker => some (s.register id d waker)
      | .freeing => some (((s.freeSlot d).resolve d).setDelay id (some { d with slot := none, phase := .ready }))
      | _ => none
    | none => none
  | .drop id =>
    match s.delays id with
    | some d => if d.phase = .idle ∨ d.phase = .ready then some ((s.freeSlot d).setDelay id none) else none
    | none => none
  | .tick now => if now ≤ s.ticks then some (s.tickCore now) else none
  | .clock => some { s with ticks := (s.ticks + 1) % 2 ^ 64 }
  | .elsewhere => some s.takeGen

inductive Transition (s : Timers) : TimerStep → Timers → Prop
  | create {id n} (hid : s.delays id = none) :
    Transition s (.create id n) (s.setDelay id (some ⟨min (s.ticks + n) (2 ^ 64 - 1), none, .idle, false⟩))
  | poll {id waker d} (hd : s.delays id = some d) (hphase : d.phase = .idle) :
    Transition s (.poll id waker)
      (s.setDelay id (some { d with phase := if d.target ≤ s.ticks then .freeing else .registering waker }))
  | refresh {id waker d r} (hd : s.delays id = some d) (hphase : d.phase = .registering waker)
      (hheld : s.held d = some r) :
    Transition s (.resume id)
      ((s.setSlot r.1 (some ⟨d.target, waker, r.2⟩)).setDelay id (some { d with phase := .idle, polled := true }))
  | enter {id waker d i} (hd : s.delays id = some d) (hphase : d.phase = .registering waker)
      (hheld : s.held d = none) (hfree : s.freeIndex = some i) :
    Transition s (.resume id)
      ((s.setSlot i (some ⟨d.target, waker, s.genCounter⟩)).takeGen.setDelay id
        (some { d with slot := some (i, s.genCounter), phase := .idle, polled := true }))
  | giveUp {id waker d} (hd : s.delays id = some d) (hphase : d.phase = .registering waker)
      (hheld : s.held d = none) (hfree : s.freeIndex = none) :
    Transition s (.resume id) ((s.resolve d).setDelay id (some { d with slot := none, phase := .ready }))
  | complete {id d} (hd : s.delays id = some d) (hphase : d.phase = .freeing) :
    Transition s (.resume id)
      (((s.freeSlot d).resolve d).setDelay id (some { d with slot := none, phase := .ready }))
  | drop {id d} (hd : s.delays id = some d) (hphase : d.phase = .idle ∨ d.phase = .ready) :
    Transition s (.drop id) ((s.freeSlot d).setDelay id none)
  | tick {now} (hnow : now ≤ s.ticks) : Transition s (.tick now) (s.tickCore now)
  | clock : Transition s .clock { s with ticks := (s.ticks + 1) % 2 ^ 64 }
  | elsewhere : Transition s .elsewhere s.takeGen

theorem transition_register {s : Timers} {id waker : Nat} {d : Delay} (hd : s.delays id = some d)
    (hphase : d.phase = .registering waker) : Transition s (.resume id) (s.register id d waker) := by
  unfold register
  cases hheld : s.held d with
  | some r => exact .refresh hd hphase hheld
  | none =>
    cases hfree : s.freeIndex with
    | some i => exact .enter hd hphase hheld hfree
    | none => exact .giveUp hd hphase hheld hfree

theorem transition_of_step {s s' : Timers} {e : TimerStep} (h : s.step e = some s') : Transition s e s' := by
  cases e with
  | create id n =>
    cases hid : s.delays id with
    | none =>
      simp only [step, hid, some.injEq] at h
      exact h ▸ .create hid
    | some d => simp [step, hid] at h
  | poll id waker =>
    cases hd : s.delays id with
    | none => simp [step, hd] at h
    | some d =>
      simp only [step, hd, ite_none_right_eq_some, some.injEq] at h
      exact h.2 ▸ .poll hd h.1
  | resume id =>
    cases hd : s.delays id with
    | none => simp [step, hd] at h
    | some d =>
      cases hphase : d.phase with
      | registering waker =>
        simp only [step, hd, hphase, some.injEq] at h
        exact h ▸ transition_register hd hphase
      | freeing =>
        simp only [step, hd, hphase, some.injEq] at h
        exact h ▸ .complete hd hphase
      | idle | ready => simp [step, hd, hphase] at h
  | drop id =>
    cases hd : s.delays id with
    | none => simp [step, hd] at h
    | some d =>
      simp only [step, hd, ite_none_right_eq_some, some.injEq] at h
      exact h.2 ▸ .drop hd h.1
  | tick now =>
    simp only [step, ite_none_right_eq_some, some.injEq] at h
    exact h.2 ▸ .tick h.1
  | clock => exact some.inj h ▸ .clock
  | elsewhere => exact some.inj h ▸ .elsewhere

end Timers
end Ruos.Executor
