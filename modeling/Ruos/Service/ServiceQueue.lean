import Ruos.Lib.Mailbox
import Ruos.Service.Supervisor

/-! `SERVICE_QUEUE` of `service/mod.rs`: those who post requests, and the dispatcher that waits for them. Every step is
one critical section. -/
namespace Ruos.Service

open Lib Option

/-- Where a call of `start`, `set_enabled` or `ruos_unit_reload` is. -/
inductive Caller
  | idle
  /-- It has looked at the registry and is about to queue its request. -/
  | checked (req : UnitReq)
  /-- It is about to take the waker of the dispatcher. -/
  | pushed
deriving DecidableEq

/-- The dispatcher is woken if its executor is about to poll it. -/
structure ServiceQueue where
  units : Units
  pending : List UnitReq
  workerWaker : Bool
  woken : Bool
  dispatcher : Consumer
  callers : Nat → Caller

inductive QueueStep
  | start (caller : Nat) (name : String)
  | setEnabled (caller : Nat) (name : String) (on : Bool)
  | unitReload (caller : Nat)
  | push (caller : Nat)
  | wake (caller : Nat)
  /-- The two steps of `WaitForServiceRequest`. -/
  | pop
  | leave
  | poll
  /-- Someone else wakes the dispatcher. -/
  | rouse
  /-- Any other change of the registry. -/
  | registry (us : Units)

namespace ServiceQueue

def new (us : Units) : ServiceQueue := ⟨us, [], false, false, .running, fun _ => .idle⟩

def setCaller (s : ServiceQueue) (p : Nat) (c : Caller) : ServiceQueue :=
  { s with callers := Function.update s.callers p c }

/-- The first step of a call, which ends here if there is nothing to queue. -/
def call (s : ServiceQueue) (p : Nat) (us : Units) (req : Option UnitReq) : Option ServiceQueue :=
  if s.callers p = .idle then
    some { s with units := us, callers := Function.update s.callers p (req.elim .idle .checked) }
  else none

def step (s : ServiceQueue) : QueueStep → Option ServiceQueue
  | .start p name =>
    s.call p s.units (match s.units.startCheck name with
      | .ok () => some (.start name 0)
      | .error _ => none)
  | .setEnabled p name on =>
    s.call p (s.units.modify name fun u => { u with enabled := on })
      (((s.units.lookup name).bind fun u => u.file).map fun _ => .persist name)
  | .unitReload p => s.call p s.units (some .reload)
  | .push p =>
    match s.callers p with
    | .checked req => some { s.setCaller p .pushed with pending := s.pending ++ [req] }
    | _ => none
  | .wake p =>
    match s.callers p with
    | .pushed => some { s.setCaller p .idle with workerWaker := false, woken := s.woken || s.workerWaker }
    | _ => none
  | .pop =>
    if s.dispatcher = .running then
      match s.pending with
      | _ :: rest => some { s with pending := rest }
      | [] => some { s with dispatcher := .leaving }
    else none
  | .leave =>
    if s.dispatcher = .leaving then some { s with workerWaker := true, dispatcher := .parked } else none
  | .poll =>
    if s.woken ∧ s.dispatcher ≠ .leaving then some { s with woken := false, dispatcher := .running } else none
  | .rouse => some { s with woken := true }
  | .registry us => some { s with units := us }

def mailbox (s : ServiceQueue) : Mailbox (List UnitReq) where
  store := s.pending
  waker := s.workerWaker
  woken := s.woken
  consumer := s.dispatcher
  posting p := s.callers p = .pushed

def mailStep (s : ServiceQueue) : QueueStep → Option (MailStep UnitReq)
  | .push p =>
    match s.callers p with
    | .checked req => some (.push p req)
    | _ => none
  | .wake p => some (.wake p)
  | .pop => some .pop
  | .leave => some .park
  | .poll => some .run
  | .rouse => some .rouse
  | _ => none

theorem posting_update (s : ServiceQueue) (p : Nat) (c : Caller) :
    (fun p' => decide (Function.update s.callers p c p' = .pushed)) =
      Function.update s.mailbox.posting p (decide (c = .pushed)) := by
  funext p'
  by_cases heq : p' = p
  · subst heq
    simp
  · simp [mailbox, Function.update_of_ne heq]

theorem mailbox_call {s s' : ServiceQueue} {p : Nat} {us : Units} {req : Option UnitReq}
    (h : s.call p us req = some s') : s'.mailbox = s.mailbox := by
  unfold call at h
  split_ifs at h with hidle
  cases h
  have hset : (fun p' => decide (Function.update s.callers p (req.elim .idle .checked) p' = .pushed)) =
      s.mailbox.posting := by
    have hposting : s.mailbox.posting p = false := by simp [mailbox, hidle]
    have hnew : decide (req.elim Caller.idle .checked = .pushed) = s.mailbox.posting p := by
      rw [hposting]
      cases req <;> rfl
    rw [posting_update, hnew, Function.update_eq_self]
  exact congrArg (fun x => (⟨_, _, _, _, x⟩ : Mailbox (List UnitReq))) hset

theorem simulates_mailbox : Mailbox.Simulates .queue step mailbox mailStep := by
  intro s e s' h
  cases e <;> simp only [step] at h
  case start | setEnabled | unitReload => exact mailbox_call h
  case push p =>
    cases hp : s.callers p <;> simp only [hp, some.injEq, reduceCtorEq] at h
    subst h
    have hfree : s.mailbox.posting p = false := by simp [mailbox, hp]
    simp only [mailStep, hp, Mailbox.Moves, Mailbox.step, hfree, Bool.false_eq_true, if_false, some.injEq]
    exact congrArg (fun x => (⟨_, _, _, _, x⟩ : Mailbox (List UnitReq))) (posting_update s p .pushed).symm
  case wake p =>
    cases hp : s.callers p <;> simp only [hp, some.injEq, reduceCtorEq] at h
    subst h
    have hposting : s.mailbox.posting p = true := by simp [mailbox, hp]
    simp only [mailStep, Mailbox.Moves, Mailbox.step, hposting, if_true, some.injEq]
    exact congrArg (fun x => (⟨_, _, _, _, x⟩ : Mailbox (List UnitReq))) (posting_update s p .idle).symm
  case pop =>
    split_ifs at h with hrun
    have hconsumer : s.mailbox.consumer = .running := hrun
    simp only [mailStep, Mailbox.Moves, Mailbox.step, hconsumer, if_true]
    cases hpend : s.pending <;> simp only [hpend] at h <;> cases h <;>
      simp [mailbox, Store.queue, hpend, hrun]
  case leave =>
    split_ifs at h with hleaving
    cases h
    exact if_pos hleaving
  case poll =>
    split_ifs at h with hready
    cases h
    exact if_pos hready
  case rouse | registry =>
    cases h
    rfl

end ServiceQueue
end Ruos.Service
