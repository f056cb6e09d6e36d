import Mathlib
import Ruos.Lib.Mailbox

/-! The single-slot queues of `wasm/exec_queue.rs` and `wasm/pipeline.rs`, with the futures of those who post requests
and the worker that executes them. Every step is one critical section or one access to an atomic. -/
namespace Ruos.Wasm

open Lib Option Function

structure ExecSlot where
  path : String
  argv : List (List UInt8)
  cwd : String
  termPts : Nat
deriving DecidableEq

structure PipeRequest where
  stages : List (String × List (List UInt8))
  cwd : String
  termPts : Nat
deriving DecidableEq

/-- A request with a number that is not in the code. -/
structure Job (ρ : Type) where
  id : Nat
  request : ρ
deriving DecidableEq

inductive Poster (ρ : Type)
  | idle
  /-- Clear `done`. -/
  | fresh (j : Job ρ)
  /-- Clear `result`. -/
  | cleared (j : Job ρ)
  /-- Put the request into the slot. -/
  | reset (j : Job ρ)
  /-- Take the waker of the worker and wake it. -/
  | posted (id : Nat)
  /-- Load `done`. -/
  | checking (id : Nat)
  /-- Load `result` and return it. -/
  | ready (id : Nat)
  /-- Leave a waker and return. -/
  | leaving (id : Nat)
  | parked (id : Nat)
deriving DecidableEq

inductive Worker (ρ : Type)
  /-- Look into the slot. -/
  | polling
  /-- Leave a waker and return. -/
  | leaving
  | parked
  | executing (j : Job ρ)
  /-- Store the result. -/
  | storing (id : Nat) (code : Int)
  /-- Set `done`. -/
  | finishing (id : Nat)
  /-- Take the waker of the poster and wake it. -/
  | notifying (id : Nat)
deriving DecidableEq

/-- A task is woken if its executor is about to poll it. The last three fields are not in the code: the number of
requests so far, the exit codes of those that were executed, and those that the futures returned. -/
structure JobQueue (ρ : Type) where
  pending : Option (Job ρ)
  done : Bool
  result : Int
  shellWaker : Option Nat
  workerWaker : Bool
  worker : Worker ρ
  workerWoken : Bool
  posters : Nat → Poster ρ
  posterWoken : Nat → Bool
  next : Nat
  executed : List (Nat × Int)
  resolved : List (Nat × Int)

inductive JobStep (ρ : Type)
  | post (task : Nat) (r : ρ)
  | advance (task : Nat)
  | poll (task : Nat)
  /-- Someone else wakes a task. -/
  | rouse (task : Nat)
  | work
  /-- The execution of a request ends. -/
  | exit (code : Int)
  | pollWorker
  | rouseWorker
deriving DecidableEq

namespace JobQueue

variable {ρ : Type}

def new (ρ : Type) : JobQueue ρ where
  pending := none
  done := false
  result := 0
  shellWaker := none
  workerWaker := false
  worker := .polling
  workerWoken := false
  posters := fun _ => .idle
  posterWoken := fun _ => false
  next := 0
  executed := []
  resolved := []

def setPoster (s : JobQueue ρ) (t : Nat) (p : Poster ρ) : JobQueue ρ :=
  { s with posters := Function.update s.posters t p }

@[simp] theorem posters_setPoster_self (s : JobQueue ρ) (t : Nat) (p : Poster ρ) : (s.setPoster t p).posters t = p :=
  update_self _ _ _

@[simp] theorem posters_setPoster_of_ne {t t' : Nat} (hne : t' ≠ t) (s : JobQueue ρ) (p : Poster ρ) :
    (s.setPoster t p).posters t' = s.posters t' := update_of_ne hne _ _

def advance (s : JobQueue ρ) (t : Nat) : Option (JobQueue ρ) :=
  match s.posters t with
  | .idle | .parked _ => none
  | .fresh j => some { s.setPoster t (.cleared j) with done := false }
  | .cleared j => some { s.setPoster t (.reset j) with result := 0 }
  | .reset j => some { s.setPoster t (.posted j.id) with pending := some j }
  | .posted id =>
    some { s.setPoster t (.checking id) with workerWoken := s.workerWoken || s.workerWaker, workerWaker := false }
  | .checking id => some (s.setPoster t (if s.done then .ready id else .leaving id))
  | .ready id => some { s.setPoster t .idle with resolved := s.resolved ++ [(id, s.result)] }
  | .leaving id => some { s.setPoster t (.parked id) with shellWaker := some t }

/-- `WaitForRequest` or `WaitForPipeline`, and what the worker does when the execution of a request has ended. -/
def work (s : JobQueue ρ) : Option (JobQueue ρ) :=
  match s.worker with
  | .parked | .executing _ => none
  | .polling =>
    match s.pending with
    | some j => some { s with pending := none, worker := .executing j }
    | none => some { s with worker := .leaving }
  | .leaving => some { s with workerWaker := true, worker := .parked }
  | .storing id code => some { s with result := code, worker := .finishing id }
  | .finishing id => some { s with done := true, worker := .notifying id }
  | .notifying _ =>
    match s.shellWaker with
    | some t =>
      some { s with shellWaker := none, posterWoken := Function.update s.posterWoken t true, worker := .polling }
    | none => some { s with worker := .polling }

def step (s : JobQueue ρ) : JobStep ρ → Option (JobQueue ρ)
  | .post t r =>
    match s.posters t with
    | .idle => some { s.setPoster t (.fresh ⟨s.next, r⟩) with next := s.next + 1 }
    | _ => none
  | .advance t => s.advance t
  | .poll t =>
    if s.posterWoken t then
      match s.posters t with
      | .idle => some { s with posterWoken := Function.update s.posterWoken t false }
      | .parked id => some { s.setPoster t (.checking id) with posterWoken := Function.update s.posterWoken t false }
      | _ => none
    else none
  | .rouse t => some { s with posterWoken := Function.update s.posterWoken t true }
  | .work => s.work
  | .exit code =>
    match s.worker with
    | .executing j => some { s with worker := .storing j.id code, executed := s.executed ++ [(j.id, code)] }
    | _ => none
  | .pollWorker =>
    if s.workerWoken then
      match s.worker with
      | .parked => some { s with workerWoken := false, worker := .polling }
      | .executing _ => some { s with workerWoken := false }
      | _ => none
    else none
  | .rouseWorker => some { s with workerWoken := true }

/-- The future has put its request into the slot and has not yet looked for the waker of the worker. -/
def posting : Poster ρ → Bool
  | .posted _ => true
  | _ => false

def consumer : Worker ρ → Consumer
  | .leaving => .leaving
  | .parked => .parked
  | _ => .running

def mailbox (s : JobQueue ρ) : Mailbox (Option (Job ρ)) where
  store := s.pending
  waker := s.workerWaker
  woken := s.workerWoken
  consumer := consumer s.worker
  posting t := posting (s.posters t)

def mailStep (s : JobQueue ρ) : JobStep ρ → Option (MailStep (Job ρ))
  | .advance t =>
    match s.posters t with
    | .reset j => some (.push t j)
    | .posted _ => some (.wake t)
    | _ => none
  | .work =>
    match s.worker with
    | .polling => some .pop
    | .leaving => some .park
    | _ => none
  | .pollWorker => some .run
  | .rouseWorker => some .rouse
  | _ => none

theorem posting_setPoster (s : JobQueue ρ) (t : Nat) (p : Poster ρ) :
    (fun t' => posting ((s.setPoster t p).posters t')) = update s.mailbox.posting t (posting p) := by
  funext t'
  by_cases heq : t' = t
  · subst heq
    simp [setPoster]
  · simp [setPoster, mailbox, update_of_ne heq]

variable {s s' : JobQueue ρ}

theorem mailbox_congr {t : Nat} {p : Poster ρ} (hposters : s'.posters = update s.posters t p)
    (hrest : { s'.mailbox with posting := s.mailbox.posting } = s.mailbox) (h : posting p = posting (s.posters t)) :
    s'.mailbox = s.mailbox := by
  have hpost : s'.mailbox.posting = s.mailbox.posting := by
    change (fun t' => posting (s'.posters t')) = _
    rw [hposters]
    refine (posting_setPoster s t p).trans ?_
    rw [h]
    exact update_eq_self t s.mailbox.posting
  rw [← hrest, ← hpost]

theorem mailbox_advance {t : Nat} (h : s.advance t = some s') :
    Mailbox.Moves .slot s.mailbox s'.mailbox (s.mailStep (.advance t)) := by
  simp only [advance] at h
  cases hp : s.posters t <;> simp only [hp] at h <;> cases h <;>
    simp only [mailStep, hp, Mailbox.Moves]
  case reset j =>
    have hfree : s.mailbox.posting t = false := by simp [mailbox, posting, hp]
    have hset := posting_setPoster s t (.posted j.id)
    simp only [Mailbox.step, hfree, Bool.false_eq_true, if_false, some.injEq]
    simp only [mailbox, Mailbox.pushed, setPoster, Store.slot, Mailbox.mk.injEq, true_and]
    exact hset.symm
  case posted id =>
    have hposting : s.mailbox.posting t = true := by simp [mailbox, posting, hp]
    have hset := posting_setPoster s t (.checking id)
    simp only [Mailbox.step, hposting, if_true, some.injEq]
    simp only [mailbox, Mailbox.notified, setPoster, Mailbox.mk.injEq, true_and]
    exact hset.symm
  case checking id =>
    have hnot : posting (if s.done then Poster.ready id else Poster.leaving id : Poster ρ) = posting (s.posters t) := by
      rw [hp]
      split_ifs <;> rfl
    exact mailbox_congr rfl rfl hnot
  all_goals exact mailbox_congr rfl rfl (by rw [hp]; rfl)

theorem mailbox_work (h : s.work = some s') : Mailbox.Moves .slot s.mailbox s'.mailbox (s.mailStep .work) := by
  simp only [work] at h
  cases hw : s.worker <;> simp only [hw, some.injEq, reduceCtorEq] at h
  case polling =>
    have hrun : s.mailbox.consumer = .running := by simp [mailbox, consumer, hw]
    simp only [mailStep, hw, Mailbox.Moves, Mailbox.step, hrun, if_true]
    cases hpend : s.pending with
    | none | some j =>
      simp only [hpend] at h
      cases h
      simp [mailbox, Store.slot, hpend, consumer, hw]
  case leaving =>
    subst h
    simp [mailStep, hw, Mailbox.Moves, Mailbox.step, mailbox, consumer]
  case notifying id =>
    simp only [mailStep, hw, Mailbox.Moves]
    cases hshell : s.shellWaker <;> simp only [hshell] at h <;> cases h <;>
      simp [mailbox, consumer, hw]
  all_goals
    subst h
    simp [mailStep, Mailbox.Moves, mailbox, consumer, hw]

theorem simulates_mailbox (ρ : Type) : Mailbox.Simulates .slot step (@mailbox ρ) mailStep := by
  intro s e s' h
  cases e with
  | advance t => exact mailbox_advance h
  | work => exact mailbox_work h
  | post t r =>
    simp only [step] at h
    cases hp : s.posters t <;> simp only [hp, some.injEq, reduceCtorEq] at h
    subst h
    exact mailbox_congr rfl rfl (by rw [hp]; rfl)
  | poll t =>
    simp only [step] at h
    split_ifs at h
    cases hp : s.posters t <;> simp only [hp] at h <;> cases h
    · rfl
    · exact mailbox_congr rfl rfl (by rw [hp]; rfl)
  | rouse | rouseWorker =>
    cases h
    rfl
  | exit code =>
    simp only [step] at h
    cases hw : s.worker <;> simp only [hw, some.injEq, reduceCtorEq] at h
    subst h
    simp [mailStep, Mailbox.Moves, mailbox, consumer, hw]
  | pollWorker =>
    simp only [step] at h
    split_ifs at h with hwoken
    cases hw : s.worker <;> simp only [hw] at h <;> cases h <;>
      simp [mailStep, Mailbox.Moves, Mailbox.step, mailbox, consumer, hw, hwoken]

end JobQueue
end Ruos.Wasm
