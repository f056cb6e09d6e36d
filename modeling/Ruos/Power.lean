import Ruos.Lib.Run

/-! Deferred poweroff and reboot: the pending cell, the calls that any core makes on it, and the enforcement tasks. -/
namespace Ruos.Power

open Lib

inductive PendingKind where
  | poweroff
  | reboot
  deriving DecidableEq

structure Pending where
  kind : PendingKind
  deadlineTick : Nat
  deriving DecidableEq

/-- Where a call of `request` is. -/
inductive Call where
  | idle
  | asked (p : Pending)
  | stored (p : Pending)
  | refused
  | accepted
  | dropped
  deriving DecidableEq

/-- The cell holds the number of the call that filled it beside what the source stores. -/
structure Machine where
  ticks : Nat := 0
  pending : Option (Pending × Nat) := none
  calls : Nat → Call := fun _ => .idle
  /-- The deadlines of the enforcement tasks that are alive. -/
  tasks : List Nat := []
  cancelled : List Nat := []
  stopped : Option PendingKind := none

inductive Event where
  | tick
  | request (c : Nat) (kind : PendingKind) (countdownSec : Nat)
  | store (c : Nat)
  | spawn (c : Nat)
  | clear (c : Nat)
  | cancel
  | check (i : Nat)

def Call.InProgress : Call → Prop
  | asked _ | stored _ | refused => True
  | idle | accepted | dropped => False

namespace Machine

def setCall (s : Machine) (c : Nat) (x : Call) : Machine :=
  { s with calls := fun i => if i = c then x else s.calls i }

/-- `poweroff` and `reboot` do not return, and the tasks share one core: after a stop none of them runs. -/
def step (s : Machine) : Event → Option Machine
  | .tick => some { s with ticks := s.ticks + 1 }
  | .request c kind countdownSec =>
    match s.calls c with
    | .idle => some (s.setCall c (.asked ⟨kind, s.ticks + countdownSec * 100⟩))
    | _ => none
  | .store c =>
    match s.calls c with
    | .asked p =>
      if s.pending.isSome then some (s.setCall c .dropped)
      else some { s.setCall c (.stored p) with pending := some (p, c) }
    | _ => none
  | .spawn c =>
    match s.calls c with
    | .stored p =>
      if s.tasks.length < 2 then some { s.setCall c .accepted with tasks := s.tasks ++ [p.deadlineTick] }
      else some (s.setCall c .refused)
    | _ => none
  | .clear c =>
    match s.calls c with
    | .refused => some { s.setCall c .dropped with pending := none }
    | _ => none
  | .cancel =>
    some { s with
      pending := none
      cancelled := s.cancelled ++ (s.pending.map (·.2)).toList }
  | .check i =>
    match s.tasks[i]? with
    | some deadline =>
      if s.stopped = none ∧ deadline ≤ s.ticks then
        match s.pending with
        | some (p, _) =>
          if p.deadlineTick = deadline then some { s with stopped := some p.kind }
          else some { s with tasks := s.tasks.eraseIdx i }
        | none => some { s with tasks := s.tasks.eraseIdx i }
      else none
    | none => none

variable {s s' t : Machine} {e : Event} {es : List Event} {p : Pending} {c : Nat}

/-- The request in the cell is on its way to a task or has one, and has not been cancelled. -/
structure Kept (s : Machine) : Prop where
  served : ∀ p c, s.pending = some (p, c) →
    s.calls c = .stored p ∨ s.calls c = .refused ∨ s.calls c = .accepted ∧ p.deadlineTick ∈ s.tasks
  current : ∀ p c, s.pending = some (p, c) → c ∉ s.cancelled
  begun : ∀ c ∈ s.cancelled, s.calls c ≠ .idle ∧ ∀ p, s.calls c ≠ .asked p

/-- A task that ends finds another deadline in the cell, or none. -/
theorem Kept.erase (h : Kept s) {i deadline : Nat} (hi : s.tasks[i]? = some deadline)
    (hother : ∀ p c, s.pending = some (p, c) → p.deadlineTick ≠ deadline) :
    Kept { s with tasks := s.tasks.eraseIdx i } := by
  refine ⟨fun p c hp => ?_, h.current, h.begun⟩
  rcases h.served p c hp with hc | hc | ⟨hc, hmem⟩
  · exact .inl hc
  · exact .inr (.inl hc)
  · obtain ⟨j, hj⟩ := List.mem_iff_getElem?.mp hmem
    have hne : j ≠ i := fun heq => hother p c hp (by grind)
    exact .inr (.inr ⟨hc, List.mem_eraseIdx_iff_getElem?.mpr ⟨j, hne, hj⟩⟩)

theorem Kept.step (h : Kept s) (hstep : s.step e = some s') : Kept s' := by
  obtain ⟨hserved, hcurrent, hbegun⟩ := h
  cases e <;> simp only [Machine.step] at hstep
  case check i =>
    split at hstep
    case h_2 => cases hstep
    split_ifs at hstep
    split at hstep
    · split_ifs at hstep <;> cases hstep
      · exact ⟨hserved, hcurrent, hbegun⟩
      · exact Kept.erase ⟨hserved, hcurrent, hbegun⟩ ‹_› (by grind)
    · cases hstep
      exact Kept.erase ⟨hserved, hcurrent, hbegun⟩ ‹_› (by grind)
  case cancel =>
    cases hstep
    constructor <;> cases hp : s.pending <;> grind
  -- A call moves on: the one in the cell has been stored before, and a cancelled one too.
  all_goals
    repeat' split at hstep
    all_goals cases hstep
    all_goals constructor <;> grind [setCall]

theorem kept_of_exec (hrun : exec step {} es = some s) : Kept s :=
  exec_preserves (fun _ _ _ => Kept.step) ⟨by simp, by simp, by simp⟩ hrun

theorem dropped_step (h : s.calls c = .dropped) (hstep : s.step e = some s') : s'.calls c = .dropped := by
  cases e <;> simp only [step] at hstep
  all_goals
    repeat' split at hstep
    all_goals cases hstep
    all_goals grind [setCall]

/-- What takes a request out of the cell: a cancel, or the failure path of a call. -/
theorem pending_step (hp : s.pending = some (p, c)) (hstep : s.step e = some s') (hp' : s'.pending ≠ some (p, c)) :
    e = .cancel ∨ ∃ c', e = .clear c' ∧ s'.calls c' = .dropped := by
  cases e <;> simp only [step] at hstep
  all_goals
    repeat' split at hstep
    all_goals cases hstep
    all_goals grind [setCall]

theorem requests_enforced (hrun : exec step {} es = some s) :
    (∀ i s' k, s.step (.check i) = some s' → s'.stopped = some k →
      ∃ p c, s.pending = some (p, c) ∧ p.kind = k ∧ p.deadlineTick ≤ s.ticks ∧ c ∉ s.cancelled) ∧
    (∀ p c e s' es' t, s.pending = some (p, c) → s.step e = some s' → s'.pending ≠ some (p, c) →
      exec step s' es' = some t → t.calls c = .accepted → e = .cancel ∨ ∃ c' ≠ c, e = .clear c') ∧
    (∀ p c, s.pending = some (p, c) → (∀ c, ¬ (s.calls c).InProgress) → p.deadlineTick ∈ s.tasks) := by
  have h := kept_of_exec hrun
  refine ⟨fun i s' k hstep hk => ?_, fun p c e s' es' t hp hstep hp' hrest hacc => ?_, fun p c hp hquiet => ?_⟩
  · have := h.current
    simp only [step] at hstep
    grind
  · rcases pending_step hp hstep hp' with he | ⟨c', he, hdropped⟩
    · exact .inl he
    · refine .inr ⟨c', fun heq => ?_, he⟩
      have := exec_preserves (fun _ _ _ => dropped_step) hdropped hrest
      rw [heq, hacc] at this
      cases this
  · have hc := hquiet c
    rcases h.served p c hp with hs | hs | ⟨-, hmem⟩
    · rw [hs] at hc
      exact absurd trivial hc
    · rw [hs] at hc
      exact absurd trivial hc
    · exact hmem

/-- A request runs into its own deadline. -/
theorem request_runs_out : ∃ s s', exec step {} [.request 0 .reboot 0, .store 0, .spawn 0] = some s ∧
    s.step (.check 0) = some s' ∧ s'.stopped = some .reboot ∧
    ∃ p c, s.pending = some (p, c) ∧ p.kind = .reboot ∧ p.deadlineTick ≤ s.ticks ∧ c ∉ s.cancelled :=
  ⟨_, _, rfl, rfl, rfl, (@requests_enforced _ [.request 0 .reboot 0, .store 0, .spawn 0] rfl).1 0 _ _ rfl rfl⟩

/-- Two tasks of cancelled requests sleep when call 2, itself cancelled, is refused one. Call 3 fills the cell, a task
ends, call 3 gets its own, and then call 2 clears the cell. -/
theorem accepted_request_cleared : ∃ s s', exec step {}
      [.request 0 .reboot 0, .store 0, .spawn 0, .cancel, .request 1 .reboot 5, .store 1, .spawn 1, .cancel,
        .request 2 .reboot 7, .store 2, .cancel, .request 3 .poweroff 10, .store 3, .spawn 2, .check 0, .spawn 3] = some s ∧
    s.pending = some (⟨.poweroff, 1000⟩, 3) ∧ s.calls 3 = .accepted ∧ s.step (.clear 2) = some s' ∧ s'.pending = none ∧
    s'.calls 3 = .accepted ∧ 3 ∉ s'.cancelled :=
  ⟨_, _, rfl, rfl, rfl, rfl, rfl, rfl, by decide⟩

end Machine

end Ruos.Power
