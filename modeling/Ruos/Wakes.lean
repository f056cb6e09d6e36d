import Ruos.Service.ServiceQueue
import Ruos.Wasm.JobQueue

/-! Wakes of the three workers that wait for requests: the service dispatcher, the exec worker and the pipeline
worker. Each of them looks for a request before it leaves its waker, so a request that comes in between can be missed. -/
namespace Ruos

open Lib Service Wasm JobQueue

theorem serviceQueue_lostOnlyLate (us : Units) :
    Mailbox.LostOnlyLate .queue ServiceQueue.step ServiceQueue.mailbox ServiceQueue.mailStep (ServiceQueue.new us) := by
  refine ServiceQueue.simulates_mailbox.lostOnlyLate (Mailbox.Awake.new _ _) .leave fun s hleaving => ?_
  have hdispatcher : s.dispatcher = .leaving := hleaving
  exact ⟨rfl, by simp [ServiceQueue.step, hdispatcher]⟩

theorem jobQueue_lostOnlyLate (ρ : Type) :
    Mailbox.LostOnlyLate .slot step mailbox mailStep (new ρ) := by
  refine (simulates_mailbox ρ).lostOnlyLate (Mailbox.Awake.new _ _) .work fun s hleaving => ?_
  have hworker : s.worker = .leaving := by
    simp only [mailbox] at hleaving
    cases hw : s.worker <;> simp only [hw, consumer, reduceCtorEq] at hleaving
    rfl
  exact ⟨by simp [mailStep, hworker], by simp [step, work, hworker]⟩

/-- A worker misses no request as long as nobody looks for its waker in vain after it has found its queue empty. -/
theorem workers_lose_wakes_only_to_late_posts (us : Units) :
    Mailbox.LostOnlyLate .queue ServiceQueue.step ServiceQueue.mailbox ServiceQueue.mailStep (ServiceQueue.new us) ∧
      Mailbox.LostOnlyLate .slot JobQueue.step JobQueue.mailbox JobQueue.mailStep (JobQueue.new ExecSlot) ∧
      Mailbox.LostOnlyLate .slot JobQueue.step JobQueue.mailbox JobQueue.mailStep (JobQueue.new PipeRequest) :=
  ⟨serviceQueue_lostOnlyLate us, jobQueue_lostOnlyLate ExecSlot, jobQueue_lostOnlyLate PipeRequest⟩

/-- The worker finds nothing, a request is posted, and the worker leaves its waker too late. -/
def lateJob {ρ : Type} (r : ρ) : List (JobStep ρ) :=
  [.post 0 r, .advance 0, .advance 0, .work, .advance 0, .advance 0, .work]

theorem lateJob_lost {ρ : Type} (r : ρ) :
    ∃ s, exec step (new ρ) (lateJob r) = some s ∧ s.mailbox.Lost .slot := by
  refine ⟨_, rfl, rfl, rfl, ?_⟩
  rintro (hwoken | ⟨-, p, hp⟩)
  · cases hwoken
  · by_cases hzero : p = 0
    · subst hzero
      cases hp
    · simp [mailbox, setPoster, new, hzero, posting] at hp

def lateUnit : UnitEntry where
  name := "a"
  path := "/a"
  kind := .oneshot
  restart := .no
  after := []
  requires := []
  target := .manual
  enabled := false
  file := none
  status := .idle
  pid := none
  stopRequested := false

theorem posts_can_be_missed :
    (∃ s, exec ServiceQueue.step (.new [lateUnit]) [.start 0 "a", .pop, .push 0, .wake 0, .leave] = some s ∧
      s.mailbox.Lost .queue) ∧
    (∃ s, exec JobQueue.step (.new _) (lateJob (⟨"/a", [], "/", 0⟩ : ExecSlot)) = some s ∧ s.mailbox.Lost .slot) ∧
    ∃ s, exec JobQueue.step (.new _) (lateJob (⟨[("/a", [])], "/", 0⟩ : PipeRequest)) = some s ∧
      s.mailbox.Lost .slot := by
  refine ⟨⟨_, rfl, rfl, rfl, ?_⟩, lateJob_lost _, lateJob_lost _⟩
  rintro (hwoken | ⟨-, p, hp⟩)
  · cases hwoken
  · simp [ServiceQueue.mailbox, ServiceQueue.setCaller, ServiceQueue.new] at hp

end Ruos
