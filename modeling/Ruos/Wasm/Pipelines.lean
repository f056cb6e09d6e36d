import Ruos.Lib.Sums
import Ruos.Wasm.JobRuns

/-! The requests posted to the pipeline worker, in runs in which the futures take turns and in one in which they do
not. -/
namespace Ruos.Wasm

open Lib Function Option JobQueue Finset

/-- A bound on how much a future still has to do, and others because of it. -/
def Poster.weight {ρ : Type} : Poster ρ → Nat
  | .idle => 0
  | .ready _ => 1
  | .parked _ => 10
  | .leaving _ => 11
  | .checking _ => 12
  | .posted _ => 16
  | .reset _ => 37
  | .cleared _ => 38
  | .fresh _ => 39

def Worker.weight {ρ : Type} : Worker ρ → Nat
  | .parked => 2
  | .leaving => 3
  | .polling => 4
  | .notifying _ => 15
  | .finishing _ => 16
  | .storing .. => 17
  | .executing _ => 18

def wakeWeight (woken : Bool) : Nat := if woken then 3 else 0

theorem wakeWeight_le (woken : Bool) : wakeWeight woken ≤ 3 := by
  cases woken <;> decide

namespace JobQueue

variable {ρ : Type} {s s' : JobQueue ρ} {t k n : Nat} {e : JobStep ρ}

/-- The tasks from `n` on have nothing to do with the queue. -/
structure Within (s : JobQueue ρ) (n : Nat) : Prop where
  posters : ∀ t, s.posters t ≠ .idle → t < n
  woken : ∀ t, s.posterWoken t = true → t < n
  waker : ∀ t, s.shellWaker = some t → t < n

def weight (n : Nat) (s : JobQueue ρ) : Nat :=
  ∑ t ∈ Finset.range n, (s.posters t).weight + ∑ t ∈ Finset.range n, wakeWeight (s.posterWoken t) +
    s.pending.elim 0 (fun _ => 20) + s.worker.weight + wakeWeight s.workerWoken

section

variable (h : s.Within n)
include h

theorem Within.mono {m : Nat} (hle : n ≤ m) : s.Within m :=
  ⟨fun t ht => (h.posters t ht).trans_le hle, fun t ht => (h.woken t ht).trans_le hle,
    fun t ht => (h.waker t ht).trans_le hle⟩

theorem Within.update (ht : t < n) {p : Poster ρ} (hposters : s'.posters = update s.posters t p)
    (hwoken : s'.posterWoken = s.posterWoken) (hwaker : s'.shellWaker = s.shellWaker ∨ s'.shellWaker = some t) :
    s'.Within n := by
  refine ⟨fun t' ht' => ?_, fun t' ht' => h.woken t' (hwoken ▸ ht'), fun t' ht' => ?_⟩
  · by_cases heq : t' = t
    · rwa [heq]
    · rw [hposters, update_of_ne heq] at ht'
      exact h.posters t' ht'
  · rcases hwaker with hsame | hset
    · exact h.waker t' (hsame ▸ ht')
    · rwa [← some.inj (hset.symm.trans ht')]

theorem advance_decreases (hstep : s.advance t = some s') : s'.Within n ∧ s'.weight n < s.weight n := by
  have hlt : t < n := by
    refine h.posters t fun hidle => ?_
    simp [advance, hidle] at hstep
  have hsum := sum_update_add Poster.weight s.posters (mem_range.mpr hlt) (s'.posters t)
  have hwake := wakeWeight_le (s.workerWoken || s.workerWaker)
  simp only [advance] at hstep
  cases hp : s.posters t <;> simp only [hp, some.injEq, reduceCtorEq] at hstep hsum <;> subst hstep
  case fresh | cleared | reset | posted | ready =>
    refine ⟨h.update hlt rfl rfl (.inl rfl), ?_⟩
    simp only [weight, setPoster, update_self, Poster.weight, elim_some] at hsum ⊢
    omega
  case checking k =>
    have hle : (if s.done then Poster.ready k else Poster.leaving k : Poster ρ).weight ≤ 11 := by
      split_ifs <;> simp [Poster.weight]
    refine ⟨h.update hlt rfl rfl (.inl rfl), ?_⟩
    have hold : (Poster.checking k : Poster ρ).weight = 12 := rfl
    simp only [weight, setPoster, update_self] at hsum ⊢
    omega
  case leaving =>
    refine ⟨h.update hlt rfl rfl (.inr rfl), ?_⟩
    simp only [weight, setPoster, update_self, Poster.weight] at hsum ⊢
    omega

theorem poll_decreases (hstep : s.step (.poll t) = some s') : s'.Within n ∧ s'.weight n < s.weight n := by
  simp only [step] at hstep
  split_ifs at hstep with hwoken
  have hlt := h.woken t hwoken
  have hsum := sum_update_add wakeWeight s.posterWoken (mem_range.mpr hlt) false
  have hwithin : ∀ t', update s.posterWoken t false t' = true → t' < n := by
    intro t' ht'
    by_cases heq : t' = t
    · rwa [heq]
    · rw [update_of_ne heq] at ht'
      exact h.woken t' ht'
  have hthree : wakeWeight true = 3 := rfl
  have hzero : wakeWeight false = 0 := rfl
  rw [hwoken] at hsum
  cases hp : s.posters t <;> simp only [hp, some.injEq, reduceCtorEq] at hstep <;> subst hstep
  case idle =>
    refine ⟨{ h with woken := hwithin }, ?_⟩
    simp only [weight]
    omega
  case parked k =>
    have hposter := sum_update_add Poster.weight s.posters (mem_range.mpr hlt) (.checking k)
    have hmoved : (s.setPoster t (.checking k)).Within n := h.update hlt rfl rfl (.inl rfl)
    rw [hp] at hposter
    refine ⟨⟨hmoved.posters, hwithin, h.waker⟩, ?_⟩
    simp only [weight, setPoster, Poster.weight] at hposter ⊢
    omega

theorem work_decreases (hstep : s.work = some s') : s'.Within n ∧ s'.weight n < s.weight n := by
  simp only [work] at hstep
  cases hw : s.worker <;> simp only [hw, some.injEq, reduceCtorEq] at hstep
  case polling =>
    cases hpend : s.pending <;> simp only [hpend] at hstep <;> cases hstep <;>
      refine ⟨{ h with }, ?_⟩ <;>
      simp only [weight, hw, hpend, Worker.weight, elim_some, elim_none] <;> omega
  case notifying k =>
    cases hshell : s.shellWaker with
    | none =>
      simp only [hshell] at hstep
      cases hstep
      refine ⟨{ h with waker := by simp }, ?_⟩
      simp only [weight, hw, Worker.weight]
      omega
    | some t =>
      simp only [hshell] at hstep
      cases hstep
      have hlt := h.waker t hshell
      have hsum := sum_update_add wakeWeight s.posterWoken (mem_range.mpr hlt) true
      have hwake := wakeWeight_le true
      refine ⟨⟨h.posters, fun t' ht' => ?_, by simp⟩, ?_⟩
      · by_cases heq : t' = t
        · rwa [heq]
        · exact h.woken t' ((update_of_ne heq _ _).symm.trans ht')
      · simp only [weight, hw, Worker.weight]
        omega
  all_goals
    subst hstep
    refine ⟨{ h with }, ?_⟩
    simp only [weight, hw, Worker.weight]
    omega

theorem internal_decreases (he : Internal e) (hstep : s.step e = some s') :
    s'.Within n ∧ s'.weight n < s.weight n := by
  cases e with
  | post | rouse | rouseWorker => exact he.elim
  | advance t => exact advance_decreases h hstep
  | poll t => exact poll_decreases h hstep
  | work => exact work_decreases h hstep
  | exit code =>
    simp only [step] at hstep
    cases hw : s.worker <;> simp only [hw, some.injEq, reduceCtorEq] at hstep
    subst hstep
    refine ⟨{ h with }, ?_⟩
    simp only [weight, hw, Worker.weight]
    omega
  | pollWorker =>
    simp only [step] at hstep
    split_ifs at hstep with hwoken
    cases hw : s.worker <;> simp only [hw] at hstep <;> cases hstep <;>
      refine ⟨{ h with }, ?_⟩ <;>
      simp only [weight, hw, hwoken, wakeWeight, Worker.weight, if_true, Bool.false_eq_true, if_false] <;> omega

end

theorem Orderly.idle_of_quiescent (h : s.Orderly) (hq : s.Quiescent) (t : Nat) : s.posters t = .idle := by
  have hadvance : ∀ t, s.advance t = none := fun t => hq (.advance t) trivial
  have hpoll := fun t => hq (.poll t) trivial
  have hwork : s.work = none := hq .work trivial
  have hexit := hq (.exit 0) trivial
  have hpollWorker := hq .pollWorker trivial
  simp only [JobQueue.step] at hpoll hexit hpollWorker
  have hposters : ∀ t, s.posters t = .idle ∨ ∃ k, s.posters t = .parked k := by
    intro t
    have hnone := hadvance t
    cases hp : s.posters t <;> simp [JobQueue.advance, hp] at hnone ⊢
  have hworker : s.worker = .parked := by
    cases hw : s.worker with
    | parked => rfl
    | executing => simp [hw] at hexit
    | polling => cases hpend : s.pending <;> simp [JobQueue.work, hw, hpend] at hwork
    | notifying => cases hshell : s.shellWaker <;> simp [JobQueue.work, hw, hshell] at hwork
    | _ => simp [JobQueue.work, hw] at hwork
  have hworkerWoken : s.workerWoken = false := by
    by_contra hwoken
    simp [hworker, hwoken] at hpollWorker
  rcases hposters t with hidle | ⟨k, hp⟩
  · exact hidle
  obtain ⟨-, hstage, hwake, -⟩ := h.turn.of_inFlight hp (by rintro ⟨⟩)
  have hwoken : s.posterWoken t = false := by
    by_contra hwoken
    have hnone := hpoll t
    simp [hp, hwoken] at hnone
  exfalso
  cases hstage with
  | waiting j _ hpend =>
    have hconsumer : s.mailbox.consumer = .parked := by simp [mailbox, consumer, hworker]
    have hholds : s.mailbox.Holds .slot := by simp [Mailbox.Holds, mailbox, Store.slot, hpend]
    rcases h.awake.request (by rw [hconsumer]; decide) hholds with hwoken' | ⟨t', ht'⟩
    · cases hworkerWoken.symm.trans hwoken'
    · simp only [mailbox] at ht'
      rcases hposters t' with hidle | ⟨k', hp'⟩
      · simp [hidle, posting] at ht'
      · simp [hp', posting] at ht'
  | executing _ _ _ hw | storing _ _ hw | finishing _ hw => cases hworker.symm.trans hw
  | finished _ _ hdone => cases hwoken.symm.trans (hwake ⟨hdone, by simp [hworker]⟩)

theorem Orderly.served (h : s.Orderly) (hwithin : s.Within n) : s.Served where
  once := h.numbered.once
  own := h.numbered.own
  ends := ⟨s.weight n, fun _ _ hes hrun =>
    exec_length_le (fun _ _ _ h he hstep => internal_decreases h he hstep) hwithin hes hrun⟩
  all hq k hk := by
    rcases h.numbered.accounted k hk with ⟨t, ht⟩ | ⟨code, hcode⟩
    · rw [h.idle_of_quiescent hq] at ht
      cases ht
    · exact ⟨code, h.numbered.own _ hcode, hcode⟩

end JobQueue

end Ruos.Wasm
