import Ruos.Wasm.ThreadCounts

/-! The counters of `wasm/wt/threads.rs`, and the end of a group of threads that is killed. -/
namespace Ruos.Wasm

open Lib Threads List

namespace Threads

variable {n : Nat} {s s' : Threads n} {c : Fin n} {e : ThreadStep n}

/-- The core is about to insert a fiber whose group has been poisoned since `run_one` has loaded the flag. -/
def overtaken (s : Threads n) (c : Fin n) : Bool :=
  match s.cores c with
  | ⟨.parking f, .none⟩ => s.poisoned f
  | _ => false

/-- No kill overtakes an insertion, and `expire_timeouts` reads a clock that is not at its end. -/
def InTime (s : Threads n) : ThreadStep n → Prop
  | .advance c => s.overtaken c = false
  | .expire _ => s.ticks < noDeadline
  | _ => True

instance (s : Threads n) : (e : ThreadStep n) → Decidable (s.InTime e)
  | .advance c => inferInstanceAs (Decidable (s.overtaken c = false))
  | .expire _ => inferInstanceAs (Decidable (s.ticks < noDeadline))
  | .take _ | .exit _ | .wait .. | .recheck .. | .sleep .. | .notify .. | .kill .. | .spawn .. | .created .. | .tick =>
    isTrue trivial

def Timely (s : Threads n) : Prop := s.timedWaiters = s.timedParked

theorem timedParked_congr (hw : s'.waitq = s.waitq) : s'.timedParked = s.timedParked := by
  simp only [timedParked, hw]

theorem Timely.congr (h : s.Timely) (hw : s'.waitq = s.waitq) (ht : s'.timedWaiters = s.timedWaiters) : s'.Timely := by
  unfold Timely
  rw [ht, timedParked_congr hw, h]

theorem timedParked_setShard (s : Threads n) (i : Fin waitqShards) (sh : ShardState) :
    (s.setShard i sh).timedParked + (s.waitq i).waiters.countP (·.timed) =
      s.timedParked + sh.waiters.countP (·.timed) := by
  have h := sum_update_add (fun sh : ShardState => sh.waiters.countP (·.timed)) s.waitq (Finset.mem_univ i) sh
  simp only [timedParked, setShard]
  exact h

variable {i : Fin waitqShards}

theorem Timely.setShard (h : s.Timely) {sh : ShardState} (hw : s'.waitq = (s.setShard i sh).waitq)
    (ht : s'.timedWaiters + (s.waitq i).waiters.countP (·.timed) = s.timedWaiters + sh.waiters.countP (·.timed)) :
    s'.Timely := by
  unfold Timely at h ⊢
  have hset := timedParked_setShard s i sh
  have hparked := timedParked_congr hw
  omega

variable {credits : List (Nat × Nat)}

theorem Timely.drain (h : s.Timely) {q : Waiter → Bool} {budget : Nat}
    (hw : s'.waitq = (s.setShard i ⟨(drain q budget (s.waitq i).waiters).2, credits⟩).waitq)
    (ht : s'.timedWaiters = s.timedWaiters - (Lib.drain q budget (s.waitq i).waiters).1.countP (·.timed)) :
    s'.Timely := by
  have hdrain := countP_drain q (·.timed) budget (s.waitq i).waiters
  have hset := timedParked_setShard s i ⟨(Lib.drain q budget (s.waitq i).waiters).2, credits⟩
  refine h.setShard hw ?_
  unfold Timely at h
  dsimp only at hset ⊢
  omega

theorem Timely.expireShard (h : s.Timely) {now : Nat} (hnow : now < noDeadline) (i : Fin waitqShards)
    (fs : List ThreadFiber) : (s.expireShard c now i fs).Timely := by
  refine h.drain rfl (congrArg (s.timedWaiters - ·) (countP_eq_length.mpr fun w hw => ?_).symm)
  have hle := of_decide_eq_true (drain_taken (p := fun w : Waiter => decide (w.deadline ≤ now)) hw)
  exact bne_iff_ne.mpr (by omega)

theorem Timely.insert (h : s.Timely) (c : Fin n) (f : ThreadFiber) : (s.insert c f).Timely := by
  simp only [Threads.insert]
  split
  · exact h.setShard rfl rfl
  · refine h.setShard rfl ?_
    simp only [setTimed, countP_append, countP_singleton]
    omega

/-- The group is poisoned, and none of its fibers waits in one of the first `i` shards. -/
def Clear (s : Threads n) (g i : Nat) : Prop :=
  (s.groups g).poisoned = true ∧ ∀ j : Fin waitqShards, j.val < i → ∀ w ∈ (s.waitq j).waiters, w.fiber.group ≠ some g

def CallOk (s : Threads n) : ThreadCall → Prop
  | .expiring now _ _ => now < noDeadline
  | .killing g i _ => s.Clear g i
  | .dropping f _ => ∀ g, f.group = some g → (s.groups g).poisoned = true
  | _ => True

/-- Groups stay poisoned, and no fiber of a poisoned group begins to wait. -/
structure Calm (s s' : Threads n) : Prop where
  poisoned : ∀ g, (s.groups g).poisoned = true → (s'.groups g).poisoned = true
  waiters : ∀ j, ∀ w ∈ (s'.waitq j).waiters, w ∈ (s.waitq j).waiters ∨ s.poisoned w.fiber = false

theorem Clear.calm {g i : Nat} (h : s.Clear g i) (hcalm : Calm s s') : s'.Clear g i := by
  refine ⟨hcalm.poisoned g h.1, fun j hj w hw hgroup => ?_⟩
  rcases hcalm.waiters j w hw with hold | hnew
  · exact h.2 j hj w hold hgroup
  · simp [poisoned, hgroup, h.1] at hnew

theorem CallOk.calm {call : ThreadCall} (h : s.CallOk call) (hcalm : Calm s s') : s'.CallOk call := by
  cases call with
  | none | waking | spawning => trivial
  | expiring now i fs => exact h
  | killing g i fs => exact Clear.calm h hcalm
  | dropping f kills => exact fun g hg => hcalm.poisoned g (h g hg)

theorem Calm.of_waitq (hp : ∀ g, (s.groups g).poisoned = true → (s'.groups g).poisoned = true)
    (hw : s'.waitq = s.waitq) : Calm s s' := ⟨hp, fun _ _ h => .inl (hw ▸ h)⟩

theorem Calm.drain {q : Waiter → Bool} {budget : Nat} (hg : s'.groups = s.groups)
    (hw : s'.waitq = (s.setShard i ⟨(Lib.drain q budget (s.waitq i).waiters).2, credits⟩).waitq) : Calm s s' := by
  refine ⟨fun g h => hg ▸ h, fun j w h => .inl ?_⟩
  rw [hw] at h
  by_cases hj : j = i
  · subst hj
    rw [waitq_setShard_self] at h
    exact mem_of_drain_left h
  · rwa [waitq_setShard_of_ne hj] at h

theorem Calm.onGroup {g : Option Nat} {change : ThreadGroup → ThreadGroup}
    (hg : s'.groups = (s.onGroup g change).groups) (hw : s'.waitq = s.waitq)
    (hchange : ∀ gr, gr.poisoned = true → (change gr).poisoned = true) : Calm s s' := by
  refine .of_waitq (fun g' hp => ?_) hw
  rw [hg]
  by_cases h : g = some g'
  · simpa [Threads.onGroup, h] using hchange _ hp
  · simpa [Threads.onGroup, h] using hp

variable {f : ThreadFiber}

theorem Calm.countIn (hg : s'.groups = (s.countIn f).groups) (hw : s'.waitq = s.waitq) : Calm s s' :=
  .onGroup hg hw fun _ hp => hp

theorem Calm.countOut (hg : s'.groups = (s.countOut f).groups) (hw : s'.waitq = s.waitq) :
    Calm s s' := .onGroup hg hw fun _ hp => hp

theorem Calm.poison {g : Option Nat} (hg : s'.groups = (s.poison g).groups) (hw : s'.waitq = s.waitq) : Calm s s' :=
  .onGroup hg hw fun _ _ => rfl

theorem poisoned_poison (s : Threads n) (g : Nat) : ((s.poison (some g)).groups g).poisoned = true := by
  simp [poison, onGroup]

theorem Calm.insert (c : Fin n) (hf : s.poisoned f = false) : Calm s (s.insert c f) := by
  simp only [Threads.insert]
  split
  · refine ⟨fun _ h => h, fun j w h => .inl ?_⟩
    by_cases hj : j = shardOf f.parkKey
    · subst hj
      simpa [setPhase] using h
    · simpa [setPhase, hj] using h
  · refine ⟨fun _ h => h, fun j w h => ?_⟩
    change w ∈ ((s.setShard _ _).waitq j).waiters at h
    by_cases hj : j = shardOf f.parkKey
    · subst hj
      rw [waitq_setShard_self] at h
      rcases mem_append.mp h with hold | hnew
      · exact .inl hold
      · rw [mem_singleton.mp hnew]
        exact .inr hf
    · rw [waitq_setShard_of_ne hj] at h
      exact .inl h

/-- The counters are exact, and what the calls on the cores rely on is so. -/
structure Kept (s : Threads n) : Prop where
  accounted : s.Accounted
  timely : s.Timely
  calls : ∀ c, s.CallOk (s.cores c).call
  killed : ∀ g ∈ s.killed, s.Clear g waitqShards

theorem Kept.new : (Threads.new n).Kept := by
  refine ⟨fun g => ?_, ?_, fun c => trivial, fun g hg => absurd hg (by simp [Threads.new])⟩
  · simp [Threads.new, total, queued, parked, onCores, Core.fibers, RunPhase.fibers, ThreadCall.fibers]
  · simp [Timely, Threads.new, timedParked]

theorem Kept.next (h : s.Kept) (hs : s.step e = some s') (hcalm : Calm s s') (htimely : s'.Timely)
    (hcalls : ∀ c, (s'.cores c).call = (s.cores c).call ∨ s'.CallOk (s'.cores c).call)
    (hkilled : ∀ g ∈ s'.killed, g ∈ s.killed ∨ s'.Clear g waitqShards) : s'.Kept := by
  refine ⟨h.accounted.step hs, htimely, fun c => ?_, fun g hg => ?_⟩
  · rcases hcalls c with hsame | hok
    · exact hsame ▸ (h.calls c).calm hcalm
    · exact hok
  · exact (hkilled g hg).elim (fun hold => (h.killed g hold).calm hcalm) id

theorem Kept.phase (h : s.Kept) (hs : s.step e = some s') (hcalm : Calm s s') (htimely : s'.Timely)
    (hcalls : ∀ c, (s'.cores c).call = (s.cores c).call) (hkilled : s'.killed = s.killed) : s'.Kept :=
  h.next hs hcalm htimely (fun c => .inl (hcalls c)) fun _ hg => .inl (hkilled ▸ hg)

theorem Kept.call (h : s.Kept) (hs : s.step e = some s') {call : ThreadCall} (hcalm : Calm s s') (htimely : s'.Timely)
    (hcores : s'.cores = (s.setCall c call).cores) (hok : s'.CallOk call) (hkilled : s'.killed = s.killed) :
    s'.Kept := by
  refine h.next hs hcalm htimely (fun c' => ?_) fun _ hg => .inl (hkilled ▸ hg)
  rw [hcores]
  by_cases hc : c' = c
  · subst hc
    exact .inr (by rwa [cores_setCall_self])
  · exact .inl (by rw [cores_setCall_of_ne hc])

theorem Clear.succ {g : Nat} {fs : List ThreadFiber} (h : s.Clear g i) : (s.killShard c g i fs).Clear g (i + 1) := by
  refine ⟨h.1, fun j hj w hw => ?_⟩
  change w ∈ ((s.setShard i _).waitq j).waiters at hw
  by_cases hji : j = i
  · subst hji
    rw [waitq_setShard_self] at hw
    exact of_decide_eq_false (drain_all (p := fun w : Waiter => decide (w.fiber.group = some g)) hw)
  · rw [waitq_setShard_of_ne hji] at hw
    exact h.2 j (by omega) w hw

theorem call_insert (s : Threads n) (c c' : Fin n) (f : ThreadFiber) :
    ((s.insert c f).cores c').call = (s.cores c').call := by
  simp only [insert]
  split <;> exact call_setPhase _ c c' _

theorem killed_insert (s : Threads n) (c : Fin n) (f : ThreadFiber) : (s.insert c f).killed = s.killed := by
  simp only [insert]
  split <;> rfl

theorem Kept.step (h : s.Kept) (hg : s.InTime e) (hs : s.step e = some s') : s'.Kept := by
  have htimely {t : Threads n} (hw : t.waitq = s.waitq) ht : t.Timely :=
    h.timely.congr hw ht
  cases transition_of_step hs with
  | take hc hq | resume hc | suspended hc | requeue hc | exit hc | wait hc | notEqual hc | equal hc | sleep hc =>
    exact h.phase hs (.of_waitq (fun _ hp => hp) rfl) (htimely rfl rfl) (fun c' => call_setPhase _ _ c' _) rfl
  | finish hc => exact h.phase hs (.countOut rfl rfl) (htimely rfl rfl) (fun c' => call_setPhase _ _ c' _) rfl
  | @insert c f hc =>
    have hf : s.poisoned f = false := by simpa [InTime, overtaken, hc] using hg
    exact h.phase hs (.insert c hf) (h.timely.insert c f) (fun c' => call_insert s c c' f) (killed_insert s c f)
  | wake hc | expired hc | created hc =>
    exact h.call hs (.of_waitq (fun _ hp => hp) rfl) (htimely rfl rfl) rfl trivial rfl
  | @expireShard c now i fs hc =>
    have hnow : s.CallOk (.expiring now i fs) := hc ▸ h.calls c
    exact h.call hs (.drain rfl rfl) (h.timely.expireShard hnow i fs) rfl hnow rfl
  | @killShard c g i fs hc =>
    have hclear : s.CallOk (.killing g i fs) := hc ▸ h.calls c
    exact h.call hs (.drain rfl rfl) (h.timely.drain rfl rfl) rfl (Clear.succ hclear) rfl
  | @reap c g i f fs hc =>
    have hclear : s.CallOk (.killing g i (f :: fs)) := hc ▸ h.calls c
    have hcalm : Calm s ((s.countOut f).setCall c (.killing g i fs)) := .countOut rfl rfl
    exact h.call hs hcalm (htimely rfl rfl) rfl (Clear.calm hclear hcalm) rfl
  | @killed c g i hc hi =>
    have hclear : s.CallOk (.killing g i []) := hc ▸ h.calls c
    have hcalm : Calm s ((s.setCall c .none).addKilled g) := .of_waitq (fun _ hp => hp) rfl
    refine h.next hs hcalm (htimely rfl rfl) (fun c' => ?_) (fun g' hg' => ?_)
    · by_cases hc' : c' = c
      · subst hc'
        exact .inr (by simp [addKilled, CallOk])
      · exact .inl (by simp [addKilled, hc'])
    · rcases mem_cons.mp hg' with rfl | hold
      · exact .inr ⟨hclear.1, fun j hj => hclear.2 j (by omega)⟩
      · exact .inl hold
  | @drop c f kills hc =>
    have hpoisoned : s.CallOk (.dropping f kills) := hc ▸ h.calls c
    have hcalm : Calm s ((s.countOut f).setCall c (afterDrop f kills)) := .countOut rfl rfl
    have hok : s.CallOk (afterDrop f kills) := by
      unfold afterDrop
      split
      · rename_i g hgroup
        exact ⟨hpoisoned g hgroup, fun j hj => absurd hj (Nat.not_lt_zero _)⟩
      · trivial
    exact h.call hs hcalm (htimely rfl rfl) rfl (hok.calm hcalm) rfl
  | notify hc => exact h.call hs (.drain rfl rfl) (h.timely.drain rfl rfl) rfl trivial rfl
  | expireNone => exact h
  | expire hc => exact h.call hs (.of_waitq (fun _ hp => hp) rfl) (htimely rfl rfl) rfl hg rfl
  | @kill c g hc =>
    have hclear : ((s.poison (some g)).setCall c (.killing g 0 [])).Clear g 0 :=
      ⟨poisoned_poison s g, fun j hj => absurd hj (Nat.not_lt_zero _)⟩
    exact h.call hs (.poison rfl rfl) (htimely rfl rfl) rfl hclear rfl
  | spawn hc => exact h.call hs (.countIn rfl rfl) (htimely rfl rfl) rfl trivial rfl
  | @failed c f outcome kills hc =>
    refine h.call hs (.poison rfl rfl) (htimely rfl rfl) rfl (fun g hgroup => ?_) rfl
    rw [hgroup]
    exact poisoned_poison s g
  | tick => exact h.phase hs (.of_waitq (fun _ hp => hp) rfl) (htimely rfl rfl) (fun _ => rfl) rfl

theorem advance_of_poisoned (hf : s.poisoned f = true)
    (hc : s.cores c = ⟨.taken f, .none⟩ ∨ s.cores c = ⟨.suspended f, .none⟩) :
    s.step (.advance c) = some (s.setPhase c (.finishing f)) := by
  rcases hc with hc | hc <;> simp [step, advance, advancePhase, hc, hf]

theorem parked_eq_zero {g : Nat} (h : s.Clear g waitqShards) : s.parked (inGroup g) = 0 := by
  refine Finset.sum_eq_zero fun j _ => countP_eq_zero.mpr fun w hw => ?_
  simpa [inGroup, ThreadFiber.tag] using h.2 j j.isLt w hw

/-- In a run in which no group is poisoned between the load of its flag by `run_one` and the insertion of its fiber,
the counters are exact, no fiber of a killed group is left in the wait queue, and the group ends with its queued and
running fibers. -/
theorem groups_end_when_killed {t : Threads n} {es : List (ThreadStep n)} (hrun : exec step (new n) es = some t)
    (hg : Guarded step InTime (new n) es) :
    (∀ g, (t.groups g).live = t.queued (inGroup g) + t.parked (inGroup g) + t.onCores (inGroup g)) ∧
      t.timedWaiters = t.timedParked ∧ ∀ g ∈ t.killed, (∀ j, ∀ w ∈ (t.waitq j).waiters, w.fiber.group ≠ some g) ∧
        (∀ c f, f.group = some g → t.cores c = ⟨.taken f, .none⟩ ∨ t.cores c = ⟨.suspended f, .none⟩ →
          t.step (.advance c) = some (t.setPhase c (.finishing f))) ∧
        (t.queued (inGroup g) = 0 → t.onCores (inGroup g) = 0 → (t.groups g).live = 0) := by
  have h : t.Kept := exec_invariant (fun _ _ _ h hg hs => Kept.step h hg hs) Kept.new hg hrun
  have hlive : ∀ g, (t.groups g).live = t.queued (inGroup g) + t.parked (inGroup g) + t.onCores (inGroup g) := by
    intro g
    rw [h.accounted g, total]
  refine ⟨hlive, h.timely, fun g hkilled => ⟨fun j => (h.killed g hkilled).2 j j.isLt, ?_, ?_⟩⟩
  · intro c f hgroup hc
    refine advance_of_poisoned ?_ hc
    simpa [poisoned, hgroup] using (h.killed g hkilled).1
  · intro hqueued honCores
    rw [hlive g, hqueued, parked_eq_zero (h.killed g hkilled), honCores]

/-- A thread waits on a futex and is inserted, and its group is killed. -/
def timelyKill : List (ThreadStep 2) :=
  [.spawn 0 0, .created 0 .ok, .take 0, .advance 0, .wait 0 64 (-1), .recheck 0 false, .advance 0, .advance 0,
    .kill 1 0] ++ List.replicate 18 (.advance 1)

theorem group_ends_when_killed : ∃ t, exec step (new 2) timelyKill = some t ∧
    Guarded step InTime (new 2) timelyKill ∧ 0 ∈ t.killed ∧ (t.groups 0).live = 0 := by
  have hg : Guarded step InTime (new 2) timelyKill := by decide
  refine ⟨_, rfl, hg, by decide, ?_⟩
  exact ((groups_end_when_killed rfl hg).2.2 0 (by decide)).2.2 (by decide) (by decide)

/-- A thread waits on a futex, and its group is killed before `run_one` inserts it. -/
def lateKill : List (ThreadStep 2) :=
  [.spawn 0 0, .created 0 .ok, .take 0, .advance 0, .wait 0 64 (-1), .recheck 0 false, .advance 0, .kill 1 0] ++
    List.replicate 17 (.advance 1) ++ [.advance 0]

theorem late_kill_leaves_waiter : ∃ t, exec step (new 2) lateKill = some t ∧ 0 ∈ t.killed ∧
    (t.waitq (shardOf 64)).waiters = [⟨64, noDeadline, ⟨0, some 0, 0, noDeadline⟩⟩] ∧ (t.groups 0).live = 1 ∧
    t.runq = [] ∧ ∀ c, t.cores c = ⟨.idle, .none⟩ := by
  all_goals decide

/-- In every run, also if a kill comes too late: a fiber is in one place at most, and a group counts its fibers. -/
theorem fibers_in_one_place {t : Threads n} {es : List (ThreadStep n)} (hrun : exec step (new n) es = some t) :
    (∀ id, t.queued (·.1 == id) + t.parked (·.1 == id) + t.onCores (·.1 == id) ≤ 1) ∧
      ∀ g, (t.groups g).live = t.queued (inGroup g) + t.parked (inGroup g) + t.onCores (inGroup g) := by
  have hnew : (new n).Apart := fun i => by
    simp [new, total, queued, parked, onCores, Core.fibers, RunPhase.fibers, ThreadCall.fibers]
  have hany : Guarded step (fun _ _ => True) (new n) es := guarded_of_forall (fun _ _ _ => trivial) _
  obtain ⟨hapart, hlive⟩ := exec_invariant (I := fun t => t.Apart ∧ t.Accounted)
    (fun _ _ _ h _ hs => ⟨h.1.step hs, h.2.step hs⟩) ⟨hnew, Kept.new.accounted⟩ hany hrun
  exact ⟨hapart.total_le, fun g => by rw [hlive g, total]⟩

theorem late_kill_counts_waiter : ∃ t, exec step (new 2) lateKill = some t ∧
    (t.groups 0).live = t.queued (inGroup 0) + t.parked (inGroup 0) + t.onCores (inGroup 0) :=
  ⟨_, rfl, (@fibers_in_one_place 2 _ lateKill rfl).2 0⟩

end Threads
end Ruos.Wasm
