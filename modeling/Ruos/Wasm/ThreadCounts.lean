import Ruos.Lib.Sums
import Ruos.Wasm.Threads

/-! Where the fibers of `wasm/wt/threads.rs` are, each in one place only: in the run queue, in one shard, or on one core;
and what a step does to their number. -/
namespace Ruos.Wasm

open Lib List

def RunPhase.fibers : RunPhase → List ThreadFiber
  | .idle => []
  | .taken f | .running f | .rechecking f _ _ | .suspended f | .parking f | .requeuing f | .finishing f => [f]

def ThreadCall.fibers : ThreadCall → List ThreadFiber
  | .none => []
  | .waking fs | .expiring _ _ fs | .killing _ _ fs => fs
  | .spawning f | .dropping f _ => [f]

/-- The fiber that a core runs, and those that it has taken from a queue or is about to put into one. -/
def Core.fibers (c : Core) : List ThreadFiber := c.phase.fibers ++ c.call.fibers

def ThreadFiber.tag (f : ThreadFiber) : Nat × Option Nat := (f.id, f.group)

namespace Threads

variable {n : Nat} {s s' : Threads n} {c : Fin n}

def queued (s : Threads n) (p : Nat × Option Nat → Bool) : Nat := s.runq.countP (fun f => p f.tag)

def parked (s : Threads n) (p : Nat × Option Nat → Bool) : Nat :=
  ∑ i, (s.waitq i).waiters.countP fun w => p w.fiber.tag

def onCores (s : Threads n) (p : Nat × Option Nat → Bool) : Nat := ∑ c, (s.cores c).fibers.countP fun f => p f.tag

/-- All fibers that meet `p`, wherever they are. -/
@[irreducible] def total (s : Threads n) (p : Nat × Option Nat → Bool) : Nat := s.queued p + s.parked p + s.onCores p

@[irreducible] def timedParked (s : Threads n) : Nat := ∑ i, (s.waitq i).waiters.countP (·.timed)

section

variable (p : Nat × Option Nat → Bool)

theorem total_congr (hq : s'.runq = s.runq) (hw : s'.waitq = s.waitq) (hc : s'.cores = s.cores) :
    s'.total p = s.total p := by
  simp only [total, queued, parked, onCores, hq, hw, hc]

theorem total_enqueue (s : Threads n) (fs : List ThreadFiber) :
    (s.enqueue fs).total p = s.total p + fs.countP (fun f => p f.tag) := by
  simp only [total, queued, parked, onCores, enqueue, countP_append]
  omega

theorem total_setShard (s : Threads n) (i : Fin waitqShards) (sh : ShardState) :
    (s.setShard i sh).total p + (s.waitq i).waiters.countP (fun w => p w.fiber.tag) =
      s.total p + sh.waiters.countP (fun w => p w.fiber.tag) := by
  have h := sum_update_add (fun sh : ShardState => sh.waiters.countP fun w => p w.fiber.tag) s.waitq
    (Finset.mem_univ i) sh
  simp only [total, queued, parked, onCores, setShard]
  omega

theorem total_setCore (s : Threads n) (c : Fin n) (core : Core) :
    { s with cores := Function.update s.cores c core }.total p + (s.cores c).fibers.countP (fun f => p f.tag) =
      s.total p + core.fibers.countP (fun f => p f.tag) := by
  have h := sum_update_add (fun core : Core => core.fibers.countP fun f => p f.tag) s.cores (Finset.mem_univ c) core
  simp only [total, queued, parked, onCores]
  omega

theorem total_setPhase (s : Threads n) (c : Fin n) (ph : RunPhase) :
    (s.setPhase c ph).total p + (s.cores c).phase.fibers.countP (fun f => p f.tag) =
      s.total p + ph.fibers.countP (fun f => p f.tag) := by
  have h := total_setCore p s c ⟨ph, (s.cores c).call⟩
  simp only [Core.fibers, countP_append] at h
  change (s.setPhase c ph).total p + _ = _ at h
  omega

theorem total_setCall (s : Threads n) (c : Fin n) (call : ThreadCall) :
    (s.setCall c call).total p + (s.cores c).call.fibers.countP (fun f => p f.tag) =
      s.total p + call.fibers.countP (fun f => p f.tag) := by
  have h := total_setCore p s c ⟨(s.cores c).phase, call⟩
  simp only [Core.fibers, countP_append] at h
  change (s.setCall c call).total p + _ = _ at h
  omega

theorem total_setShard_setPhase (s : Threads n) (i : Fin waitqShards) (sh : ShardState) (c : Fin n) (ph : RunPhase) :
    ((s.setShard i sh).setPhase c ph).total p +
        ((s.waitq i).waiters.countP (fun w => p w.fiber.tag) + (s.cores c).phase.fibers.countP (fun f => p f.tag)) =
      s.total p + (sh.waiters.countP (fun w => p w.fiber.tag) + ph.fibers.countP (fun f => p f.tag)) := by
  have hshard := total_setShard p s i sh
  have hphase := total_setPhase p (s.setShard i sh) c ph
  change _ + (s.cores c).phase.fibers.countP _ = _ at hphase
  omega

end

def inGroup (g : Nat) (tag : Nat × Option Nat) : Bool := tag.2 == some g

theorem live_countIn (s : Threads n) (f : ThreadFiber) (g : Nat) :
    ((s.countIn f).groups g).live = (s.groups g).live + [f].countP (fun f => inGroup g f.tag) := by
  by_cases hf : f.group = some g <;> simp [countIn, onGroup, inGroup, ThreadFiber.tag, hf]

theorem live_countOut (s : Threads n) (f : ThreadFiber) (g : Nat) :
    ((s.countOut f).groups g).live = (s.groups g).live - [f].countP (fun f => inGroup g f.tag) := by
  by_cases hf : f.group = some g <;> simp [countOut, onGroup, inGroup, ThreadFiber.tag, hf]

theorem live_poison (s : Threads n) (g : Option Nat) (g' : Nat) :
    ((s.poison g).groups g').live = (s.groups g').live := by
  by_cases hg : g = some g' <;> simp [poison, onGroup, hg]

/-- From `s` to `s'` the fibers `born` are new and the fibers `gone` are finished. -/
structure Moved (s s' : Threads n) (born gone : List ThreadFiber) : Prop where
  total : ∀ p, s'.total p + gone.countP (fun f => p f.tag) = s.total p + born.countP (fun f => p f.tag)
  live : ∀ g, (s'.groups g).live = (s.groups g).live + born.countP (fun f => inGroup g f.tag) -
    gone.countP (fun f => inGroup g f.tag)
  next : s'.next = s.next + born.length
  fresh : born = [] ∨ ∃ f, born = [f] ∧ f.id = s.next

namespace Moved

theorem within (htotal : ∀ p, s'.total p = s.total p) (hlive : ∀ g, (s'.groups g).live = (s.groups g).live)
    (hnext : s'.next = s.next) : Moved s s' [] [] :=
  ⟨fun p => htotal p, fun g => hlive g, by simpa using hnext, .inl rfl⟩

theorem finish {f : ThreadFiber} (htotal : ∀ p, s'.total p + [f].countP (fun f => p f.tag) = s.total p)
    (hlive : s'.groups = (s.countOut f).groups) (hnext : s'.next = s.next) : Moved s s' [] [f] := by
  refine ⟨fun p => htotal p, fun g => ?_, hnext, .inl rfl⟩
  rw [hlive, live_countOut]
  simp

end Moved

theorem total_countIn (p : Nat × Option Nat → Bool) (s : Threads n) (f : ThreadFiber) :
    (s.countIn f).total p = s.total p := total_congr p rfl rfl rfl

theorem total_countOut (p : Nat × Option Nat → Bool) (s : Threads n) (f : ThreadFiber) :
    (s.countOut f).total p = s.total p := total_congr p rfl rfl rfl

theorem total_setTimed (p : Nat × Option Nat → Bool) (s : Threads n) (timed : Nat) :
    (s.setTimed timed).total p = s.total p := total_congr p rfl rfl rfl

theorem moved_setPhase {f : ThreadFiber} {ph : RunPhase} (hphase : (s.cores c).phase.fibers.map (·.tag) = [f.tag])
    (hph : ph.fibers.map (·.tag) = [f.tag]) : Moved s (s.setPhase c ph) [] [] := by
  refine .within (fun p => ?_) (fun _ => rfl) rfl
  have h := total_setPhase p s c ph
  have hcount : ∀ fs : List ThreadFiber, fs.countP (fun f => p f.tag) = (fs.map (·.tag)).countP p := by
    intro fs
    rw [countP_map]
    rfl
  rw [hcount, hcount, hphase, hph] at h
  omega

theorem moved_insert {f : ThreadFiber} (hphase : (s.cores c).phase = .parking f) : Moved s (s.insert c f) [] [] := by
  cases hspend : spendCredit (s.waitq (shardOf f.parkKey)).credits f.parkKey with
  | some credits =>
    rw [insert_of_credit c hspend]
    refine .within (fun p => ?_) (fun _ => rfl) rfl
    have h := total_setShard_setPhase p s (shardOf f.parkKey) { s.waitq (shardOf f.parkKey) with credits := credits } c
      (.requeuing { f with parkKey := 0 })
    rw [hphase] at h
    exact Nat.add_right_cancel h
  | none =>
    rw [insert_of_no_credit c hspend]
    refine .within (fun p => ?_) (fun _ => rfl) rfl
    have h := total_setShard_setPhase p s (shardOf f.parkKey) { s.waitq (shardOf f.parkKey) with
      waiters := (s.waitq (shardOf f.parkKey)).waiters ++ [⟨f.parkKey, f.parkDeadline, { f with parkKey := 0 }⟩] } c
      .idle
    rw [hphase, countP_append] at h
    change _ + (_ + [f].countP (fun f => p f.tag)) = _ + (_ + [f].countP (fun f => p f.tag) + 0) at h
    rw [total_setTimed]
    omega

variable {call : ThreadCall}

theorem moved_drain {q : Waiter → Bool} {budget timed : Nat} {i : Fin waitqShards} {credits : List (Nat × Nat)}
    (hcall : call.fibers = (s.cores c).call.fibers ++ (drain q budget (s.waitq i).waiters).1.map (·.fiber)) :
    Moved s (((s.setShard i ⟨(drain q budget (s.waitq i).waiters).2, credits⟩).setCall c call).setTimed timed) [] [] := by
  refine .within (fun p => ?_) (fun _ => rfl) rfl
  have hshard := total_setShard p s i ⟨(drain q budget (s.waitq i).waiters).2, credits⟩
  have h := total_setCall p (s.setShard i ⟨(drain q budget (s.waitq i).waiters).2, credits⟩) c call
  have hdrain := countP_drain q (fun w => p w.fiber.tag) budget (s.waitq i).waiters
  rw [hcall, countP_append, countP_map] at h
  change _ + (s.cores c).call.fibers.countP _ = _ +
    (_ + (drain q budget (s.waitq i).waiters).1.countP fun w => p w.fiber.tag) at h
  rw [total_setTimed]
  dsimp only at hshard
  omega

theorem moved_enqueue_setCall {fs : List ThreadFiber} (hcall : (s.cores c).call.fibers = fs) :
    Moved s ((s.enqueue fs).setCall c .none) [] [] := by
  refine .within (fun p => ?_) (fun _ => rfl) rfl
  have h := total_setCall p (s.enqueue fs) c .none
  have henqueue := total_enqueue p s fs
  change _ + (s.cores c).call.fibers.countP _ = _ + 0 at h
  rw [hcall] at h
  omega

theorem moved_countOut_setCall {f : ThreadFiber} {fs : List ThreadFiber}
    (hbefore : (s.cores c).call.fibers = f :: fs) (hafter : call.fibers = fs) :
    Moved s ((s.countOut f).setCall c call) [] [f] := by
  refine .finish (fun p => ?_) rfl rfl
  have h := total_setCall p (s.countOut f) c call
  rw [total_countOut] at h
  change _ + (s.cores c).call.fibers.countP _ = _ at h
  rw [hbefore, hafter, countP_cons] at h
  rw [countP_cons]
  simp only [countP_nil]
  omega

theorem moved_countOut_setPhase {f : ThreadFiber} (hphase : (s.cores c).phase = .finishing f) :
    Moved s ((s.countOut f).setPhase c .idle) [] [f] := by
  refine .finish (fun p => ?_) rfl rfl
  have h := total_setPhase p (s.countOut f) c .idle
  rw [total_countOut] at h
  change _ + (s.cores c).phase.fibers.countP _ = _ at h
  rw [hphase] at h
  exact h

theorem moved_setCall (hbefore : (s.cores c).call.fibers = call.fibers) : Moved s (s.setCall c call) [] [] := by
  refine .within (fun p => ?_) (fun _ => rfl) rfl
  have h := total_setCall p s c call
  rw [hbefore] at h
  exact Nat.add_right_cancel h

theorem moved_poison_setCall (g : Option Nat) (hbefore : (s.cores c).call.fibers = call.fibers) :
    Moved s ((s.poison g).setCall c call) [] [] := by
  have hset := moved_setCall hbefore
  refine .within (fun p => ?_) (live_poison s g) rfl
  have hpoison : ((s.poison g).setCall c call).total p = (s.setCall c call).total p := total_congr p rfl rfl rfl
  exact hpoison.trans (Nat.add_right_cancel (hset.total p))

theorem moved_requeue {f : ThreadFiber} (hphase : (s.cores c).phase = .requeuing f) :
    Moved s ((s.enqueue [f]).setPhase c .idle) [] [] := by
  refine .within (fun p => ?_) (fun _ => rfl) rfl
  have h := total_setPhase p (s.enqueue [f]) c .idle
  have henqueue := total_enqueue p s [f]
  change _ + (s.cores c).phase.fibers.countP _ = _ + 0 at h
  rw [hphase] at h
  change _ + [f].countP _ = _ at h
  omega

theorem moved_beginSpawn {f : ThreadFiber} (hc : (s.cores c).call = .none) (hid : f.id = s.next) :
    Moved s (s.beginSpawn c f) [f] [] := by
  refine ⟨fun p => ?_, fun g => ?_, rfl, .inr ⟨f, rfl, hid⟩⟩
  · have h := total_setCall p (s.countIn f) c (.spawning f)
    rw [total_countIn] at h
    change _ + (s.cores c).call.fibers.countP _ = _ at h
    rw [hc] at h
    have hspawn : (s.beginSpawn c f).total p = ((s.countIn f).setCall c (.spawning f)).total p :=
      total_congr p rfl rfl rfl
    rw [hspawn]
    exact h
  · exact (live_countIn s f g).trans (by simp)

theorem moved_take {f : ThreadFiber} {q : List ThreadFiber} (hc : (s.cores c).phase = .idle) (hq : s.runq = f :: q) :
    Moved s ({ s with runq := q }.setPhase c (.taken f)) [] [] := by
  refine .within (fun p => ?_) (fun _ => rfl) rfl
  have h := total_setPhase p { s with runq := q } c (.taken f)
  have hpop : s.total p = { s with runq := q }.total p + [f].countP (fun f => p f.tag) := by
    simp only [total, queued, parked, onCores, hq, countP_cons, countP_nil]
    omega
  rw [hc] at h
  rw [hpop]
  exact h

theorem moved_of_step {e : ThreadStep n} (h : s.step e = some s') : ∃ born gone, Moved s s' born gone := by
  cases transition_of_step h with
  | take hc hq => exact ⟨[], [], moved_take (by rw [hc]) hq⟩
  | resume hc | suspended hc =>
    refine ⟨[], [], moved_setPhase (by rw [hc]; rfl) ?_⟩
    split_ifs <;> rfl
  | insert hc => exact ⟨[], [], moved_insert (by rw [hc])⟩
  | requeue hc => exact ⟨[], [], moved_requeue (by rw [hc])⟩
  | finish hc => exact ⟨[], _, moved_countOut_setPhase (by rw [hc])⟩
  | wake hc | expired hc | created hc => exact ⟨[], [], moved_enqueue_setCall (by rw [hc]; rfl)⟩
  | expireShard hc | killShard hc => exact ⟨[], [], moved_drain (by rw [hc]; rfl)⟩
  | reap hc => exact ⟨[], _, moved_countOut_setCall (by rw [hc]; rfl) rfl⟩
  | @killed c g i hc _ =>
    have hset : Moved s (s.setCall c .none) [] [] := moved_setCall (by rw [hc]; rfl)
    refine ⟨[], [], .within (fun p => ?_) (fun _ => rfl) rfl⟩
    have hadd : ((s.setCall c .none).addKilled g).total p = (s.setCall c .none).total p := total_congr p rfl rfl rfl
    exact hadd.trans (Nat.add_right_cancel (hset.total p))
  | drop hc =>
    refine ⟨[], _, moved_countOut_setCall (by rw [hc]; rfl) ?_⟩
    unfold afterDrop
    split <;> rfl
  | exit hc | wait hc | notEqual hc | equal hc | sleep hc => exact ⟨[], [], moved_setPhase (by rw [hc]; rfl) rfl⟩
  | notify hc => exact ⟨[], [], moved_drain (by rw [call_of_mayCall hc]; rfl)⟩
  | expireNone | tick => exact ⟨[], [], .within (fun p => total_congr p rfl rfl rfl) (fun _ => rfl) rfl⟩
  | expire hc => exact ⟨[], [], moved_setCall (by rw [hc]; rfl)⟩
  | @kill c g hc => exact ⟨[], [], moved_poison_setCall (some g) (by rw [call_of_mayCall hc]; rfl)⟩
  | spawn hc => exact ⟨_, [], moved_beginSpawn (call_of_mayCall hc) rfl⟩
  | failed hc => exact ⟨[], [], moved_poison_setCall _ (by rw [hc]; rfl)⟩

def Accounted (s : Threads n) : Prop := ∀ g, (s.groups g).live = s.total (inGroup g)

theorem Accounted.step {e : ThreadStep n} (h : s.Accounted) (hs : s.step e = some s') : s'.Accounted := by
  obtain ⟨born, gone, hmoved⟩ := moved_of_step hs
  intro g
  have htotal := hmoved.total (inGroup g)
  rw [hmoved.live g, h g]
  omega

open Finset

/-- No fiber is in two places. -/
def Apart (s : Threads n) : Prop := ∀ i, s.total (fun tag => tag.1 == i) ≤ if i < s.next then 1 else 0

theorem Apart.step {e : ThreadStep n} (h : s.Apart) (hs : s.step e = some s') : s'.Apart := by
  obtain ⟨born, gone, hmoved⟩ := moved_of_step hs
  intro i
  have htotal := hmoved.total (fun tag => tag.1 == i)
  have hi := h i
  rcases hmoved.fresh with rfl | ⟨f, rfl, hf⟩
  · rw [hmoved.next]
    simp only [countP_nil, length_nil, Nat.add_zero] at htotal ⊢
    omega
  · rw [hmoved.next]
    simp only [countP_singleton, ThreadFiber.tag, hf, beq_iff_eq, length_singleton] at htotal ⊢
    split_ifs at htotal hi ⊢ <;> omega

section

variable {c c' : Fin n} {f f' : ThreadFiber} {x x' : Waiter} {i j : Fin waitqShards}

theorem Apart.total_le (h : s.Apart) (id : Nat) :
    s.queued (fun tag => tag.1 == id) + s.parked (fun tag => tag.1 == id) + s.onCores (fun tag => tag.1 == id) ≤ 1 := by
  have hid := h id
  rw [total] at hid
  split_ifs at hid <;> omega

theorem one_le_countP_of_mem {fs : List ThreadFiber} (hf : f ∈ fs) : 1 ≤ fs.countP fun f' => f'.tag.1 == f.id :=
  countP_pos_iff.mpr ⟨f, hf, beq_iff_eq.mpr rfl⟩

theorem one_le_countP_of_waiter {ws : List Waiter} (hx : x ∈ ws) : 1 ≤ ws.countP fun w => w.fiber.tag.1 == x.fiber.id :=
  countP_pos_iff.mpr ⟨x, hx, beq_iff_eq.mpr rfl⟩

theorem Apart.core_eq (h : s.Apart) (hf : f ∈ (s.cores c).fibers) (hf' : f' ∈ (s.cores c').fibers)
    (hid : f'.id = f.id) : c' = c := by
  by_contra hne
  have hle := h.total_le f.id
  have hsum := add_le_sum_of_ne (fun c => (s.cores c).fibers.countP fun f' => f'.tag.1 == f.id)
    (mem_univ c') (mem_univ c) hne
  have hone := one_le_countP_of_mem hf
  have hone' := hid ▸ one_le_countP_of_mem hf'
  simp only [onCores] at hle
  omega

theorem Apart.ne_waiter (h : s.Apart) (hf : f ∈ (s.cores c).fibers) (hx : x ∈ (s.waitq j).waiters) :
    x.fiber.id ≠ f.id := by
  intro hid
  have hle := h.total_le f.id
  have hcores := single_le_sum (f := fun c => (s.cores c).fibers.countP fun f' => f'.tag.1 == f.id)
    (fun _ _ => Nat.zero_le _) (mem_univ c)
  have hparked := single_le_sum (f := fun j => (s.waitq j).waiters.countP fun w => w.fiber.tag.1 == f.id)
    (fun _ _ => Nat.zero_le _) (mem_univ j)
  have hone := one_le_countP_of_mem hf
  have hone' := hid ▸ one_le_countP_of_waiter hx
  simp only [onCores, parked] at hle
  omega

theorem Apart.nodup_waiters (h : s.Apart) (j : Fin waitqShards) :
    ((s.waitq j).waiters.map fun w => w.fiber.id).Nodup := by
  refine nodup_iff_count_le_one.mpr fun id => ?_
  have hle := h.total_le id
  have hparked := single_le_sum (f := fun j => (s.waitq j).waiters.countP fun w => w.fiber.tag.1 == id)
    (fun _ _ => Nat.zero_le _) (mem_univ j)
  rw [count_eq_countP, countP_map]
  simp only [parked] at hle
  simp only [ThreadFiber.tag] at hparked hle
  change (s.waitq j).waiters.countP (fun w => w.fiber.id == id) ≤ 1
  omega

theorem Apart.shard_eq (h : s.Apart) (hx : x ∈ (s.waitq i).waiters) (hx' : x' ∈ (s.waitq j).waiters)
    (hid : x'.fiber.id = x.fiber.id) : j = i := by
  by_contra hne
  have hle := h.total_le x.fiber.id
  have hsum := add_le_sum_of_ne (fun j => (s.waitq j).waiters.countP fun w => w.fiber.tag.1 == x.fiber.id)
    (mem_univ j) (mem_univ i) hne
  have hone := one_le_countP_of_waiter hx
  have hone' := hid ▸ one_le_countP_of_waiter hx'
  simp only [parked] at hle
  omega

end

end Threads
end Ruos.Wasm
