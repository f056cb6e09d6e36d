import Mathlib
import Ruos.Lib.SwapRemove
import Ruos.Lib.Run

/-! The fibers of threaded programs in `wasm/wt/threads.rs`: the run queue, the shards of the futex wait queue, and what
each core does with them. Every step is one critical section or one access to an atomic. -/
namespace Ruos.Wasm

open Lib Function

def waitqShards : Nat := 16

/-- `u64::MAX`, the deadline of a wait without a timeout. -/
def noDeadline : Nat := 2 ^ 64 - 1

/-- The number of a fiber is not in the code. -/
structure ThreadFiber where
  id : Nat
  group : Option Nat
  parkKey : Nat
  parkDeadline : Nat
deriving DecidableEq

structure Waiter where
  key : Nat
  deadline : Nat
  fiber : ThreadFiber
deriving DecidableEq

def Waiter.timed (w : Waiter) : Bool := w.deadline != noDeadline

structure ShardState where
  waiters : List Waiter
  credits : List (Nat × Nat)
deriving DecidableEq

structure ThreadGroup where
  live : Nat
  poisoned : Bool
deriving DecidableEq

/-- What `run_one` does next on a core. -/
inductive RunPhase
  | idle
  /-- Load `poisoned` and resume the fiber. -/
  | taken (f : ThreadFiber)
  | running (f : ThreadFiber)
  /-- In `futex_wait`: take the lock of the shard and compare the value again. -/
  | rechecking (f : ThreadFiber) (key deadline : Nat)
  /-- The fiber has suspended: load `poisoned`. -/
  | suspended (f : ThreadFiber)
  /-- Take the lock of the shard and insert the fiber. -/
  | parking (f : ThreadFiber)
  /-- Push the fiber to the run queue. -/
  | requeuing (f : ThreadFiber)
  | finishing (f : ThreadFiber)
deriving DecidableEq

/-- What the other functions do next, when the fiber on a core or the core itself has called them. -/
inductive ThreadCall
  | none
  /-- `wake_key`: push the fibers to the run queue. -/
  | waking (toRun : List ThreadFiber)
  /-- `expire_timeouts`: take the lock of the next shard, or push the fibers to the run queue. -/
  | expiring (now shard : Nat) (expired : List ThreadFiber)
  /-- `kill_group_waiters`: take the lock of the next shard, or finish the fibers. -/
  | killing (g shard : Nat) (killed : List ThreadFiber)
  /-- `spawn_fiber`: allocate the stack and the fiber. -/
  | spawning (f : ThreadFiber)
  /-- `spawn_fiber` has failed and set `poisoned`: count the fiber out. -/
  | dropping (f : ThreadFiber) (kills : Bool)
deriving DecidableEq

structure Core where
  phase : RunPhase
  call : ThreadCall
deriving DecidableEq

/-- The last two fields are not in the code: the number of fibers so far, and the groups for which
`kill_group_waiters` has returned. -/
structure Threads (n : Nat) where
  runq : List ThreadFiber
  waitq : Fin waitqShards → ShardState
  timedWaiters : Nat
  groups : Nat → ThreadGroup
  cores : Fin n → Core
  ticks : Nat
  next : Nat
  killed : List Nat

/-- How the allocations of `spawn_fiber` end. -/
inductive Creation
  | ok
  | noStack
  | noFiber
deriving DecidableEq

inductive ThreadStep (n : Nat)
  /-- `run_one` takes a fiber from the run queue. -/
  | take (c : Fin n)
  | advance (c : Fin n)
  | exit (c : Fin n)
  /-- `futex_wait`, after its spinning has seen no other value. -/
  | wait (c : Fin n) (key : Nat) (timeoutNs : Int)
  /-- `futex_wait` compares the value again, under the lock of the shard. -/
  | recheck (c : Fin n) (notEqual : Bool)
  /-- `sleep_current`, in a fiber at this address. -/
  | sleep (c : Fin n) (addr deadline : Nat)
  | notify (c : Fin n) (key count : Nat)
  | expire (c : Fin n)
  /-- A group is poisoned, and `kill_group_waiters` is called for it. -/
  | kill (c : Fin n) (g : Nat)
  | spawn (c : Fin n) (g : Nat)
  | created (c : Fin n) (outcome : Creation)
  | tick
deriving DecidableEq

def shardOf (key : Nat) : Fin waitqShards := ⟨(key >>> 3) % waitqShards, Nat.mod_lt _ (by decide)⟩

/-- One credit for the key is used up; `none` if there is none. -/
def spendCredit (credits : List (Nat × Nat)) (key : Nat) : Option (List (Nat × Nat)) := do
  let pos ← credits.findIdx? (·.1 == key)
  let (k, left) ← credits[pos]?
  return if left - 1 = 0 then swapRemove credits pos else credits.set pos (k, left - 1)

def leaveCredit (credits : List (Nat × Nat)) (key : Nat) : List (Nat × Nat) :=
  if credits.any (·.1 == key) then credits else credits ++ [(key, 1)]

/-- The deadline of `futex_wait`, in ticks of ten milliseconds. -/
def futexDeadline (ticks : Nat) (timeoutNs : Int) : Nat :=
  if timeoutNs < 0 then noDeadline else (ticks + max (timeoutNs.toNat / 10000000) 1) % 2 ^ 64

namespace Threads

variable {n : Nat}

def new (n : Nat) : Threads n where
  runq := []
  waitq := fun _ => ⟨[], []⟩
  timedWaiters := 0
  groups := fun _ => ⟨0, false⟩
  cores := fun _ => ⟨.idle, .none⟩
  ticks := 0
  next := 0
  killed := []

def enqueue (s : Threads n) (fs : List ThreadFiber) : Threads n := { s with runq := s.runq ++ fs }

def setShard (s : Threads n) (i : Fin waitqShards) (sh : ShardState) : Threads n :=
  { s with waitq := Function.update s.waitq i sh }

def setPhase (s : Threads n) (c : Fin n) (ph : RunPhase) : Threads n :=
  { s with cores := Function.update s.cores c ⟨ph, (s.cores c).call⟩ }

def setCall (s : Threads n) (c : Fin n) (call : ThreadCall) : Threads n :=
  { s with cores := Function.update s.cores c ⟨(s.cores c).phase, call⟩ }

def setTimed (s : Threads n) (timed : Nat) : Threads n := { s with timedWaiters := timed }

def addKilled (s : Threads n) (g : Nat) : Threads n := { s with killed := g :: s.killed }

/-- A change to a group; nothing for a fiber without one. -/
def onGroup (s : Threads n) (g : Option Nat) (change : ThreadGroup → ThreadGroup) : Threads n :=
  { s with groups := fun g' => if g = some g' then change (s.groups g') else s.groups g' }

@[simp] theorem waitq_setShard_self (s : Threads n) (i : Fin waitqShards) (sh : ShardState) :
    (s.setShard i sh).waitq i = sh := update_self _ _ _

@[simp] theorem waitq_setShard_of_ne {i j : Fin waitqShards} (hne : j ≠ i) (s : Threads n) (sh : ShardState) :
    (s.setShard i sh).waitq j = s.waitq j := update_of_ne hne _ _

@[simp] theorem cores_setShard (s : Threads n) (i : Fin waitqShards) (sh : ShardState) :
    (s.setShard i sh).cores = s.cores := rfl

@[simp] theorem cores_setTimed (s : Threads n) (timed : Nat) : (s.setTimed timed).cores = s.cores := rfl

@[simp] theorem waitq_setTimed (s : Threads n) (timed : Nat) : (s.setTimed timed).waitq = s.waitq := rfl

@[simp] theorem waitq_setPhase (s : Threads n) (c : Fin n) (ph : RunPhase) : (s.setPhase c ph).waitq = s.waitq := rfl

@[simp] theorem waitq_setCall (s : Threads n) (c : Fin n) (call : ThreadCall) : (s.setCall c call).waitq = s.waitq := rfl

@[simp] theorem cores_setPhase_self (s : Threads n) (c : Fin n) (ph : RunPhase) :
    (s.setPhase c ph).cores c = ⟨ph, (s.cores c).call⟩ := update_self _ _ _

@[simp] theorem cores_setPhase_of_ne {c c' : Fin n} (hne : c' ≠ c) (s : Threads n) (ph : RunPhase) :
    (s.setPhase c ph).cores c' = s.cores c' := update_of_ne hne _ _

@[simp] theorem cores_setCall_self (s : Threads n) (c : Fin n) (call : ThreadCall) :
    (s.setCall c call).cores c = ⟨(s.cores c).phase, call⟩ := update_self _ _ _

@[simp] theorem cores_setCall_of_ne {c c' : Fin n} (hne : c' ≠ c) (s : Threads n) (call : ThreadCall) :
    (s.setCall c call).cores c' = s.cores c' := update_of_ne hne _ _

theorem call_setPhase (s : Threads n) (c c' : Fin n) (ph : RunPhase) :
    ((s.setPhase c ph).cores c').call = (s.cores c').call := by
  by_cases hc : c' = c
  · subst hc
    simp
  · simp [hc]

theorem phase_setCall (s : Threads n) (c c' : Fin n) (call : ThreadCall) :
    ((s.setCall c call).cores c').phase = (s.cores c').phase := by
  by_cases hc : c' = c
  · subst hc
    simp
  · simp [hc]

/-- `false` for a fiber without a group. -/
def poisoned (s : Threads n) (f : ThreadFiber) : Bool :=
  match f.group with
  | none => false
  | some g => (s.groups g).poisoned

def poison (s : Threads n) (g : Option Nat) : Threads n := s.onGroup g fun gr => { gr with poisoned := true }

def countIn (s : Threads n) (f : ThreadFiber) : Threads n := s.onGroup f.group fun gr => { gr with live := gr.live + 1 }

def countOut (s : Threads n) (f : ThreadFiber) : Threads n := s.onGroup f.group fun gr => { gr with live := gr.live - 1 }

/-- The first step of `spawn_fiber`. -/
def beginSpawn (s : Threads n) (c : Fin n) (f : ThreadFiber) : Threads n :=
  { (s.countIn f).setCall c (.spawning f) with next := s.next + 1 }

/-- The critical section in which `run_one` inserts a fiber that has suspended. -/
def insert (s : Threads n) (c : Fin n) (f : ThreadFiber) : Threads n :=
  let i := shardOf f.parkKey
  let sh := s.waitq i
  let f' := { f with parkKey := 0 }
  match spendCredit sh.credits f.parkKey with
  | some credits => (s.setShard i { sh with credits := credits }).setPhase c (.requeuing f')
  | none =>
    let w : Waiter := ⟨f.parkKey, f.parkDeadline, f'⟩
    ((s.setShard i { sh with waiters := sh.waiters ++ [w] }).setPhase c .idle).setTimed
      (s.timedWaiters + if w.timed then 1 else 0)

theorem insert_of_credit {s : Threads n} {f : ThreadFiber} {credits : List (Nat × Nat)} (c : Fin n)
    (h : spendCredit (s.waitq (shardOf f.parkKey)).credits f.parkKey = some credits) :
    s.insert c f = (s.setShard (shardOf f.parkKey) { s.waitq (shardOf f.parkKey) with credits := credits }).setPhase c
      (.requeuing { f with parkKey := 0 }) := by
  simp only [insert, h]

theorem insert_of_no_credit {s : Threads n} {f : ThreadFiber} (c : Fin n)
    (h : spendCredit (s.waitq (shardOf f.parkKey)).credits f.parkKey = none) :
    s.insert c f = ((s.setShard (shardOf f.parkKey) { s.waitq (shardOf f.parkKey) with
      waiters := (s.waitq (shardOf f.parkKey)).waiters ++
        [⟨f.parkKey, f.parkDeadline, { f with parkKey := 0 }⟩] }).setPhase c .idle).setTimed
      (s.timedWaiters + if Waiter.timed ⟨f.parkKey, f.parkDeadline, { f with parkKey := 0 }⟩ then 1 else 0) := by
  simp only [insert, h]

/-- The critical section of `wake_key`. -/
def wakeKey (s : Threads n) (c : Fin n) (key count : Nat) : Threads n :=
  let i := shardOf key
  let sh := s.waitq i
  let r := drain (·.key == key) count sh.waiters
  let credits := if r.1.length < count then leaveCredit sh.credits key else sh.credits
  ((s.setShard i ⟨r.2, credits⟩).setCall c (.waking (r.1.map (·.fiber)))).setTimed
    (s.timedWaiters - r.1.countP (·.timed))

/-- The critical section of `expire_timeouts` in one shard. -/
def expireShard (s : Threads n) (c : Fin n) (now : Nat) (i : Fin waitqShards) (expired : List ThreadFiber) :
    Threads n :=
  let sh := s.waitq i
  let r := drain (fun w => decide (w.deadline ≤ now)) (sh.waiters.length + 1) sh.waiters
  ((s.setShard i { sh with waiters := r.2 }).setCall c (.expiring now (i + 1) (expired ++ r.1.map (·.fiber)))).setTimed
    (s.timedWaiters - r.1.length)

/-- The critical section of `kill_group_waiters` in one shard. -/
def killShard (s : Threads n) (c : Fin n) (g : Nat) (i : Fin waitqShards) (killed : List ThreadFiber) : Threads n :=
  let sh := s.waitq i
  let r := drain (fun w => decide (w.fiber.group = some g)) (sh.waiters.length + 1) sh.waiters
  ((s.setShard i { sh with waiters := r.2 }).setCall c (.killing g (i + 1) (killed ++ r.1.map (·.fiber)))).setTimed
    (s.timedWaiters - r.1.countP (·.timed))

/-- What `spawn_fiber` does after it has failed. -/
def afterDrop (f : ThreadFiber) (kills : Bool) : ThreadCall :=
  match f.group, kills with
  | some g, true => .killing g 0 []
  | _, _ => .none

def advanceCall (s : Threads n) (c : Fin n) : ThreadCall → Option (Threads n)
  | .none | .spawning _ => none
  | .waking fs => some ((s.enqueue fs).setCall c .none)
  | .expiring now i fs =>
    if h : i < waitqShards then some (s.expireShard c now ⟨i, h⟩ fs) else some ((s.enqueue fs).setCall c .none)
  | .killing g i fs =>
    if h : i < waitqShards then some (s.killShard c g ⟨i, h⟩ fs)
    else
      match fs with
      | f :: fs => some ((s.countOut f).setCall c (.killing g i fs))
      | [] => some ((s.setCall c .none).addKilled g)
  | .dropping f kills => some ((s.countOut f).setCall c (afterDrop f kills))

def advancePhase (s : Threads n) (c : Fin n) : RunPhase → Option (Threads n)
  | .idle | .running _ | .rechecking _ _ _ => none
  | .taken f => some (s.setPhase c (if s.poisoned f then .finishing f else .running f))
  | .suspended f =>
    some (s.setPhase c (if s.poisoned f then .finishing f else if f.parkKey = 0 then .requeuing f else .parking f))
  | .parking f => some (s.insert c f)
  | .requeuing f => some ((s.enqueue [f]).setPhase c .idle)
  | .finishing f => some ((s.countOut f).setPhase c .idle)

def advance (s : Threads n) (c : Fin n) : Option (Threads n) :=
  match (s.cores c).call with
  | .none => s.advancePhase c (s.cores c).phase
  | call => s.advanceCall c call

def mayCall (s : Threads n) (c : Fin n) : Bool :=
  match s.cores c with
  | ⟨.idle, .none⟩ | ⟨.running _, .none⟩ => true
  | _ => false

def step (s : Threads n) : ThreadStep n → Option (Threads n)
  | .take c =>
    match s.cores c, s.runq with
    | ⟨.idle, .none⟩, f :: q => some ({ s with runq := q }.setPhase c (.taken f))
    | _, _ => none
  | .advance c => s.advance c
  | .exit c =>
    match s.cores c with
    | ⟨.running f, .none⟩ => some (s.setPhase c (.finishing f))
    | _ => none
  | .wait c key timeoutNs =>
    match s.cores c with
    | ⟨.running f, .none⟩ => some (s.setPhase c (.rechecking f key (futexDeadline s.ticks timeoutNs)))
    | _ => none
  | .recheck c notEqual =>
    match s.cores c with
    | ⟨.rechecking f key deadline, .none⟩ =>
      some (s.setPhase c
        (if notEqual then .running f else .suspended { f with parkKey := key, parkDeadline := deadline }))
    | _ => none
  | .sleep c addr deadline =>
    match s.cores c with
    | ⟨.running f, .none⟩ => some (s.setPhase c (.suspended { f with parkKey := addr, parkDeadline := deadline }))
    | _ => none
  | .notify c key count => if s.mayCall c then some (s.wakeKey c key count) else none
  | .expire c =>
    if s.cores c = ⟨.idle, .none⟩ then
      if s.timedWaiters = 0 then some s else some (s.setCall c (.expiring s.ticks 0 []))
    else none
  | .kill c g => if s.mayCall c then some ((s.poison (some g)).setCall c (.killing g 0 [])) else none
  | .spawn c g =>
    if s.mayCall c then some (s.beginSpawn c ⟨s.next, some g, 0, 0⟩) else none
  | .created c outcome =>
    match (s.cores c).call, outcome with
    | .spawning f, .ok => some ((s.enqueue [f]).setCall c .none)
    | .spawning f, .noStack => some ((s.poison f.group).setCall c (.dropping f true))
    | .spawning f, .noFiber => some ((s.poison f.group).setCall c (.dropping f false))
    | _, _ => none
  | .tick => some { s with ticks := (s.ticks + 1) % 2 ^ 64 }

open Option

inductive Transition (s : Threads n) : ThreadStep n → Threads n → Prop
  | take {c : Fin n} {f : ThreadFiber} {q : List ThreadFiber} (hc : s.cores c = ⟨.idle, .none⟩) (hq : s.runq = f :: q) :
      Transition s (.take c) ({ s with runq := q }.setPhase c (.taken f))
  | resume {c : Fin n} {f : ThreadFiber} (hc : s.cores c = ⟨.taken f, .none⟩) :
      Transition s (.advance c) (s.setPhase c (if s.poisoned f then .finishing f else .running f))
  | suspended {c : Fin n} {f : ThreadFiber} (hc : s.cores c = ⟨.suspended f, .none⟩) :
      Transition s (.advance c) (s.setPhase c
        (if s.poisoned f then .finishing f else if f.parkKey = 0 then .requeuing f else .parking f))
  | insert {c : Fin n} {f : ThreadFiber} (hc : s.cores c = ⟨.parking f, .none⟩) :
      Transition s (.advance c) (s.insert c f)
  | requeue {c : Fin n} {f : ThreadFiber} (hc : s.cores c = ⟨.requeuing f, .none⟩) :
      Transition s (.advance c) ((s.enqueue [f]).setPhase c .idle)
  | finish {c : Fin n} {f : ThreadFiber} (hc : s.cores c = ⟨.finishing f, .none⟩) :
      Transition s (.advance c) ((s.countOut f).setPhase c .idle)
  | wake {c : Fin n} {fs : List ThreadFiber} (hc : (s.cores c).call = .waking fs) :
      Transition s (.advance c) ((s.enqueue fs).setCall c .none)
  | expireShard {c : Fin n} {now : Nat} {i : Fin waitqShards} {fs : List ThreadFiber}
      (hc : (s.cores c).call = .expiring now i fs) : Transition s (.advance c) (s.expireShard c now i fs)
  | expired {c : Fin n} {now i : Nat} {fs : List ThreadFiber} (hc : (s.cores c).call = .expiring now i fs) :
      Transition s (.advance c) ((s.enqueue fs).setCall c .none)
  | killShard {c : Fin n} {g : Nat} {i : Fin waitqShards} {fs : List ThreadFiber}
      (hc : (s.cores c).call = .killing g i fs) : Transition s (.advance c) (s.killShard c g i fs)
  | reap {c : Fin n} {g i : Nat} {f : ThreadFiber} {fs : List ThreadFiber}
      (hc : (s.cores c).call = .killing g i (f :: fs)) :
      Transition s (.advance c) ((s.countOut f).setCall c (.killing g i fs))
  | killed {c : Fin n} {g i : Nat} (hc : (s.cores c).call = .killing g i []) (hi : waitqShards ≤ i) :
      Transition s (.advance c) ((s.setCall c .none).addKilled g)
  | drop {c : Fin n} {f : ThreadFiber} {kills : Bool} (hc : (s.cores c).call = .dropping f kills) :
      Transition s (.advance c) ((s.countOut f).setCall c (afterDrop f kills))
  | exit {c : Fin n} {f : ThreadFiber} (hc : s.cores c = ⟨.running f, .none⟩) :
      Transition s (.exit c) (s.setPhase c (.finishing f))
  | wait {c : Fin n} {f : ThreadFiber} {key : Nat} {timeoutNs : Int} (hc : s.cores c = ⟨.running f, .none⟩) :
      Transition s (.wait c key timeoutNs) (s.setPhase c (.rechecking f key (futexDeadline s.ticks timeoutNs)))
  | notEqual {c : Fin n} {f : ThreadFiber} {key deadline : Nat} (hc : s.cores c = ⟨.rechecking f key deadline, .none⟩) :
      Transition s (.recheck c true) (s.setPhase c (.running f))
  | equal {c : Fin n} {f : ThreadFiber} {key deadline : Nat} (hc : s.cores c = ⟨.rechecking f key deadline, .none⟩) :
      Transition s (.recheck c false)
        (s.setPhase c (.suspended { f with parkKey := key, parkDeadline := deadline }))
  | sleep {c : Fin n} {f : ThreadFiber} {addr deadline : Nat} (hc : s.cores c = ⟨.running f, .none⟩) :
      Transition s (.sleep c addr deadline)
        (s.setPhase c (.suspended { f with parkKey := addr, parkDeadline := deadline }))
  | notify {c : Fin n} {key count : Nat} (hc : s.mayCall c = true) :
      Transition s (.notify c key count) (s.wakeKey c key count)
  | expireNone {c : Fin n} : Transition s (.expire c) s
  | expire {c : Fin n} (hc : s.cores c = ⟨.idle, .none⟩) :
      Transition s (.expire c) (s.setCall c (.expiring s.ticks 0 []))
  | kill {c : Fin n} {g : Nat} (hc : s.mayCall c = true) :
      Transition s (.kill c g) ((s.poison (some g)).setCall c (.killing g 0 []))
  | spawn {c : Fin n} {g : Nat} (hc : s.mayCall c = true) :
      Transition s (.spawn c g) (s.beginSpawn c ⟨s.next, some g, 0, 0⟩)
  | created {c : Fin n} {f : ThreadFiber} (hc : (s.cores c).call = .spawning f) :
      Transition s (.created c .ok) ((s.enqueue [f]).setCall c .none)
  | failed {c : Fin n} {f : ThreadFiber} {outcome : Creation} {kills : Bool} (hc : (s.cores c).call = .spawning f) :
      Transition s (.created c outcome) ((s.poison f.group).setCall c (.dropping f kills))
  | tick : Transition s .tick { s with ticks := (s.ticks + 1) % 2 ^ 64 }

theorem call_of_mayCall {s : Threads n} {c : Fin n} (h : s.mayCall c = true) : (s.cores c).call = .none := by
  unfold mayCall at h
  split at h <;> simp_all

theorem transition_of_advance {s s' : Threads n} {c : Fin n} (h : s.advance c = some s') :
    Transition s (.advance c) s' := by
  rcases hcore : s.cores c with ⟨phase, call⟩
  have hcall : (s.cores c).call = call := by rw [hcore]
  cases call <;> simp only [advance, hcore, advanceCall, reduceCtorEq] at h
  case none =>
    cases phase with
    | idle | running | rechecking => simp [advancePhase] at h
    | taken f => exact some.inj h ▸ .resume hcore
    | suspended f => exact some.inj h ▸ .suspended hcore
    | parking f => exact some.inj h ▸ .insert hcore
    | requeuing f => exact some.inj h ▸ .requeue hcore
    | finishing f => exact some.inj h ▸ .finish hcore
  case waking fs =>
    exact some.inj h ▸ .wake hcall
  case expiring now i fs =>
    split_ifs at h with hi
    · exact some.inj h ▸ .expireShard hcall
    · exact some.inj h ▸ .expired hcall
  case killing g i fs =>
    split_ifs at h with hi
    · exact some.inj h ▸ .killShard hcall
    · cases fs with
      | nil => exact some.inj h ▸ .killed hcall (Nat.le_of_not_lt hi)
      | cons f fs => exact some.inj h ▸ .reap hcall
  case dropping f kills =>
    exact some.inj h ▸ .drop hcall

theorem transition_of_step {s s' : Threads n} {e : ThreadStep n} (h : s.step e = some s') : Transition s e s' := by
  cases e <;> simp only [step] at h
  case advance c => exact transition_of_advance h
  case take c =>
    split at h <;> cases h
    exact .take ‹_› ‹_›
  case exit c | wait c key ns | sleep c addr deadline =>
    split at h <;> cases h
    first
      | exact .exit ‹_›
      | exact .wait ‹_›
      | exact .sleep ‹_›
  case recheck c notEqual =>
    cases notEqual <;> split at h <;> cases h
    · exact .equal ‹_›
    · exact .notEqual ‹_›
  case notify c key count =>
    split_ifs at h with hc
    exact some.inj h ▸ .notify hc
  case expire c =>
    split_ifs at h with hc hzero
    · exact some.inj h ▸ .expireNone
    · exact some.inj h ▸ .expire hc
  case kill c g =>
    split_ifs at h with hc
    exact some.inj h ▸ .kill hc
  case spawn c g =>
    split_ifs at h with hc
    exact some.inj h ▸ .spawn hc
  case created c outcome =>
    split at h <;> cases h
    · exact .created ‹_›
    · exact .failed ‹_›
    · exact .failed ‹_›
  case tick => exact some.inj h ▸ .tick

end Threads
end Ruos.Wasm
