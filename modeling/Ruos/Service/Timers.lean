import Ruos.Lib.Reorder
import Ruos.Lib.Run
import Ruos.Service.Schedule

/-! The timers of `service/mod.rs` and the task that fires them, `unit_scheduler_task` of `executor/mod.rs`. That task,
the dispatcher, which reloads the units, and the task that loads them at boot share one executor. There is no `await`
between `timers_due_snapshot` and the last `timer_fired` of a pass, so nothing else runs in between. -/
namespace Ruos.Service

open Lib List

structure TimerConfig where
  name : String
  unit : String
  schedule : Schedule
  enabled : Bool
deriving DecidableEq

/-- `serial` and `instant` are not in the code: the number of the load that made the entry, and the instant at which it
is to be fired next. -/
structure Timer extends TimerConfig where
  nextFire : Nat
  lastFire : Option Nat
  fromFile : Bool
  serial : Nat
  instant : Nat
deriving DecidableEq

/-- A call of `timer_fired`, for a timer that the snapshot shows to be due. `updated` is the timer that the call
changes, and `answer` the unit that it returns. -/
structure Firing where
  found : Timer
  updated : Option Timer
  answer : Option String
  epoch : Nat
  ticks : Nat
deriving DecidableEq

/-- `pass` holds the rest of the snapshot while the scheduler goes through it. -/
structure Timers where
  timers : List Timer
  epoch : Nat
  ticks : Nat
  pass : List (Nat × Timer)
  nextSerial : Nat
  firings : List Firing

inductive TimerEvent
  /-- The scheduler reads the clocks and takes its snapshot. -/
  | poll (epoch ticks : Nat)
  /-- It goes on to the next timer of the snapshot. -/
  | next
  /-- `reload` drops the timers that come from files. -/
  | clear
  /-- `load_from_disk` has read a file; it has read the clocks before. -/
  | load (file : TimerConfig) (epoch ticks : Nat)

def Schedule.isBoot : Schedule → Bool
  | .bootPlus _ => true
  | _ => false

def Schedule.clock (s : Schedule) (epoch ticks : Nat) : Nat := if s.isCalendar then epoch else ticks

def Timer.isDue (t : Timer) (epoch ticks : Nat) : Bool := t.nextFire ≤ t.schedule.clock epoch ticks

def Timer.fired (t : Timer) (epochNow ticksNow : Nat) : Timer :=
  { t with
    lastFire := some (t.schedule.clock epochNow ticksNow)
    nextFire := computeNext t.schedule epochNow ticksNow
    instant := t.schedule.instantAfter epochNow ticksNow
    enabled := t.enabled && !t.schedule.isBoot }

def TimerConfig.armed (file : TimerConfig) (epoch ticks serial : Nat) : Timer :=
  { file with
    nextFire := computeNext file.schedule epoch ticks
    lastFire := none
    fromFile := true
    serial := serial
    instant := file.schedule.instantAfter epoch ticks }

namespace Timers

def snapshot (timers : List Timer) : List (Nat × Timer) :=
  (List.range timers.length).filterMap fun i => (timers[i]?.filter (·.enabled)).map (i, ·)

def start (timers : List Timer) : Timers := ⟨timers, 0, 0, [], timers.length, []⟩

/-- `timer_fired` for the head of the snapshot. -/
def fire (s : Timers) (idx : Nat) (found : Timer) (rest : List (Nat × Timer)) : Timers :=
  { s with
    pass := rest
    timers := s.timers.modify idx (·.fired s.epoch s.ticks)
    firings := s.firings ++ [⟨found, s.timers[idx]?, s.timers[idx]?.map (·.unit), s.epoch, s.ticks⟩] }

def add (s : Timers) (file : TimerConfig) (epoch ticks : Nat) : Timers :=
  { s with timers := s.timers ++ [file.armed epoch ticks s.nextSerial], nextSerial := s.nextSerial + 1 }

def step (s : Timers) : TimerEvent → Option Timers
  | .poll epoch ticks =>
    if s.pass = [] ∧ s.epoch ≤ epoch ∧ s.ticks ≤ ticks then
      some { s with epoch := epoch, ticks := ticks, pass := snapshot s.timers }
    else none
  | .next =>
    match s.pass with
    | [] => none
    | (idx, found) :: rest =>
      some (if found.isDue s.epoch s.ticks then s.fire idx found rest else { s with pass := rest })
  | .clear => if s.pass = [] then some { s with timers := s.timers.filter (!·.fromFile) } else none
  | .load file epoch ticks =>
    if s.pass = [] then some (if s.timers.any (·.name = file.name) then s else s.add file epoch ticks) else none

inductive Transition (s : Timers) : TimerEvent → Timers → Prop
  | poll {epoch ticks : Nat} :
      Transition s (.poll epoch ticks) { s with epoch := epoch, ticks := ticks, pass := snapshot s.timers }
  | fire {idx : Nat} {found : Timer} {rest : List (Nat × Timer)} (hpass : s.pass = (idx, found) :: rest)
      (hdue : found.isDue s.epoch s.ticks) : Transition s .next (s.fire idx found rest)
  | skip {p : Nat × Timer} {rest : List (Nat × Timer)} (hpass : s.pass = p :: rest) :
      Transition s .next { s with pass := rest }
  | clear (hpass : s.pass = []) : Transition s .clear { s with timers := s.timers.filter (!·.fromFile) }
  | known {file : TimerConfig} {epoch ticks : Nat} : Transition s (.load file epoch ticks) s
  | load {file : TimerConfig} {epoch ticks : Nat} (hpass : s.pass = [])
      (hnew : ¬s.timers.any (·.name = file.name)) : Transition s (.load file epoch ticks) (s.add file epoch ticks)

variable {s s' : Timers} {e : TimerEvent} {idx : Nat} {found : Timer} {rest : List (Nat × Timer)}

theorem transition_of_step (hs : s.step e = some s') : Transition s e s' := by
  cases e with
  | poll epoch ticks =>
    rw [step] at hs
    split_ifs at hs
    cases hs
    exact .poll
  | next =>
    cases hpass : s.pass with
    | nil =>
      rw [step, hpass] at hs
      cases hs
    | cons p rest =>
      simp only [step, hpass] at hs
      split_ifs at hs with hdue <;> cases hs
      · exact .fire hpass hdue
      · exact .skip hpass
  | clear =>
    rw [step] at hs
    split_ifs at hs with hpass
    cases hs
    exact .clear hpass
  | load file epoch ticks =>
    rw [step] at hs
    split_ifs at hs with hpass hany <;> cases hs
    · exact .known
    · exact .load hpass hany

structure InStep (s : Timers) : Prop where
  found : ∀ p ∈ s.pass, s.timers[p.1]? = some p.2 ∧ p.2.enabled
  once : (s.pass.map Prod.fst).Nodup

theorem inStep_snapshot (timers : List Timer) :
    (∀ p ∈ snapshot timers, timers[p.1]? = some p.2 ∧ p.2.enabled) ∧ ((snapshot timers).map Prod.fst).Nodup := by
  constructor
  · intro p hp
    obtain ⟨i, -, hp⟩ := mem_filterMap.mp hp
    obtain ⟨t, ht, rfl⟩ := Option.map_eq_some_iff.mp hp
    exact Option.filter_eq_some_iff.mp ht
  · have hmap : (snapshot timers).map Prod.fst =
        (range timers.length).filter fun i => (timers[i]?.filter (·.enabled)).isSome := by
      rw [snapshot, map_filterMap, ← filterMap_eq_filter]
      congr 1
      funext i
      cases h : timers[i]?.filter (·.enabled) <;> simp [Option.guard, h]
    rw [hmap]
    exact nodup_range.filter _

theorem InStep.of_pass_nil (h : s.pass = []) : InStep s := by
  constructor <;> simp [h]

theorem InStep.step (h : InStep s) (hs : s.step e = some s') : InStep s' := by
  obtain ⟨hfound, honce⟩ := id h
  cases transition_of_step hs with
  | poll => exact ⟨(inStep_snapshot s.timers).1, (inStep_snapshot s.timers).2⟩
  | fire hpass hdue =>
    rw [hpass] at hfound honce
    obtain ⟨hnot, honce⟩ := nodup_cons.mp honce
    refine ⟨fun q hq => ?_, honce⟩
    obtain ⟨hat, hen⟩ := hfound q (mem_cons_of_mem _ hq)
    refine ⟨?_, hen⟩
    rw [fire, getElem?_modify, hat]
    exact congrArg some (if_neg fun heq => hnot (mem_map.mpr ⟨q, hq, heq.symm⟩))
  | skip hpass =>
    rw [hpass] at hfound honce
    exact ⟨fun q hq => hfound q (mem_cons_of_mem _ hq), (nodup_cons.mp honce).2⟩
  | clear hpass | load hpass hnew => exact .of_pass_nil hpass
  | known => exact h

theorem InStep.head (h : InStep s) (hpass : s.pass = (idx, found) :: rest) :
    s.timers[idx]? = some found ∧ found.enabled :=
  h.found (idx, found) (by rw [hpass]; exact mem_cons_self)

def afterBoot : TimerConfig := ⟨"late", "sync", .bootPlus 500, true⟩

def nightly : TimerConfig := ⟨"nightly", "backup", .daily 3 30, true⟩

/-- Both timers are loaded and fire in one pass; then the units are reloaded and the passes go on. -/
def reloads : List TimerEvent :=
  [.load afterBoot 0 10, .load nightly 0 10, .poll 13000 600, .next, .next, .clear, .load nightly 13001 700,
    .load afterBoot 13001 700, .poll 13002 800, .next, .next]

def reloadedState : Timers :=
  (exec step (start []) reloads).getD (start [])

/-- The next instant of a timer that is armed has 64 bits, a timer that is to fire `every 0s` is not polled twice in one
tick, and a timer with `boot+` that has fired is not loaded again. -/
def Heeded (s : Timers) : TimerEvent → Prop
  | .poll .. | .clear => True
  | .next => ∀ p ∈ s.pass.head?, p.2.isDue s.epoch s.ticks →
      p.2.schedule.instantAfter s.epoch s.ticks < 2 ^ 64 ∧ (p.2.schedule = .everyTicks 0 → p.2.nextFire < s.ticks)
  | .load file epoch ticks => file.schedule.instantAfter epoch ticks < 2 ^ 64 ∧
      (file.schedule.isBoot → ∀ f ∈ s.firings, f.found.schedule.isBoot → f.found.name ≠ file.name)

instance (s : Timers) (e : TimerEvent) : Decidable (Heeded s e) := by
  unfold Heeded
  split <;> infer_instance

/-- A timer fires at most once for an instant and not before it, and with `boot+` only once. -/
structure Timely (firings : List Firing) : Prop where
  once : firings.Pairwise fun f g => f.found.serial = g.found.serial → f.found.instant ≠ g.found.instant
  notBefore : ∀ f ∈ firings, f.found.instant ≤ f.found.schedule.clock f.epoch f.ticks
  bootOnce : firings.Pairwise fun f g =>
    f.found.schedule.isBoot → g.found.schedule.isBoot → f.found.name ≠ g.found.name

structure Awaits (firings : List Firing) (t : Timer) : Prop where
  exact : t.nextFire = t.instant
  later : t.enabled → ∀ f ∈ firings, f.found.serial = t.serial → f.found.instant < t.instant
  booting : t.enabled → t.schedule.isBoot → ∀ f ∈ firings, f.found.schedule.isBoot → f.found.name ≠ t.name

structure Inv (s : Timers) : Prop where
  inStep : InStep s
  names : (s.timers.map (·.name)).Nodup
  serials : (s.timers.map (·.serial)).Nodup
  issued : ∀ t ∈ s.timers, t.serial < s.nextSerial
  logged : ∀ f ∈ s.firings, f.found.serial < s.nextSerial
  awaits : ∀ t ∈ s.timers, Awaits s.firings t
  timely : Timely s.firings

theorem inv_start : Inv (start []) where
  inStep := .of_pass_nil rfl
  names := nodup_nil
  serials := nodup_nil
  issued _ ht := absurd ht not_mem_nil
  logged _ hf := absurd hf not_mem_nil
  awaits _ ht := absurd ht not_mem_nil
  timely := ⟨.nil, fun _ hf => absurd hf not_mem_nil, .nil⟩

theorem Inv.clear (h : Inv s) (hpass : s.pass = []) : Inv { s with timers := s.timers.filter (!·.fromFile) } where
  inStep := .of_pass_nil hpass
  names := h.names.sublist (filter_sublist.map _)
  serials := h.serials.sublist (filter_sublist.map _)
  issued t ht := h.issued t (mem_of_mem_filter ht)
  __ := h
  awaits t ht := h.awaits t (mem_of_mem_filter ht)

theorem Inv.load {file : TimerConfig} {epoch ticks : Nat} (h : Inv s) (hg : Heeded s (.load file epoch ticks))
    (hpass : s.pass = []) (hnew : ¬s.timers.any (·.name = file.name)) : Inv (s.add file epoch ticks) where
  inStep := .of_pass_nil hpass
  names := by
    rw [add, map_append, map_singleton, ← concat_eq_append]
    apply h.names.concat
    simpa [TimerConfig.armed] using hnew
  serials := by
    rw [add, map_append, map_singleton, ← concat_eq_append]
    apply h.serials.concat
    intro hmem
    obtain ⟨t, ht, heq⟩ := mem_map.mp hmem
    exact absurd heq (h.issued t ht).ne
  issued t ht := by
    rcases mem_append.mp ht with ht | ht
    · exact (h.issued t ht).trans (Nat.lt_succ_self _)
    · rw [mem_singleton.mp ht]
      exact Nat.lt_succ_self _
  logged f hf := (h.logged f hf).trans (Nat.lt_succ_self _)
  awaits t ht := by
    rcases mem_append.mp ht with ht | ht
    · exact h.awaits t ht
    · rw [mem_singleton.mp ht]
      exact ⟨computeNext_eq hg.1, fun _ f hf heq => absurd heq (h.logged f hf).ne, fun _ hboot => hg.2 hboot⟩
  timely := h.timely

theorem Awaits.fired {firings : List Firing} {t : Timer} {epoch ticks : Nat} {g : Firing} (h : Awaits firings t)
    (hg : g.found = t) (hen : t.enabled)
    (hdue : t.isDue epoch ticks) (hfits : t.schedule.instantAfter epoch ticks < 2 ^ 64)
    (hzero : t.schedule = .everyTicks 0 → t.nextFire < ticks) : Awaits (firings ++ [g]) (t.fired epoch ticks) := by
  have hready : t.instant ≤ t.schedule.clock epoch ticks := h.exact ▸ of_decide_eq_true hdue
  refine ⟨computeNext_eq hfits, fun hen' f hf hser => ?_, fun hen' hboot => ?_⟩
  · have hboot : t.schedule.isBoot = false := by simpa [Timer.fired, hen] using hen'
    have hlater : t.instant < t.schedule.instantAfter epoch ticks := by
      cases hs : t.schedule with
      | everyTicks n =>
        have hready : t.instant ≤ ticks := by simpa [hs, Schedule.clock, Schedule.isCalendar] using hready
        rw [h.exact, hs] at hzero
        cases n with
        | zero => exact hzero rfl
        | succ n => exact Nat.lt_succ_of_le (Nat.le_add_right_of_le hready)
      | bootPlus n => simp [hs, Schedule.isBoot] at hboot
      | hourly | daily | weekly =>
        rw [hs] at hready
        exact hready.trans_lt (lt_instantAfter rfl epoch ticks)
    rcases mem_append.mp hf with hf | hf
    · exact (h.later hen f hf hser).trans hlater
    · rw [mem_singleton.mp hf, hg]
      exact hlater
  · have hboot : t.schedule.isBoot := hboot
    simp [Timer.fired, hboot] at hen'

theorem Inv.fired (h : Inv s) (hpass : s.pass = (idx, found) :: rest) (hdue : found.isDue s.epoch s.ticks)
    (hg : Heeded s .next) (hin : InStep (s.fire idx found rest)) : Inv (s.fire idx found rest) := by
  obtain ⟨hat, hen⟩ := h.inStep.head hpass
  obtain ⟨hfits, hzero⟩ := hg (idx, found) (by rw [hpass]; rfl) hdue
  have hmem := mem_of_getElem? hat
  have haw := h.awaits found hmem
  have hready : found.instant ≤ found.schedule.clock s.epoch s.ticks := haw.exact ▸ of_decide_eq_true hdue
  have hser : (s.timers.modify idx (·.fired s.epoch s.ticks)).map (·.serial) = s.timers.map (·.serial) := by
    apply map_modify_of_eq
    intro t
    rfl
  have hnames : (s.timers.modify idx (·.fired s.epoch s.ticks)).map (·.name) = s.timers.map (·.name) := by
    apply map_modify_of_eq
    intro t
    rfl
  have hother : ∀ t ∈ s.timers.modify idx (·.fired s.epoch s.ticks), t = found.fired s.epoch s.ticks ∨
      t ∈ s.timers ∧ t.serial ≠ found.serial ∧ t.name ≠ found.name := by
    intro t ht
    rcases mem_modify_of_nodup h.serials hat ht with heq | ⟨hold, hser⟩
    · exact .inl heq
    · rcases mem_modify_of_nodup h.names hat ht with heq | ⟨-, hname⟩
      · exact .inl heq
      · exact .inr ⟨hold, hser, hname⟩
  refine ⟨hin, hnames ▸ h.names, hser ▸ h.serials, fun t ht => ?_, fun f hf => ?_, fun t ht => ?_, ?_, fun f hf => ?_,
    ?_⟩
  · rcases hother t ht with rfl | ⟨hold, -⟩
    · exact h.issued found hmem
    · exact h.issued t hold
  · rcases mem_append.mp hf with hf | hf
    · exact h.logged f hf
    · rw [mem_singleton.mp hf]
      exact h.issued found hmem
  · rcases hother t ht with rfl | ⟨hold, hser, hname⟩
    · exact haw.fired rfl hen hdue hfits hzero
    · have hold := h.awaits t hold
      refine ⟨hold.exact, fun hen f hf heq => ?_, fun hen hboot f hf => ?_⟩
      · rcases mem_append.mp hf with hf | hf
        · exact hold.later hen f hf heq
        · rw [mem_singleton.mp hf] at heq
          exact absurd heq.symm hser
      · rcases mem_append.mp hf with hf | hf
        · exact hold.booting hen hboot f hf
        · rw [mem_singleton.mp hf]
          exact fun _ => hname.symm
  · refine pairwise_append.mpr ⟨h.timely.once, pairwise_singleton _ _, fun f hf g hg heq => ?_⟩
    rw [mem_singleton.mp hg] at heq ⊢
    exact (haw.later hen f hf heq).ne
  · rcases mem_append.mp hf with hf | hf
    · exact h.timely.notBefore f hf
    · rw [mem_singleton.mp hf]
      exact hready
  · refine pairwise_append.mpr ⟨h.timely.bootOnce, pairwise_singleton _ _, fun f hf g hg hboot hboot' => ?_⟩
    rw [mem_singleton.mp hg] at hboot' ⊢
    exact haw.booting hen hboot' f hf hboot

theorem Inv.step (h : Inv s) (hg : Heeded s e) (hs : s.step e = some s') : Inv s' := by
  have hin := h.inStep.step hs
  cases transition_of_step hs with
  | poll | skip => exact { h with inStep := hin }
  | fire hpass hdue => exact h.fired hpass hdue hg hin
  | clear hpass => exact h.clear hpass
  | known => exact h
  | load hpass hnew => exact h.load hg hpass hnew

/-- A calendar schedule names the least instant that matches, if that has 64 bits, and in a run whose steps are heeded
the timers fire as they should. -/
theorem timers_follow_schedules {text : List Char} {schedule : Schedule} (hparse : scheduleParse text = .ok schedule)
    (epochNow nowTicks : Nat) {es : List TimerEvent} (hrun : exec step (start []) es = some s)
    (hguard : Guarded step Heeded (start []) es) : (schedule.isCalendar →
      (IsLeast { t | epochNow < t ∧ schedule.Matches t } (computeNext schedule epochNow nowTicks) ↔
        schedule.instantAfter epochNow nowTicks < 2 ^ 64)) ∧ Timely s.firings := by
  constructor
  · intro hcal
    exact computeNext_isLeast_iff (scheduleParse_inRange hparse) hcal epochNow nowTicks
  · have hstep : ∀ s e s', Inv s → Heeded s e → s.step e = some s' → Inv s' := fun _ _ _ h => h.step
    exact (exec_invariant hstep inv_start hguard hrun).timely

/-- Without a reload the two timers fire once, each at its instant. -/
theorem both_timers_timely :
    IsLeast { t | 13000 < t ∧ Schedule.Matches (.daily 3 30) t } (computeNext (.daily 3 30) 13000 600) ∧
      Timely ((exec step (start []) (reloads.take 5)).getD (start [])).firings := by
  have hparse : scheduleParse "daily 03:30".toList = .ok (.daily 3 30) := by decide +kernel
  have hrun : exec step (start []) (reloads.take 5) =
      some ((exec step (start []) (reloads.take 5)).getD (start [])) := by rfl
  obtain ⟨hleast, htimely⟩ := timers_follow_schedules hparse 13000 600 hrun (by decide)
  exact ⟨(hleast rfl).mpr (by decide), htimely⟩

/-- A reload arms a timer with `boot+` again that has fired before. -/
theorem reloaded_timer_fires_again :
    exec step (start []) reloads = some reloadedState ∧ ¬Timely reloadedState.firings := by
  refine ⟨by rfl, fun h => ?_⟩
  have hboot := h.bootOnce
  revert hboot
  decide

end Timers
end Ruos.Service
