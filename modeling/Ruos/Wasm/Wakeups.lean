import Ruos.Lib.KeyWrap
import Ruos.Wasm.Threads

/-! The tick at which a guest that sleeps or waits is to run again, against the time it asked for. -/
namespace Ruos.Wasm

open Lib

/-- The timer runs at 100 Hz. -/
def tickNs : Nat := 10_000_000

inductive Runtime
  | wasmi
  | wasmtime

def subType (sub : Octets 48) : Nat := leVal (slice sub.1 8 2)

def clockId (sub : Octets 48) : Nat := leVal (slice sub.1 16 4)

def timeoutNs (sub : Octets 48) : Nat := leVal (slice sub.1 24 8)

def abstime (sub : Octets 48) : Bool := leVal (slice sub.1 40 2) % 2 ≠ 0

/-- The rounded sum is one of 64 bits, the sum with the present tick saturates. -/
def relativeTarget (timeout now : Nat) : Nat := min (now + (timeout + tickNs - 1) % 2 ^ 64 / tickNs) (2 ^ 64 - 1)

/-- `poll_oneoff` of `host/lifecycle.rs`: how many ticks to sleep. -/
def wasmiSleep (sub : Octets 48) (now : Nat) : Nat :=
  let target :=
    if abstime sub then
      let absTicks := timeoutNs sub / tickNs
      if absTicks ≤ now then now else absTicks
    else relativeTarget (timeoutNs sub) now
  target - now

/-- `poll_oneoff` of `wt/wasi.rs`: the tick to sleep to. -/
def wasmtimeTarget (sub : Octets 48) (now : Nat) : Nat :=
  if abstime sub then max (timeoutNs sub / tickNs) now else relativeTarget (timeoutNs sub) now

inductive Wait
  | pollOneoff (runtime : Runtime) (sub : Octets 48)
  | futexWait (timeoutNs : Int)

/-- No tick if the subscription is not one of a clock, or if the wait has no limit. -/
def Wait.wakeTick (now : Nat) : Wait → Option Nat
  | .pollOneoff runtime sub =>
    if subType sub ≠ 0 then none else
    match runtime with
    | .wasmi => some (now + wasmiSleep sub now)
    | .wasmtime => some (wasmtimeTarget sub now)
  | .futexWait timeoutNs => if timeoutNs < 0 then none else some (futexDeadline now timeoutNs)

/-- What `clock_time_get` shows at boot: only the realtime clock of wasmtime starts at the epoch. -/
def clockAtBoot (bootEpoch : Nat) (runtime : Runtime) (sub : Octets 48) : Nat :=
  match runtime with
  | .wasmi => 0
  | .wasmtime => if clockId sub = 0 then bootEpoch else 0

/-- In nanoseconds since boot. A time that has passed is asked for as the present. -/
def Wait.requested (bootEpoch now : Nat) : Wait → Nat
  | .pollOneoff runtime sub =>
    if abstime sub then max (timeoutNs sub - clockAtBoot bootEpoch runtime sub) (now * tickNs)
    else now * tickNs + timeoutNs sub
  | .futexWait timeoutNs => now * tickNs + timeoutNs.toNat

def Wait.Overflows (now : Nat) : Wait → Prop
  | .pollOneoff _ sub => abstime sub = false ∧ 2 ^ 64 ≤ timeoutNs sub + tickNs - 1
  | .futexWait timeoutNs => 2 ^ 64 ≤ now + max (timeoutNs.toNat / tickNs) 1

/-- The tick is not before the time asked for and less than two ticks after it, and no sum overflowed. -/
def Wait.Timely (bootEpoch now : Nat) (w : Wait) : Prop :=
  ∀ tick, w.wakeTick now = some tick → ¬ w.Overflows now ∧
    w.requested bootEpoch now ≤ tick * tickNs ∧ tick * tickNs < w.requested bootEpoch now + 2 * tickNs

/-- A relative timeout whose tick is one of 64 bits; an absolute one on a clock that started with the machine, and then
a whole number of ticks unless it has passed (on another clock only by coincidence); a futex timeout of at most one tick
or of a whole number of ticks. -/
def Wait.Exact (bootEpoch now : Nat) : Wait → Prop
  | .pollOneoff runtime sub =>
    let base := clockAtBoot bootEpoch runtime sub
    if abstime sub then
      if timeoutNs sub ≤ base + now * tickNs then timeoutNs sub / tickNs ≤ now + 1
      else timeoutNs sub % tickNs ≤ base ∧ base < timeoutNs sub % tickNs + 2 * tickNs
    else timeoutNs sub + tickNs ≤ 2 ^ 64 ∧ now + (timeoutNs sub + tickNs - 1) / tickNs < 2 ^ 64
  | .futexWait timeoutNs => now + max (timeoutNs.toNat / tickNs) 1 < 2 ^ 64 ∧
    (timeoutNs.toNat ≤ tickNs ∨ timeoutNs.toNat % tickNs = 0)

theorem relative_iff (t now : Nat) : (¬ 2 ^ 64 ≤ t + tickNs - 1 ∧ now * tickNs + t ≤ relativeTarget t now * tickNs ∧
      relativeTarget t now * tickNs < now * tickNs + t + 2 * tickNs) ↔
    t + tickNs ≤ 2 ^ 64 ∧ now + (t + tickNs - 1) / tickNs < 2 ^ 64 := by
  unfold relativeTarget tickNs
  by_cases hfit : t + 10000000 - 1 < 2 ^ 64
  · omega
  · omega

theorem absolute_iff (t base now : Nat) : (max (t - base) (now * tickNs) ≤ max (t / tickNs) now * tickNs ∧
      max (t / tickNs) now * tickNs < max (t - base) (now * tickNs) + 2 * tickNs) ↔
    if t ≤ base + now * tickNs then t / tickNs ≤ now + 1 else t % tickNs ≤ base ∧ base < t % tickNs + 2 * tickNs := by
  unfold tickNs
  split_ifs <;> omega

theorem futex_iff (t now : Nat) : (¬ 2 ^ 64 ≤ now + max (t / tickNs) 1 ∧
      now * tickNs + t ≤ (now + max (t / tickNs) 1) % 2 ^ 64 * tickNs ∧
      (now + max (t / tickNs) 1) % 2 ^ 64 * tickNs < now * tickNs + t + 2 * tickNs) ↔
    now + max (t / tickNs) 1 < 2 ^ 64 ∧ (t ≤ tickNs ∨ t % tickNs = 0) := by
  unfold tickNs
  by_cases hfit : now + max (t / 10000000) 1 < 2 ^ 64
  · omega
  · omega

/-- Both runtimes sleep to the same tick. -/
theorem wasmiSleep_eq (sub : Octets 48) {now : Nat} (h : now < 2 ^ 64) :
    now + wasmiSleep sub now = wasmtimeTarget sub now := by
  have hrel : now ≤ relativeTarget (timeoutNs sub) now := le_min (Nat.le_add_right _ _) (by omega)
  unfold wasmiSleep wasmtimeTarget
  dsimp only
  split_ifs <;> omega

theorem wakeTick_pollOneoff (runtime : Runtime) (sub : Octets 48) (now : UInt64) :
    (Wait.pollOneoff runtime sub).wakeTick now.toNat =
      if subType sub ≠ 0 then none else some (wasmtimeTarget sub now.toNat) := by
  cases runtime with
  | wasmi => simp only [Wait.wakeTick, wasmiSleep_eq sub now.toNat_lt]
  | wasmtime => rfl

theorem wakes_timely_iff (bootEpoch : Nat) (now : UInt64) (w : Wait) :
    w.Timely bootEpoch now.toNat ↔ ((w.wakeTick now.toNat).isSome → w.Exact bootEpoch now.toNat) := by
  unfold Wait.Timely
  cases w with
  | pollOneoff runtime sub =>
    rw [wakeTick_pollOneoff]
    by_cases hclock : subType sub = 0
    · have hiff := absolute_iff (timeoutNs sub) (clockAtBoot bootEpoch runtime sub) now.toNat
      have hiff' := relative_iff (timeoutNs sub) now.toNat
      cases habs : abstime sub with
      | true => simpa [hclock, Wait.Overflows, Wait.requested, Wait.Exact, wasmtimeTarget, habs] using hiff
      | false => simpa [hclock, Wait.Overflows, Wait.requested, Wait.Exact, wasmtimeTarget, habs] using hiff'
    · simp [hclock]
  | futexWait t =>
    by_cases hneg : t < 0
    · simp [Wait.wakeTick, hneg]
    · have hdeadline : futexDeadline now.toNat t = (now.toNat + max (t.toNat / tickNs) 1) % 2 ^ 64 := if_neg hneg
      simpa [Wait.wakeTick, hneg, Wait.Overflows, Wait.requested, Wait.Exact, hdeadline] using
        futex_iff t.toNat now.toNat

def monotonic (timeout : Nat) (flags : UInt8) : Octets 48 :=
  ⟨List.replicate 16 0 ++ [1, 0, 0, 0, 0, 0, 0, 0] ++ leBytes 8 timeout ++ List.replicate 8 0 ++ flags ::
    List.replicate 7 0, by simp⟩

/-- At tick 5: a relative sleep of 2^64 - 1 ns ends at once, and one to 75 ms after boot and a wait of 15 ms end five
milliseconds too early. -/
theorem wakes_too_early : ¬ (Wait.pollOneoff .wasmi (monotonic (2 ^ 64 - 1) 0)).Timely 0 5 ∧
    ¬ (Wait.pollOneoff .wasmtime (monotonic 75_000_000 1)).Timely 0 5 ∧ ¬ (Wait.futexWait 15_000_000).Timely 0 5 := by
  refine ⟨fun h => ?_, fun h => ?_, fun h => ?_⟩
  · exact (h 5 (by decide)).1 ⟨by decide, by decide⟩
  · exact absurd (h 7 (by decide)).2.1 (by decide)
  · exact absurd (h 6 (by decide)).2.1 (by decide)

end Ruos.Wasm
