import Mathlib.Data.UInt

/-! Which windows run `frame` in an iteration of the compositor loop (`compute_awake` and `frame_all`). -/
namespace Ruos.Wm

open List

def graceFrames : UInt32 := 6

def shouldWake (framedOnce hasEvents stayAwake : Bool) (frameNo lastActive grace : UInt32) (ptyHasOutput : Bool) : Bool :=
  !framedOnce || hasEvents || stayAwake || ptyHasOutput || frameNo - lastActive < grace

/-- What the decision about a window reads, with the frame counter of the loop. -/
structure Sleeper where
  frameNo : UInt32
  lastActiveFrame : UInt32
  framedOnce : Bool
  events : Nat
  stayAwakeRequest : Bool
  wakePty : Option Nat

namespace Sleeper

/-- An iteration as one window sees it: the events it gets, whether it is raised, dragged, activated or maximized (of
its own accord also after `frame`), the output waiting on the PTYs, and what `frame` does when it is called. -/
structure Round where
  events : Nat
  touched : Bool
  touchedLater : Bool
  outputLen : Nat → Nat
  polled : Nat
  commits : Bool
  stayAwake : Bool
  wakePty : Option Nat

def spawn (frameNo : UInt32) : Sleeper := ⟨frameNo, 0, false, 0, false, none⟩

def touch (s : Sleeper) (touched : Bool) : Sleeper :=
  { s with lastActiveFrame := if touched then s.frameNo else s.lastActiveFrame }

def computeAwake (s : Sleeper) (outputLen : Nat → Nat) : Bool :=
  shouldWake s.framedOnce (s.events != 0) s.stayAwakeRequest s.frameNo s.lastActiveFrame graceFrames
    (s.wakePty.any (outputLen · > 0))

/-- The loop up to `frame_all`: the input, and the flags that are cleared. -/
def input (s : Sleeper) (i : Round) : Sleeper :=
  { touch { s with frameNo := s.frameNo + 1, events := s.events + i.events } i.touched with stayAwakeRequest := false }

def frame (s : Sleeper) (i : Round) : Sleeper :=
  { s with
    lastActiveFrame := s.frameNo
    framedOnce := s.framedOnce || i.commits
    events := s.events - i.polled
    stayAwakeRequest := i.stayAwake
    wakePty := i.wakePty }

/-- One iteration: whether `frame` is called, and what the next one starts with. -/
def iterate (s : Sleeper) (i : Round) : Bool × Sleeper :=
  if (s.input i).computeAwake i.outputLen then (true, ((s.input i).frame i).touch i.touchedLater)
  else (false, (s.input i).touch i.touchedLater)

def calls : Sleeper → List Round → List Bool
  | _, [] => []
  | s, i :: is => (s.iterate i).1 :: calls (s.iterate i).2 is

/-- Nothing wakes the window: no event, no output, no request to stay awake, and nothing is done to it. -/
def Quiet (i : Round) : Prop :=
  i.events = 0 ∧ i.touched = false ∧ i.touchedLater = false ∧ (∀ p, i.outputLen p = 0) ∧ i.stayAwake = false

/-- The iterations from the last activity to the next iteration, as the counter of 32 bits has them. -/
def idle (s : Sleeper) : Nat := (s.frameNo + 1 - s.lastActiveFrame).toNat

variable {s : Sleeper} {i j : Round} {is : List Round}

theorem called_of_awake (h : s.framedOnce = false ∨ s.idle < 6) : (s.iterate i).1 = true := by
  have hawake : (s.input i).computeAwake i.outputLen = true := by
    rcases h with hfirst | hidle
    · simp [computeAwake, shouldWake, input, touch, hfirst]
    · have hlt : (s.input i).frameNo - (s.input i).lastActiveFrame < graceFrames := by
        cases ht : i.touched
        · simpa [input, touch, ht, UInt32.lt_iff_toNat_lt] using! hidle
        · simp [input, touch, ht, graceFrames]
      simp [computeAwake, shouldWake, hlt]
  rw [iterate, if_pos hawake]

/-- Once `frame` was called it is called in the next iteration. -/
theorem awake_of_call (h : (s.iterate i).1 = true) : (s.iterate i).2.idle < 6 := by
  unfold iterate at h ⊢
  split_ifs at h ⊢
  simp [idle, touch, frame]

theorem calls_of_awake (h : s.framedOnce = false ∨ s.idle < 6) : ∀ b ∈ s.calls is, b = true := by
  induction is generalizing s with
  | nil => simp [calls]
  | cons i is ih =>
    have hcall := called_of_awake (i := i) h
    exact forall_mem_cons.mpr ⟨hcall, ih (.inr (awake_of_call hcall))⟩

/-- A window that has nothing to do and was not active for a while. -/
structure Asleep (s : Sleeper) : Prop where
  framed : s.framedOnce = true
  events : s.events = 0
  idle : 6 ≤ s.idle

theorem iterate_of_asleep (h : s.Asleep) (hq : Quiet i) : s.iterate i = (false, s.input i) := by
  obtain ⟨he, ht, hl, ho, -⟩ := hq
  have hidle : ¬ s.frameNo + 1 - s.lastActiveFrame < graceFrames := by
    exact Nat.not_lt.mpr h.idle
  have hnot : ¬ (s.input i).computeAwake i.outputLen = true := by
    simp [computeAwake, shouldWake, input, touch, ht, he, ho, h.framed, h.events, hidle]
  rw [iterate, if_neg hnot, hl]
  rfl

theorem idle_input (ht : i.touched = false) (hlt : s.idle + 1 < 2 ^ 32) : (s.input i).idle = s.idle + 1 := by
  have hnext : s.frameNo + 1 + 1 - s.lastActiveFrame = s.frameNo + 1 - s.lastActiveFrame + 1 := by grind
  simp only [idle, input, touch, ht, Bool.false_eq_true, if_false]
  rw [hnext]
  exact Nat.mod_eq_of_lt hlt

theorem calls_of_asleep (h : s.Asleep) (hq : ∀ i ∈ is, Quiet i) (hlen : s.idle + is.length ≤ 2 ^ 32) :
    ∀ b ∈ s.calls is, b = false := by
  induction is generalizing s with
  | nil => simp [calls]
  | cons i is ih =>
    obtain ⟨hi, hq⟩ := forall_mem_cons.mp hq
    rw [calls, iterate_of_asleep h hi]
    refine forall_mem_cons.mpr ⟨rfl, ?_⟩
    cases is with
    | nil => simp [calls]
    | cons k is =>
      simp only [length_cons] at hlen ih
      have hidle := idle_input (s := s) hi.2.1 (by omega)
      refine @ih (s.input i) ⟨h.framed, ?_, by rw [hidle]; exact h.idle.trans (Nat.le_succ _)⟩ hq (by omega)
      exact (congrArg (_ + ·) hi.1).trans h.events

/-- From its start on, a window runs `frame` in every iteration: after a call there is always another one. Only a window
that was not active for `GRACE_FRAMES` iterations sleeps until something happens or the counter comes round. -/
theorem frame_called_unless_asleep (frameNo : UInt32) (is : List Round) :
    (∀ b ∈ (spawn frameNo).calls is, b = true) ∧ ∀ s : Sleeper,
      (∀ i j, (s.iterate i).1 = true → ((s.iterate i).2.iterate j).1 = true) ∧
      (s.Asleep → (∀ i ∈ is, Quiet i) → s.idle + is.length ≤ 2 ^ 32 → ∀ b ∈ s.calls is, b = false) :=
  ⟨calls_of_awake (.inl rfl), fun _ => ⟨fun _ _ hcall => called_of_awake (.inr (awake_of_call hcall)), calls_of_asleep⟩⟩

def quietRound : Round := ⟨0, false, false, fun _ => 0, 0, false, false, none⟩

theorem asleep_window_not_called :
    ∀ b ∈ (⟨10, 4, true, 0, false, none⟩ : Sleeper).calls (replicate 20 quietRound), b = false :=
  ((frame_called_unless_asleep 0 _).2 _).2 ⟨rfl, rfl, by decide⟩
    (fun i hi => by rw [eq_of_mem_replicate hi]; exact ⟨rfl, rfl, rfl, fun _ => rfl, rfl⟩) (by decide)

/-- A window that commits in its first iteration is called in each of a hundred quiet ones after it. -/
theorem quiet_window_called : (spawn 0).calls ({ quietRound with commits := true } :: replicate 100 quietRound) =
    replicate 101 true := by decide +kernel

end Sleeper
end Ruos.Wm
