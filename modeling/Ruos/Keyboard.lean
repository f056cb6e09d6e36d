import Mathlib.Data.List.Nodup

/-! The reports of USB boot keyboards (`on_report`) and the scancodes of the PS/2 keyboard (`keyboard_handler`): what
they push to PTY 0 and to the queue of the GUI. -/
namespace Ruos.Keyboard

open List

/-- What a driver pushes, with the usage in a report that it is pushed for. -/
inductive Output where
  | byte (usage : Option UInt8) (b : UInt8)
  | key (usage : Option UInt8) (scancode : Nat) (down : Bool)
  deriving DecidableEq

def Output.usage : Output → Option UInt8
  | byte u _ | key u _ _ => u

/-! USB reports -/

def shiftByte (b : UInt8) : UInt8 :=
  if 0x61 ≤ b ∧ b ≤ 0x7A then b - 32
  else
    (("1234567890-=[]\\;'`,./".toList.zip "!@#$%^&*()_+\x7b\x7d|:\"~<>?".toList).lookup (Char.ofNat b.toNat)).elim b
      fun c => UInt8.ofNat c.toNat

def usageToByte (usage : UInt8) (shift ctrl : Bool) : Option UInt8 :=
  let base? :=
    if 0x04 ≤ usage ∧ usage ≤ 0x1D then some (0x61 + (usage - 0x04))
    else if 0x1E ≤ usage ∧ usage ≤ 0x26 then some (0x31 + (usage - 0x1E))
    else
      [(0x27, 0x30), (0x28, 0x0A), (0x29, 0x1B), (0x2A, 0x7F), (0x2B, 0x09), (0x2C, 0x20), (0x2D, 0x2D), (0x2E, 0x3D),
        (0x2F, 0x5B), (0x30, 0x5D), (0x31, 0x5C), (0x33, 0x3B), (0x34, 0x27), (0x35, 0x60), (0x36, 0x2C), (0x37, 0x2E),
        (0x38, 0x2F)].lookup usage
  base?.map fun base =>
    if ctrl then if 0x61 ≤ base ∧ base ≤ 0x7A then base - 0x61 + 1 else base
    else if shift then shiftByte base
    else base

def letters : List Nat :=
  [0x1E, 0x30, 0x2E, 0x20, 0x12, 0x21, 0x22, 0x23, 0x17, 0x24, 0x25, 0x26, 0x32, 0x31, 0x18, 0x19, 0x10, 0x13, 0x1F,
    0x14, 0x16, 0x2F, 0x11, 0x2D, 0x15, 0x2C]

def usageToScancode (usage : UInt8) : Option Nat :=
  if 0x04 ≤ usage ∧ usage ≤ 0x1D then letters[(usage - 0x04).toNat]?
  else if 0x1E ≤ usage ∧ usage ≤ 0x26 then some (0x02 + (usage - 0x1E).toNat)
  else if 0x3A ≤ usage ∧ usage ≤ 0x43 then some (0x3B + (usage - 0x3A).toNat)
  else
    [(0x27, 0x0B), (0x28, 0x1C), (0x29, 0x01), (0x2A, 0x0E), (0x2B, 0x0F), (0x2C, 0x39), (0x2D, 0x0C), (0x2E, 0x0D),
      (0x2F, 0x1A), (0x30, 0x1B), (0x31, 0x2B), (0x33, 0x27), (0x34, 0x28), (0x35, 0x29), (0x36, 0x33), (0x37, 0x34),
      (0x38, 0x35), (0x4A, 0xE047), (0x4C, 0xE053), (0x4D, 0xE04F), (0x4F, 0xE04D), (0x50, 0xE04B), (0x51, 0xE050),
      (0x52, 0xE048)].lookup usage

def modifierScancode (bit : Nat) : Option Nat :=
  [(0, 0x1D), (4, 0x1D), (1, 0x2A), (5, 0x36), (2, 0x38), (6, 0x38)].lookup bit

/-- Byte 0 of a report and its six key slots. -/
structure Report where
  mods : UInt8 := 0
  keys : List UInt8 := [0, 0, 0, 0, 0, 0]

/-- The usages of `rep` that are neither zero nor the roll-over code, and not in `other`. -/
def Report.edges (rep other : Report) : List UInt8 := rep.keys.filter fun c => c ≠ 0 ∧ c ≠ 1 ∧ c ∉ other.keys

def keyOf (down : Bool) (c : UInt8) : List Output := (usageToScancode c).toList.map fun sc => .key (some c) sc down

def byteOf (mods c : UInt8) : List Output :=
  (usageToByte c (mods &&& 0x22 != 0) (mods &&& 0x11 != 0)).toList.map (.byte (some c))

def modifierEdges (prev mods : UInt8) : List Output :=
  (range 8).flatMap fun bit =>
    if mods.toNat.testBit bit = prev.toNat.testBit bit then []
    else (modifierScancode bit).toList.map fun sc => .key none sc (mods.toNat.testBit bit)

/-- `prev` is the report before. -/
def onReport (prev rep : Report) : List Output :=
  modifierEdges prev.mods rep.mods ++ (prev.edges rep).flatMap (keyOf false) ++
    (rep.edges prev).flatMap fun c => byteOf rep.mods c ++ keyOf true c

def outputs : Report → List Report → List Output
  | _, [] => []
  | prev, rep :: reps => onReport prev rep ++ outputs rep reps

/-- The presses and releases of one usage. -/
def keyEvents (u : UInt8) (out : List Output) : List Bool :=
  out.filterMap fun
    | .key v _ down => if v = some u then some down else none
    | .byte _ _ => none

def Alternate : Bool → List Bool → Prop
  | _, [] => True
  | b, d :: ds => d = b ∧ Alternate (!b) ds

/-- No roll-over, and no key in two slots. -/
def Report.Plain (r : Report) : Prop := 1 ∉ r.keys ∧ (r.keys.filter (· ≠ 0)).Nodup

instance : DecidablePred Report.Plain := fun _ => instDecidableAnd

variable {u c : UInt8} {sc : Nat} {prev rep : Report} {reps : List Report}

theorem keyEvents_modifierEdges (prev mods : UInt8) : keyEvents u (modifierEdges prev mods) = [] := by
  simp only [keyEvents, modifierEdges, filterMap_eq_nil_iff, mem_flatMap]
  grind

theorem keyEvents_keyOf (hu : usageToScancode u = some sc) (down : Bool) (c : UInt8) :
    keyEvents u (keyOf down c) = if c = u then [down] else [] := by
  unfold keyEvents keyOf
  by_cases hc : c = u
  · simp [hc, hu]
  · cases usageToScancode c <;> simp [hc]

theorem keyEvents_flatMap (hu : usageToScancode u = some sc) {down : Bool} {f : UInt8 → List Output}
    (hf : ∀ c, keyEvents u (f c) = keyEvents u (keyOf down c)) (l : List UInt8) :
    keyEvents u (l.flatMap f) = replicate (l.count u) down := by
  induction l with
  | nil => rfl
  | cons c l ih =>
    rw [flatMap_cons, keyEvents, filterMap_append, ← keyEvents, ← keyEvents, hf, keyEvents_keyOf hu, ih]
    by_cases hc : c = u
    · simp [hc, replicate_succ]
    · simp [hc]

theorem keyEvents_press (mods c : UInt8) : keyEvents u (byteOf mods c ++ keyOf true c) = keyEvents u (keyOf true c) := by
  unfold keyEvents byteOf
  simp

theorem count_edges (hu : usageToScancode u = some sc) (hr : rep.Plain) :
    (rep.edges prev).count u = if u ∈ rep.keys ∧ u ∉ prev.keys then 1 else 0 := by
  have hzero : u ≠ 0 := by
    rintro rfl
    cases hu
  have hone : u ≠ 1 := by
    rintro rfl
    cases hu
  have honce := nodup_iff_count_le_one.mp hr.2 u
  rw [count_filter (by simpa using hzero)] at honce
  unfold Report.edges
  split_ifs with h
  · rw [count_filter (by simp [hzero, hone, h.2])]
    have := count_pos_iff.mpr h.1
    omega
  · rw [count_eq_zero, mem_filter]
    rintro ⟨hmem, hnew⟩
    simp only [decide_eq_true_eq] at hnew
    exact h ⟨hmem, hnew.2.2⟩

/-- An event comes exactly when a key appears or disappears. -/
theorem keyEvents_onReport (hu : usageToScancode u = some sc) (hp : prev.Plain) (hr : rep.Plain) :
    keyEvents u (onReport prev rep) =
      if decide (u ∈ prev.keys) = decide (u ∈ rep.keys) then [] else [decide (u ∈ rep.keys)] := by
  have happend : ∀ x y, keyEvents u (x ++ y) = keyEvents u x ++ keyEvents u y := fun x y => filterMap_append
  unfold onReport
  rw [happend, happend, keyEvents_modifierEdges, keyEvents_flatMap hu fun _ => rfl,
    keyEvents_flatMap hu (keyEvents_press rep.mods), count_edges hu hp, count_edges hu hr]
  by_cases hold : u ∈ prev.keys <;> by_cases hnew : u ∈ rep.keys <;> simp [hold, hnew]

/-- The events of one key go on from whether it was down, and end with whether it is. -/
theorem alternate_outputs (hu : usageToScancode u = some sc) (hp : prev.Plain) (hreps : ∀ r ∈ reps, r.Plain) :
    Alternate (!decide (u ∈ prev.keys)) (keyEvents u (outputs prev reps)) ∧
      (keyEvents u (outputs prev reps)).getLast?.getD (u ∈ prev.keys) = decide (u ∈ (reps.getLastD prev).keys) := by
  induction reps generalizing prev with
  | nil => exact ⟨trivial, rfl⟩
  | cons rep reps ih =>
    obtain ⟨hrep, hrest⟩ := forall_mem_cons.mp hreps
    obtain ⟨halt, hlast⟩ := ih hrep hrest
    have hevents : keyEvents u (outputs prev (rep :: reps)) =
      keyEvents u (onReport prev rep) ++ keyEvents u (outputs rep reps) := filterMap_append
    rw [hevents, keyEvents_onReport hu hp hrep, getLastD_cons]
    split_ifs with heq
    · rw [heq]
      exact ⟨halt, hlast⟩
    · have hnot : decide (u ∈ rep.keys) = !decide (u ∈ prev.keys) := by
        revert heq
        cases decide (u ∈ prev.keys) <;> simp
      rw [singleton_append, ← hnot, getLast?_cons]
      exact ⟨⟨rfl, halt⟩, hlast⟩

theorem usage_ne_of_mem (hold : u ∈ prev.keys) (hnew : u ∈ rep.keys) {x : Output} (hx : x ∈ onReport prev rep) :
    x.usage ≠ some u := by
  simp only [onReport, modifierEdges, keyOf, byteOf, Report.edges, mem_append, mem_flatMap, mem_filter, mem_map] at hx
  grind [Output.usage]

theorem held_silent (hold : u ∈ prev.keys) (hreps : ∀ r ∈ reps, u ∈ r.keys) :
    ∀ x ∈ outputs prev reps, x.usage ≠ some u := by
  induction reps generalizing prev with
  | nil => simp [outputs]
  | cons rep reps ih =>
    obtain ⟨hrep, hrest⟩ := forall_mem_cons.mp hreps
    intro x hx
    rcases mem_append.mp hx with hx | hx
    · exact usage_ne_of_mem hold hrep hx
    · exact ih hrep hrest x hx

/-- In plain reports the presses and releases of a key with a scancode alternate, the keys with an open press are those
of the last report, and a key that stays down produces nothing. -/
theorem key_events_alternate (hu : usageToScancode u = some sc) (hreps : ∀ r ∈ reps, r.Plain) :
    Alternate true (keyEvents u (outputs {} reps)) ∧
      ((keyEvents u (outputs {} reps)).getLast? = some true ↔ u ∈ (reps.getLastD {}).keys) ∧
      ∀ r stretch, (∀ x ∈ r :: stretch, u ∈ x.keys) → ∀ x ∈ outputs r stretch, x.usage ≠ some u := by
  have hnone : u ∉ ({} : Report).keys := by
    rintro h
    obtain rfl : u = 0 := by simpa using h
    cases hu
  obtain ⟨halt, hlast⟩ := alternate_outputs hu (show Report.Plain {} by decide) hreps
  rw [decide_eq_false hnone] at halt hlast
  refine ⟨halt, ?_, fun r stretch h => ?_⟩
  · rw [← decide_eq_true_iff (p := u ∈ (reps.getLastD {}).keys), ← hlast]
    cases (keyEvents u (outputs {} reps)).getLast? <;> simp
  · obtain ⟨hr, hrest⟩ := forall_mem_cons.mp h
    exact held_silent hr hrest

def letterA : Report := { keys := [4, 0, 0, 0, 0, 0] }

theorem key_events_alternate_a : Alternate true (keyEvents 4 (outputs {} [letterA, {}])) :=
  (@key_events_alternate _ 0x1E _ rfl (by decide)).1

/-- A roll-over report releases the key that is held, and the next report presses it and types its letter again. -/
theorem rollover_repeats_key : 4 ∈ letterA.keys ∧ outputs letterA [{ keys := [1, 1, 1, 1, 1, 1] }, letterA] =
    [.key (some 4) 0x1E false, .byte (some 4) 0x61, .key (some 4) 0x1E true] := by
  decide

/-! PS/2 scancodes -/

def ascii (s : String) : List UInt8 := s.toList.map fun c => UInt8.ofNat c.toNat

/-- What the two tables have from Caps Lock on. -/
def keypad : List UInt8 := replicate 13 0 ++ ascii "789-456+1230." ++ replicate 5 0

def scancodeMap : List UInt8 :=
  ascii "\x00\x1b1234567890-=\x08\tqwertyuiop[]\n\x00asdfghjkl;'`\x00\\zxcvbnm,./\x00*\x00 " ++ keypad

def scancodeMapShifted : List UInt8 :=
  ascii "\x00\x1b!@#$%^&*()_+\x08\tQWERTYUIOP\x7b\x7d\n\x00ASDFGHJKL:\"~\x00|ZXCVBNM<>?\x00*\x00 " ++ keypad

def extendedToAnsi (scancode : UInt8) : List UInt8 :=
  ([(0x48, "\x1b[A"), (0x50, "\x1b[B"), (0x4D, "\x1b[C"), (0x4B, "\x1b[D"), (0x47, "\x1b[H"), (0x4F, "\x1b[F"),
    (0x53, "\x1b[3~")].lookup scancode).elim [] ascii

structure Ps2 where
  extended : Bool := false
  shiftDown : Bool := false
  ctrlDown : Bool := false
  capsLock : Bool := false

def isLower (b : UInt8) : Bool := 0x61 ≤ b ∧ b ≤ 0x7A

def isUpper (b : UInt8) : Bool := 0x41 ≤ b ∧ b ≤ 0x5A

/-- The byte of a key that is pressed, if it has one. -/
def cooked (k : Ps2) (base : UInt8) : List UInt8 :=
  match scancodeMap[base.toNat]? with
  | none | some 0 => []
  | some baseCh =>
    let ch := if k.shiftDown then scancodeMapShifted.getD base.toNat 0 else baseCh
    let ch :=
      if k.capsLock ∧ (isLower baseCh ∨ isUpper baseCh) then
        if isLower ch then ch - 32 else if isUpper ch then ch + 32 else ch
      else ch
    let ch := if k.ctrlDown ∧ (isLower ch ∨ isUpper ch) then ch &&& 0x1F else ch
    if ch = 0 then [] else [ch]

def keyboardHandler (guiMode : Bool) (k : Ps2) (scancode : UInt8) : List Output × Ps2 :=
  let release : Bool := scancode &&& 0x80 ≠ 0
  let base := scancode &&& 0x7F
  if scancode = 0xE0 then ([], { k with extended := true })
  else if guiMode then
    ([.key none (if k.extended then 0xE000 + base.toNat else base.toNat) !release], { k with extended := false })
  else if k.extended then
    ((if scancode < 0x80 then extendedToAnsi scancode else []).map (.byte none), { k with extended := false })
  else if base = 0x2A ∨ base = 0x36 then ([], { k with shiftDown := !release })
  else if base = 0x1D then ([], { k with ctrlDown := !release })
  else if base = 0x3A then ([], { k with capsLock := if release then k.capsLock else !k.capsLock })
  else if release then ([], k)
  else ((cooked k base).map (.byte none), k)

/-! Both drivers -/

structure State where
  guiMode : Bool := false
  ps2 : Ps2 := {}
  prev : Report := {}

inductive Event where
  | scancode (b : UInt8)
  | report (rep : Report)
  | enter
  | leave

def step (s : State) : Event → List Output × State
  | .scancode b => ((keyboardHandler s.guiMode s.ps2 b).1, { s with ps2 := (keyboardHandler s.guiMode s.ps2 b).2 })
  | .report rep => (onReport s.prev rep, { s with prev := rep })
  | .enter => ([], { s with guiMode := true })
  | .leave => ([], { s with guiMode := false })

/-- The bytes that PTY 0 gets. -/
def ptyInput : State → List Event → List UInt8
  | _, [] => []
  | s, e :: es =>
    (step s e).1.filterMap (fun | .byte _ b => some b | .key .. => none) ++ ptyInput (step s e).2 es

/-- Two runs that differ in PS/2 keys which come in GUI mode, each in one piece. -/
inductive Differ : State → List Event → List Event → Prop where
  | nil (s : State) : Differ s [] []
  | both {s : State} (e : Event) {xs ys : List Event} : Differ (step s e).2 xs ys → Differ s (e :: xs) (e :: ys)
  | left {s : State} {xs ys : List Event} (c : UInt8) (pre : Bool) : s.guiMode = true → s.ps2.extended = false →
    c ≠ 0xE0 → Differ s xs ys → Differ s ((if pre then [.scancode 0xE0] else []) ++ .scancode c :: xs) ys
  | symm {s : State} {xs ys : List Event} : Differ s xs ys → Differ s ys xs

/-- In GUI mode a key leaves the driver as it was and pushes no byte. -/
theorem ptyInput_key {s : State} (hgui : s.guiMode = true) (hext : s.ps2.extended = false) {c : UInt8} (hc : c ≠ 0xE0)
    (pre : Bool) (xs : List Event) :
    ptyInput s ((if pre then [.scancode 0xE0] else []) ++ .scancode c :: xs) = ptyInput s xs := by
  obtain ⟨gui, ⟨ext, shift, ctrl, caps⟩, prev⟩ := s
  obtain rfl : gui = true := hgui
  obtain rfl : ext = false := hext
  cases pre <;> simp [ptyInput, step, keyboardHandler, hc]

/-- The shell sees nothing of the PS/2 keys that come in GUI mode. -/
theorem ptyInput_eq_of_differ {s : State} {xs ys : List Event} (h : Differ s xs ys) : ptyInput s xs = ptyInput s ys := by
  induction h with
  | nil => rfl
  | both e _ ih => rw [ptyInput, ptyInput, ih]
  | left c pre hgui hext hc _ ih => rw [ptyInput_key hgui hext hc, ih]
  | symm _ ih => exact ih.symm

theorem ptyInput_eq_of_differ_up :
    ptyInput {} [.enter, .scancode 0xE0, .scancode 0x48, .leave] = ptyInput {} [.enter, .leave] :=
  ptyInput_eq_of_differ (.both .enter (.left 0x48 true rfl rfl (by decide) (.both .leave (.nil _))))

/-- A letter typed on a USB keyboard in GUI mode. -/
theorem usb_key_reaches_shell : ptyInput {} [.enter, .leave] = [] ∧
    ptyInput {} [.enter, .report letterA, .report {}, .leave] = [0x61] := by
  decide

end Ruos.Keyboard
