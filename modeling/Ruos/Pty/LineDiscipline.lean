import Ruos.Lib.Ring

/-! The line discipline of `pty/ldisc.rs` over the pair of `pty/pair.rs` and the slave-input ring of `pty/spsc.rs`.
Every byte carries a tag that the code does not have: the tag of an input byte is chosen by its sender, and a byte that
the line discipline produces takes the tag of the byte it answers. -/
namespace Ruos.Pty

open Lib Option

structure Cell (τ : Type*) where
  byte : UInt8
  tag : τ
deriving DecidableEq

structure Termios where
  cIflag : BitVec 32
  cOflag : BitVec 32
  cLflag : BitVec 32
  cCc : Fin 32 → UInt8

def icrnl : BitVec 32 := 0o100
def opost : BitVec 32 := 0o1
def onlcr : BitVec 32 := 0o4
def isig : BitVec 32 := 0o1
def icanon : BitVec 32 := 0o2
def echo : BitVec 32 := 0o10
def iexten : BitVec 32 := 0o100000

def vintr : Fin 32 := 0
def verase : Fin 32 := 2
def veof : Fin 32 := 4

namespace Termios

def defaultCooked : Termios where
  cIflag := icrnl
  cOflag := opost ||| onlcr
  cLflag := isig ||| icanon ||| echo ||| iexten
  cCc := fun i => if i = vintr then 0x03 else if i = verase then 0x7F else if i = veof then 0x04 else 0

def mapsReturn (t : Termios) : Bool := t.cIflag &&& icrnl != 0
def canonical (t : Termios) : Bool := t.cLflag &&& icanon != 0
def signals (t : Termios) : Bool := t.cLflag &&& isig != 0
def echoes (t : Termios) : Bool := t.cLflag &&& echo != 0
def mapsNewline (t : Termios) : Bool := t.cOflag &&& (opost ||| onlcr) == (opost ||| onlcr)

@[simp] theorem mapsReturn_defaultCooked : defaultCooked.mapsReturn = true := by decide
@[simp] theorem canonical_defaultCooked : defaultCooked.canonical = true := by decide
@[simp] theorem signals_defaultCooked : defaultCooked.signals = true := by decide
@[simp] theorem echoes_defaultCooked : defaultCooked.echoes = true := by decide
@[simp] theorem mapsNewline_defaultCooked : defaultCooked.mapsNewline = true := by decide
@[simp] theorem vintr_defaultCooked : defaultCooked.cCc vintr = 0x03 := rfl
@[simp] theorem verase_defaultCooked : defaultCooked.cCc verase = 0x7F := rfl
@[simp] theorem veof_defaultCooked : defaultCooked.cCc veof = 0x04 := rfl

end Termios

/-- `CAP` is a power of two and `MASK` is `CAP - 1`, so `i & MASK` is `i % CAP`; the indices are `usize`. -/
def spscCap : Nat := 4096

abbrev SpscRing (τ : Type*) := Ring (Cell τ) spscCap (2 ^ 64)

theorem spscCap_dvd : spscCap ∣ 2 ^ 64 := ⟨2 ^ 52, rfl⟩

theorem spscCap_lt : spscCap < 2 ^ 64 := by decide

namespace SpscRing

variable {τ : Type*}

def new (tag : τ) : SpscRing τ := Ring.empty (by decide) ⟨0, tag⟩

def push (r : SpscRing τ) (c : Cell τ) : SpscRing τ := Ring.push spscCap_lt r c

/-- `push` of each byte in turn, its result ignored. -/
def pushAll (r : SpscRing τ) (cs : List (Cell τ)) : SpscRing τ := cs.foldl push r

@[simp] theorem contents_new (tag : τ) : (new tag).contents = [] := Ring.contents_empty _ _

theorem contents_push (r : SpscRing τ) (c : Cell τ) :
    (push r c).contents = if r.contents.length < spscCap then r.contents ++ [c] else r.contents :=
  Ring.contents_push spscCap_dvd spscCap_lt r c

theorem contents_pushAll (r : SpscRing τ) (cs : List (Cell τ)) :
    (r.pushAll cs).contents = (r.contents ++ cs).take spscCap := by
  induction cs generalizing r with
  | nil => rw [List.append_nil, List.take_of_length_le r.length_contents_le]; rfl
  | cons c cs ih =>
    change (pushAll (r.push c) cs).contents = _
    rw [ih, contents_push]
    split
    · simp
    · rw [List.take_append_of_le_length (by omega), List.take_append_of_le_length (by omega)]

theorem contents_of_pop {r : SpscRing τ} {x : Cell τ × SpscRing τ} (h : r.pop = some x) :
    r.contents = x.1 :: x.2.contents := by
  have heq := Ring.contents_pop spscCap_dvd r
  rw [h] at heq
  cases hc : r.contents with
  | nil => simp [hc] at heq
  | cons a as =>
    simp only [hc, map_some, List.head?_cons, List.tail_cons, some.injEq, Prod.mk.injEq] at heq
    rw [heq.1, heq.2]

theorem pop_eq_none {r : SpscRing τ} (h : r.pop = none) : r.contents = [] := by
  have heq := Ring.contents_pop spscCap_dvd r
  rw [h] at heq
  exact List.head?_eq_none_iff.mp (map_eq_none_iff.mp heq.symm)

end SpscRing

structure PtyPair (τ : Type*) where
  masterOut : List (Cell τ)
  lineBuffer : List (Cell τ)
  termios : Termios

namespace PtyPair

variable {τ : Type*}

def new : PtyPair τ := ⟨[], [], .defaultCooked⟩

def sendEcho (pair : PtyPair τ) (tag : τ) (bytes : List UInt8) : PtyPair τ :=
  if pair.termios.echoes then { pair with masterOut := pair.masterOut ++ bytes.map fun b => ⟨b, tag⟩ } else pair

/-- `ICRNL` turns a return into a newline. -/
def mapInput (t : Termios) (c : Cell τ) : Cell τ := if t.mapsReturn && c.byte == 13 then { c with byte := 10 } else c

/-- The pair afterwards, the bytes pushed to the slave ring in this order, and the process that is to be killed. -/
def processInput (foregroundPid : Option Nat) (pair : PtyPair τ) (c : Cell τ) :
    PtyPair τ × List (Cell τ) × Option Nat :=
  let c := mapInput pair.termios c
  if !pair.termios.canonical then (pair, [c], none)
  else if pair.termios.signals && c.byte == pair.termios.cCc vintr then
    -- The caret notation "^C" and a line end.
    (({ pair with lineBuffer := [] } : PtyPair τ).sendEcho c.tag [94, 67, 13, 10], [], foregroundPid)
  else if c.byte == pair.termios.cCc verase then
    if pair.lineBuffer.isEmpty then (pair, [], none)
    else (({ pair with lineBuffer := pair.lineBuffer.dropLast } : PtyPair τ).sendEcho c.tag [8, 32, 8], [], none)
  else if c.byte == 10 then
    (({ pair with lineBuffer := [] } : PtyPair τ).sendEcho c.tag [13, 10], pair.lineBuffer ++ [c], none)
  else if c.byte == pair.termios.cCc veof then ({ pair with lineBuffer := [] }, pair.lineBuffer, none)
  else (({ pair with lineBuffer := pair.lineBuffer ++ [c] } : PtyPair τ).sendEcho c.tag [c.byte], [], none)

@[simp] theorem termios_sendEcho (pair : PtyPair τ) (tag : τ) (bytes : List UInt8) :
    (pair.sendEcho tag bytes).termios = pair.termios := by
  unfold sendEcho
  split <;> rfl

@[simp] theorem lineBuffer_sendEcho (pair : PtyPair τ) (tag : τ) (bytes : List UInt8) :
    (pair.sendEcho tag bytes).lineBuffer = pair.lineBuffer := by
  unfold sendEcho
  split <;> rfl

@[simp] theorem termios_processInput (foregroundPid : Option Nat) (pair : PtyPair τ) (c : Cell τ) :
    (pair.processInput foregroundPid c).1.termios = pair.termios := by
  simp only [processInput]
  repeat' split
  all_goals simp

def processOutput (pair : PtyPair τ) (c : Cell τ) : PtyPair τ :=
  let out := if pair.termios.mapsNewline && c.byte == 10 then pair.masterOut ++ [⟨13, c.tag⟩] else pair.masterOut
  { pair with masterOut := out ++ [c] }

end PtyPair

end Ruos.Pty
