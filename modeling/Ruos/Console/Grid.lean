import Ruos.Lib.Bytes

/-! Colours, cells and the SGR parameters of `console/ansi.rs`, and the grid of character cells of `console/grid.rs`.
`none` as a result is a panic for an index out of bounds; arithmetic on `u16` wraps around, as it does in the release
build. -/
namespace Ruos.Console

structure Rgb where
  r : UInt8
  g : UInt8
  b : UInt8
deriving DecidableEq

def white : Rgb := ⟨0xEE, 0xEE, 0xEE⟩

def black : Rgb := ⟨0x00, 0x00, 0x00⟩

def vga16 : Vector Rgb 16 := #v[
  ⟨0x00, 0x00, 0x00⟩, ⟨0xAA, 0x00, 0x00⟩, ⟨0x00, 0xAA, 0x00⟩, ⟨0xAA, 0x55, 0x00⟩,
  ⟨0x00, 0x00, 0xAA⟩, ⟨0xAA, 0x00, 0xAA⟩, ⟨0x00, 0xAA, 0xAA⟩, ⟨0xAA, 0xAA, 0xAA⟩,
  ⟨0x55, 0x55, 0x55⟩, ⟨0xFF, 0x55, 0x55⟩, ⟨0x55, 0xFF, 0x55⟩, ⟨0xFF, 0xFF, 0x55⟩,
  ⟨0x55, 0x55, 0xFF⟩, ⟨0xFF, 0x55, 0xFF⟩, ⟨0x55, 0xFF, 0xFF⟩, ⟨0xFF, 0xFF, 0xFF⟩]

def cubeLevel (v : Nat) : UInt8 := if v = 0 then 0 else UInt8.ofNat (55 + v * 40)

def xterm256 (idx : UInt8) : Rgb :=
  if h : idx.toNat < 16 then vga16.get ⟨idx.toNat, h⟩
  else if idx.toNat < 232 then
    let i := idx.toNat - 16
    ⟨cubeLevel (i / 36 % 6), cubeLevel (i / 6 % 6), cubeLevel (i % 6)⟩
  else
    let v := UInt8.ofNat (8 + (idx.toNat - 232) * 10)
    ⟨v, v, v⟩

structure CellAttr where
  bold : Bool
  dim : Bool
  underline : Bool
  reverse : Bool
deriving DecidableEq

def CellAttr.empty : CellAttr := ⟨false, false, false, false⟩

structure Cell where
  ch : Char
  fg : Rgb
  bg : Rgb
  attr : CellAttr
deriving DecidableEq

def Cell.blank (fg bg : Rgb) : Cell := ⟨' ', fg, bg, .empty⟩

/-- The foreground, the background and the attributes that new characters get. -/
structure Pen where
  fg : Rgb
  bg : Rgb
  attr : CellAttr
deriving DecidableEq

/-- The colour after `38` or `48`, if there is one, and the parameters behind it. -/
def extendedColor : List UInt16 → Option Rgb × List UInt16
  | 5 :: rest =>
    match rest with
    | i :: rest => (some (xterm256 i.toUInt8), rest)
    | [] => (none, [])
  | 2 :: rest =>
    (some ⟨(rest.getD 0 0).toUInt8, (rest.getD 1 0).toUInt8, (rest.getD 2 0).toUInt8⟩, rest.drop 3)
  | rest => (none, rest.drop 1)

/-- A parameter other than `38` and `48`. -/
def Pen.applyOne (pen : Pen) (p : Nat) : Pen :=
  match p with
  | 0 => ⟨white, black, .empty⟩
  | 1 => { pen with attr := { pen.attr with bold := true } }
  | 2 => { pen with attr := { pen.attr with dim := true } }
  | 4 => { pen with attr := { pen.attr with underline := true } }
  | 7 => { pen with attr := { pen.attr with reverse := true } }
  | 22 => { pen with attr := { pen.attr with bold := false, dim := false } }
  | 24 => { pen with attr := { pen.attr with underline := false } }
  | 27 => { pen with attr := { pen.attr with reverse := false } }
  | 39 => { pen with fg := white }
  | 49 => { pen with bg := black }
  | p =>
    if h : 30 ≤ p ∧ p ≤ 37 then { pen with fg := vga16.get ⟨p - 30, by omega⟩ }
    else if h : 40 ≤ p ∧ p ≤ 47 then { pen with bg := vga16.get ⟨p - 40, by omega⟩ }
    else if h : 90 ≤ p ∧ p ≤ 97 then { pen with fg := vga16.get ⟨p - 90 + 8, by omega⟩ }
    else if h : 100 ≤ p ∧ p ≤ 107 then { pen with bg := vga16.get ⟨p - 100 + 8, by omega⟩ }
    else pen

theorem length_extendedColor_le (ps : List UInt16) : (extendedColor ps).2.length ≤ ps.length := by
  unfold extendedColor
  split
  · split <;> simp only [List.length_cons, List.length_nil] <;> omega
  · simp only [List.length_drop, List.length_cons]
    omega
  · simp

def applySgr : List UInt16 → Pen → Pen
  | [], pen => pen
  | p :: ps, pen =>
    have := length_extendedColor_le ps
    if p = 38 then
      applySgr (extendedColor ps).2 { pen with fg := (extendedColor ps).1.getD pen.fg }
    else if p = 48 then
      applySgr (extendedColor ps).2 { pen with bg := (extendedColor ps).1.getD pen.bg }
    else applySgr ps (pen.applyOne p.toNat)
termination_by ps => ps.length

open Lib

def u16 (n : Nat) : Nat := n % 2 ^ 16

/-- `n - 1` on `u16`. -/
def pred16 (n : Nat) : Nat := u16 (n + (2 ^ 16 - 1))

/-- `CLEAN`: the span of a row that is not dirty. -/
def clean : Nat × Nat := (2 ^ 16 - 1, 0)

structure Grid where
  cols : Nat
  rows : Nat
  cells : List Cell
  curCol : Nat
  curRow : Nat
  pen : Pen
  dirty : List (Nat × Nat)
  scrollTop : Nat
  scrollBot : Nat
deriving DecidableEq

namespace Grid

def new (cols rows : Nat) (fg bg : Rgb) : Grid where
  cols := cols
  rows := rows
  cells := List.replicate (cols * rows) (.blank fg bg)
  curCol := 0
  curRow := 0
  pen := ⟨fg, bg, .empty⟩
  dirty := List.replicate rows clean
  scrollTop := 0
  scrollBot := pred16 rows

def idx (g : Grid) (col row : Nat) : Nat := row * g.cols + col

def cell (g : Grid) (col row : Nat) : Option Cell := g.cells[g.idx col row]?

def cursor (g : Grid) : Nat × Nat := (g.curCol, g.curRow)

/-- The dirty span of a row; the inner `none` is a clean row. -/
def dirtySpan (g : Grid) (row : Nat) : Option (Option (Nat × Nat)) :=
  g.dirty[row]?.map fun d => if d.1 > d.2 then none else some d

def blank (g : Grid) : Cell := .blank g.pen.fg g.pen.bg

def setCells (g : Grid) (cells : List Cell) : Grid := { g with cells := cells }

def setCursor (g : Grid) (col row : Nat) : Grid := { g with curCol := col, curRow := row }

def setSpan (g : Grid) (row : Nat) (f : Nat × Nat → Nat × Nat) : Option Grid :=
  g.dirty[row]?.map fun d => { g with dirty := g.dirty.set row (f d) }

def mark (g : Grid) (col row : Nat) : Option Grid := g.setSpan row fun d => (min d.1 col, max d.2 col)

def markCell (g : Grid) (col row : Nat) : Option Grid :=
  if row < g.rows ∧ col < g.cols then g.mark col row else some g

def clearDirty (g : Grid) : Grid := { g with dirty := g.dirty.map fun _ => clean }

def markAllDirty (g : Grid) : Grid := { g with dirty := g.dirty.map fun _ => (0, pred16 g.cols) }

/-- The rows of the scroll region move up by one, and the last one is blank. -/
def scrollUp (g : Grid) : Option Grid :=
  let src := (g.scrollTop + 1) * g.cols
  let stop := (g.scrollBot + 1) * g.cols
  let dst := g.scrollTop * g.cols
  let last := g.scrollBot * g.cols
  if src ≤ stop ∧ stop ≤ g.cells.length ∧ g.scrollBot < g.dirty.length then
    some { g with
      cells := splice (splice g.cells dst (slice g.cells src (stop - src))) last (List.replicate g.cols g.blank)
      curRow := g.scrollBot
      dirty := g.dirty.mapIdx fun r d => if g.scrollTop ≤ r ∧ r ≤ g.scrollBot then (0, pred16 g.cols) else d }
  else none

def newline (g : Grid) : Option Grid :=
  if g.curRow = g.scrollBot then (g.setCursor 0 g.curRow).scrollUp
  else if u16 (g.curRow + 1) < g.rows then some (g.setCursor 0 (u16 (g.curRow + 1)))
  else some (g.setCursor 0 g.curRow)

def write (g : Grid) (ch : Char) : Option Grid :=
  let i := g.idx g.curCol g.curRow
  if i < g.cells.length then
    ((g.setCells (g.cells.set i ⟨ch, g.pen.fg, g.pen.bg, g.pen.attr⟩)).mark g.curCol g.curRow).map fun g =>
      g.setCursor (u16 (g.curCol + 1)) g.curRow
  else none

def put (g : Grid) (ch : Char) : Option Grid :=
  (if g.curCol ≥ g.cols then g.newline else some g).bind fun g => g.write ch

def cr (g : Grid) : Grid := g.setCursor 0 g.curRow

def bs (g : Grid) : Grid := if g.curCol > 0 then g.setCursor (g.curCol - 1) g.curRow else g

def tab (g : Grid) : Option Grid :=
  let g := g.setCursor (u16 (g.curCol + 8) / 8 * 8) g.curRow
  if g.curCol ≥ g.cols then g.newline else some g

def setScrollRegion (g : Grid) (top bot : Nat) : Grid :=
  if top < bot ∧ bot < g.rows then { g with scrollTop := top, scrollBot := bot, curCol := 0, curRow := top }
  else { g with scrollTop := 0, scrollBot := pred16 g.rows, curCol := 0, curRow := 0 }

def clear (g : Grid) : Grid :=
  { g with
    cells := g.cells.map fun _ => g.blank
    curCol := 0
    curRow := 0
    scrollTop := 0
    scrollBot := pred16 g.rows
    dirty := g.dirty.map fun _ => (0, pred16 g.cols) }

def moveUp (g : Grid) (n : Nat) : Grid := g.setCursor g.curCol (g.curRow - n)

def moveDown (g : Grid) (n : Nat) : Grid := g.setCursor g.curCol (min (u16 (g.curRow + n)) (pred16 g.rows))

def moveLeft (g : Grid) (n : Nat) : Grid := g.setCursor (g.curCol - n) g.curRow

def moveRight (g : Grid) (n : Nat) : Grid := g.setCursor (min (u16 (g.curCol + n)) (pred16 g.cols)) g.curRow

def goto (g : Grid) (col row : Nat) : Grid := g.setCursor (min col (pred16 g.cols)) (min row (pred16 g.rows))

def eraseToEol (g : Grid) : Option Grid :=
  let start := g.idx g.curCol g.curRow
  if g.curCol < g.cols → g.idx g.cols g.curRow ≤ g.cells.length then
    (g.setCells (splice g.cells start (List.replicate (g.cols - g.curCol) g.blank))).setSpan g.curRow fun d =>
      (min d.1 g.curCol, pred16 g.cols)
  else none

end Grid
end Ruos.Console
