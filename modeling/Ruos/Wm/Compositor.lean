import Mathlib

/-! The compositor of `wasm/wt/wm.rs`: its windows, their order, the focus, the requests of the guests, and one iteration
of the loop of `Compositor::run`. What the environment contributes is the input of the iteration: events with the
cursor and the power state read at each, what the guests call in their frames, and which modules load. -/
namespace Ruos.Wm

/-- Wrapping `i32` arithmetic. -/
def wrap32 (x : Int) : Int := x.bmod (2 ^ 32)

def asI32 (n : Nat) : Int := wrap32 n

structure Rect where
  x : Nat
  y : Nat
  w : Nat
  h : Nat
  deriving DecidableEq, Repr

structure Geom where
  width : Nat
  height : Nat

/-- What a guest shares with the compositor: its surface, its target size and its requests. -/
structure WmState where
  winW : Nat := 0
  winH : Nat := 0
  pixels : List UInt8 := []
  closeRequested : Bool := false
  moveRequested : Bool := false
  spawnRequest : List (List Char) := []
  bgRequest : Bool := false
  overlayRequest : Bool := false
  minimizeRequest : Bool := false
  maximizeRequest : Bool := false
  activateRequest : List Nat := []
  targetW : Nat := 0
  targetH : Nat := 0
  deriving DecidableEq, Repr

/-- The calls of a guest to the `wm` module that the compositor acts on. -/
inductive Call where
  | commit (pixels : List UInt8) (w h : Nat)
  | close
  | startMove
  | spawn (name : List Char)
  | setBackground
  | setOverlay
  | minimize
  | toggleMaximize
  | activate (id : Nat)
  deriving DecidableEq, Repr

namespace WmState

def call (s : WmState) : Call → WmState
  | .commit pixels w h => { s with pixels := pixels, winW := w, winH := h }
  | .close => { s with closeRequested := true }
  | .startMove => { s with moveRequested := true }
  | .spawn name => { s with spawnRequest := s.spawnRequest ++ [name] }
  | .setBackground => { s with bgRequest := true }
  | .setOverlay => { s with overlayRequest := true }
  | .minimize => { s with minimizeRequest := true }
  | .toggleMaximize => { s with maximizeRequest := true }
  | .activate id => { s with activateRequest := s.activateRequest ++ [id] }

end WmState

/-- A window; `inst` tells the wasm instances apart that were ever created. -/
structure Window where
  id : Nat
  inst : Nat
  rect : Rect
  focused : Bool
  alive : Bool
  bg : Bool
  overlay : Bool
  minimized : Bool
  maximized : Bool
  savedRect : Option Rect
  sized : Bool
  win : WmState
  deriving DecidableEq, Repr

namespace Window

def hidden (w : Window) : Bool := w.bg || w.overlay || w.minimized

def unfocus (w : Window) : Window := { w with focused := false }

def focus (w : Window) : Window := { w with focused := true }

def pinned (w : Window) : Window := { w with win := { w.win with bgRequest := false }, bg := true }

def overlaid (w : Window) : Window := { w with overlay := true }

def minimize (w : Window) : Window := { w with minimized := true }

def restored (w : Window) : Window := { w with minimized := false }

end Window

/-- An interactive move; `inst` is the instance that asked for it. -/
structure DragState where
  winId : Nat
  grabDx : Int
  grabDy : Int
  inst : Nat
  deriving DecidableEq, Repr

/-- Window order is z-order, the last is on top. The free ids are a stack. `born` counts the instances. -/
structure Compositor where
  wins : List Window := []
  focused : Nat := 0
  drag : Option DragState := none
  freeIds : List Nat := []
  nextId : Nat := 0
  toasts : List (Option Nat) := []
  modal : Bool := false
  born : Nat := 0
  deriving DecidableEq, Repr

def maxWindows : Nat := 9

def launcherH : Nat := 28

def workareaTop : Nat := 32

namespace Compositor

variable (g : Geom) (c : Compositor)

def update (i : Nat) (f : Window → Window) : Compositor := { c with wins := c.wins.modify i f }

def answer (i : Nat) (f : WmState → WmState) : Compositor := c.update i fun w => { w with win := f w.win }

def allocId : Nat × Compositor :=
  match c.freeIds with
  | id :: ids => (id, { c with freeIds := ids })
  | [] => (c.nextId, { c with nextId := (c.nextId + 1) % 2 ^ 32 })

def topmost (p : Window → Bool) : Option Nat :=
  (List.range c.wins.length).reverse.find? fun i => (c.wins[i]?).any p

def inRect (r : Rect) (px py : Int) : Bool :=
  asI32 r.x ≤ px ∧ px < wrap32 (asI32 r.x + asI32 r.w) ∧ asI32 r.y ≤ py ∧ py < wrap32 (asI32 r.y + asI32 r.h)

def windowAt (px py : Int) : Option Nat := c.topmost fun w => !w.hidden && inRect w.rect px py

def overlayIndex : Option Nat := c.wins.findIdx? (·.overlay)

def setFocus (idx : Nat) : Compositor :=
  if c.wins.length ≤ idx then c
  else { c with wins := (c.wins.modify c.focused Window.unfocus).modify idx Window.focus, focused := idx }

/-- Put window `idx` on top; its new index. -/
def raise (idx : Nat) : Compositor × Nat :=
  match c.wins[idx]? with
  | none => (c, idx)
  | some w =>
    if idx = c.wins.length - 1 then (c, idx)
    else
      ({ c with
        wins := c.wins.eraseIdx idx ++ [w]
        focused :=
          if c.focused = idx then c.wins.length - 1
          else if idx < c.focused then c.focused - 1
          else c.focused }, c.wins.length - 1)

def indexOf (id : Nat) : Option Nat := c.wins.findIdx? (·.id = id)

/-- `i32::clamp` from 0 on. -/
def clamp (x hi : Int) : Int := if x < 0 then 0 else if hi < x then hi else x

def dragTo (id : Nat) (cx cy : Int) (grab : Int × Int) : Compositor :=
  match c.indexOf id with
  | none => c
  | some i =>
    c.update i fun w =>
      { w with
        rect := { w.rect with
          x := (clamp (wrap32 (cx - grab.1)) (max (wrap32 (asI32 g.width - asI32 w.rect.w)) 0)).toNat
          y := (clamp (wrap32 (cy - grab.2)) (max (wrap32 (asI32 g.height - asI32 w.rect.h)) 0)).toNat } }

def toggled (w : Window) : Window :=
  if w.maximized then
    match w.savedRect with
    | some r =>
      { w with
        rect := r
        savedRect := none
        maximized := false
        sized := true
        win := { w.win with targetW := r.w, targetH := r.h } }
    | none => { w with maximized := false, sized := true }
  else
    { w with
      savedRect := some w.rect
      rect := ⟨0, workareaTop, g.width, g.height - workareaTop⟩
      maximized := true
      sized := true
      win := { w.win with targetW := g.width, targetH := g.height - workareaTop } }

def toggleMaximize (i : Nat) : Compositor := c.update i fun w => if w.bg then w else toggled g w

/-- Restore, raise and focus a window; the overlay is left alone. -/
def activate (id : Nat) : Compositor :=
  match c.indexOf id with
  | none => c
  | some i =>
    if (c.wins[i]?).any (·.overlay) then c
    else
      let raised := (c.update i Window.restored).raise i
      raised.1.setFocus raised.2

def focusTopmostVisible : Compositor :=
  match c.topmost fun w => !w.hidden with
  | none => c
  | some i => c.setFocus i

/-- The index that the focus has once window `i` is gone and `len` are left. -/
def shifted (i len : Nat) : Nat :=
  min (if i < c.focused ∨ len ≤ c.focused then c.focused - 1 else c.focused) (len - 1)

/-- The windows with the focus at `f` only. -/
def flagged (wins : List Window) (f : Nat) : List Window := wins.mapIdx fun j w => { w with focused := j = f }

/-- Take window `i` out and recycle its id; an active drag stays as it is. -/
def removeAt (i : Nat) : Compositor :=
  match c.wins[i]? with
  | none => c
  | some w =>
    let rest := c.wins.eraseIdx i
    if rest = [] then { c with wins := [], freeIds := w.id :: c.freeIds, focused := 0 }
    else
      let f := c.shifted i rest.length
      let c' := { c with wins := flagged rest f, freeIds := w.id :: c.freeIds, focused := f }
      if (rest[f]?).any fun w => w.overlay || w.bg then (c'.update f Window.unfocus).focusTopmostVisible else c'

/-- A window of a new instance, with `live` windows in front of it. -/
def newWindow (id live : Nat) (win : WmState) : Window where
  id := id
  inst := c.born
  rect := ⟨min (40 + live * 28) (g.width - 340), min (40 + live * 28) (g.height - (launcherH + 260)), 320, 240⟩
  focused := false
  alive := true
  bg := false
  overlay := false
  minimized := false
  maximized := false
  savedRect := none
  sized := false
  win := win

/-- Spawn a window, unless the budget is full. The instance comes up, making some calls on the way, or fails to. -/
def spawnNamed (init : Option (List Call)) : Compositor :=
  let live := c.wins.countP (·.alive)
  if maxWindows ≤ live then c
  else
    let (id, c') := c.allocId
    match init with
    | none => { c' with freeIds := id :: c'.freeIds }
    | some calls =>
      let w := newWindow g c' id live (calls.foldl WmState.call {})
      let pushed := { c' with wins := c'.wins ++ [w], born := c'.born + 1 }
      let raised := pushed.raise (pushed.wins.length - 1)
      raised.1.setFocus (raised.1.wins.length - 1)

def reapStep (s : Compositor × Nat) : Compositor × Nat :=
  match s.1.wins[s.2]? with
  | none => s
  | some w => if w.alive then (s.1, s.2 + 1) else (s.1.removeAt s.2, s.2)

def promoted (w : Window) : Window := { w with alive := w.alive && !w.win.closeRequested }

/-- Each round removes a window or passes one, so there are as many rounds as windows. -/
def reap : Compositor :=
  ((List.range c.wins.length).foldl (fun s _ => reapStep s) ({ c with wins := c.wins.map promoted }, 0)).1
end Compositor

structure GfxEvt where
  kind : Nat
  p0 : Nat
  p1 : Nat
  deriving DecidableEq, Repr

/-- An event with the cursor, and whether a power request is pending, when it is handled. -/
structure Input where
  ev : GfxEvt
  cx : Int
  cy : Int
  pending : Bool
  deriving DecidableEq, Repr

inductive KEvent where
  | lost
  | powerPending
  | powerCancelled
  | notice
  deriving DecidableEq, Repr

/-- A call of `frame()`: the calls it makes, whether it fails, and the surface that the raster makes of its mesh. -/
structure Frame where
  calls : List Call := []
  failed : Bool := false
  mesh : Option (List UInt8 × Nat × Nat) := none
  deriving DecidableEq, Repr

inductive Load where
  | missing
  | failed
  | started (calls : List Call)
  deriving DecidableEq, Repr

/-- The environment of one iteration. Window `i` sleeps if it has no frame. -/
structure Iteration where
  inputs : List Input := []
  kevents : List KEvent := []
  now : Nat := 0
  pending : Bool := false
  frames : List (Option Frame) := []
  load : Nat → List Char → Load := fun _ _ => .missing
  cursor : Int × Int := (0, 0)

/-- The compositor with the two locals of `run`. -/
structure Loop where
  c : Compositor := {}
  btnL : Bool := false
  overlayBtn : Bool := false
  deriving DecidableEq, Repr

namespace Compositor

variable (g : Geom) (c : Compositor)

def overlayHit (oi : Nat) (px py : Int) : Bool :=
  match c.wins[oi]? with
  | none => false
  | some w =>
    if px < 0 ∨ py < 0 then false
    else if asI32 w.win.winW = 0 ∨ asI32 w.win.winH = 0 ∨ asI32 w.win.winW ≤ px ∨ asI32 w.win.winH ≤ py then false
    else (w.win.pixels[(py.toNat * (asI32 w.win.winW).toNat + px.toNat) * 4 + 3]?).any (32 ≤ ·)

def toastAt (px py : Int) : Option Nat :=
  let x := asI32 (g.width - (260 + 8))
  if g.width = 0 then none
  else (List.range (min c.toasts.length 3)).find? fun i =>
    x ≤ px ∧ px < wrap32 (x + 260) ∧ 40 + 44 * (i : Int) ≤ py ∧ py < 40 + 44 * (i : Int) + 36

def onLeftDown (px py : Int) : Compositor :=
  match c.windowAt px py with
  | none => c
  | some i =>
    let raised := c.raise i
    raised.1.setFocus raised.2

def pushToast : Compositor :=
  { c with toasts := (if 32 ≤ c.toasts.length then c.toasts.drop 1 else c.toasts) ++ [none] }

def handleKevent : KEvent → Compositor
  | .lost => c.pushToast
  | .powerPending => { c with modal := true }
  | .powerCancelled => { c with modal := false }
  | .notice => c.pushToast

def drainKevents (evs : List KEvent) : Compositor :=
  if c.overlayIndex.isSome then c else evs.foldl handleKevent c

def tickToasts (now : Nat) : Compositor :=
  let shown := c.toasts.mapIdx fun i t => if i < 3 then some (t.getD now) else t
  { c with toasts := shown.filter fun t => t.all fun born => now - born < 500 }

def tickModal (pending : Bool) : Compositor :=
  { c with modal := !c.overlayIndex.isSome && pending }

/-- A failing frame closes its window; the first committed size is adopted. -/
def framed (f : Frame) (w : Window) : Window :=
  let win := f.calls.foldl WmState.call w.win
  let win := if f.failed then { win with closeRequested := true } else win
  if win.winW ≠ 0 ∧ win.winH ≠ 0 ∧ !w.sized then
    { w with
      rect := { w.rect with w := win.winW, h := win.winH }
      sized := true
      win := { win with targetW := win.winW, targetH := win.winH } }
  else { w with win := win }

def frameAll (frames : List (Option Frame)) : Compositor :=
  { c with wins := c.wins.mapIdx fun i w => (frames[i]?.join).elim w fun f => framed f w }

def rasterMeshes (frames : List (Option Frame)) : Compositor :=
  { c with
    wins := c.wins.mapIdx fun i w =>
      (frames[i]?.join.bind (·.mesh)).elim w fun m =>
        { w with win := { w.win with pixels := m.1, winW := m.2.1, winH := m.2.2 } } }

/-! Deferred requests -/

def asks (i : Nat) (p : WmState → Bool) : Bool := (c.wins[i]?).any fun w => p w.win

def backgroundAt (i : Nat) : Compositor :=
  if c.asks i (·.bgRequest) then c.update i Window.pinned else c

def overlayAt (i : Nat) : Compositor :=
  if c.asks i (·.overlayRequest) then
    let c' := c.answer i fun s => { s with overlayRequest := false }
    if c'.overlayIndex.isSome then c'
    else
      let c'' := c'.update i Window.overlaid
      if c''.focused = i then (c''.update i Window.unfocus).focusTopmostVisible else c''
  else c

def spawnLoaded : Load → Compositor
  | .missing => c
  | .failed => c.spawnNamed g none
  | .started calls => c.spawnNamed g (some calls)

def spawns (load : Nat → List Char → Load) : Compositor :=
  let drained := { c with wins := c.wins.map fun w => { w with win := { w.win with spawnRequest := [] } } }
  (c.wins.flatMap (·.win.spawnRequest)).zipIdx.foldl (fun c x => c.spawnLoaded g (load x.2 x.1)) drained

def moveAt (cursor : Int × Int) (i : Nat) : Compositor :=
  match c.wins[i]? with
  | none => c
  | some w =>
    if w.win.moveRequested then
      let c' := c.answer i fun s => { s with moveRequested := false }
      if w.bg then c'
      else
        { c' with
          drag := some
            { winId := w.id
              grabDx := wrap32 (cursor.1 - asI32 w.rect.x)
              grabDy := wrap32 (cursor.2 - asI32 w.rect.y)
              inst := w.inst } }
    else c

def minimizeAt (i : Nat) : Compositor :=
  if c.asks i (·.minimizeRequest) then
    let c' := c.answer i fun s => { s with minimizeRequest := false }
    if (c.wins[i]?).any (·.bg) then c'
    else
      let c'' := c'.update i Window.minimize
      if c''.focused = i then c''.focusTopmostVisible else c''
  else c

def maximizeAt (i : Nat) : Compositor :=
  if c.asks i (·.maximizeRequest) then
    (c.answer i fun s => { s with maximizeRequest := false }).toggleMaximize g i
  else c

def controlAt (i : Nat) : Compositor := (c.minimizeAt i).maximizeAt g i

def activations : List Nat := c.wins.flatMap (·.win.activateRequest)

def drainActivations : Compositor :=
  { c with wins := c.wins.map fun w => { w with win := { w.win with activateRequest := [] } } }

def eachWindow (f : Compositor → Nat → Compositor) : Compositor := (List.range c.wins.length).foldl f c

end Compositor

open Compositor

namespace Loop

variable (g : Geom) (s : Loop)

def routed (oi : Nat) (x : Input) : Bool :=
  match x.ev.kind with
  | 0 => x.pending
  | 1 => x.pending || s.overlayBtn || (!s.btnL && s.c.overlayHit oi x.cx x.cy)
  | 2 =>
    x.ev.p0 = 0 &&
      if x.ev.p1 ≠ 0 then x.pending || (!s.btnL && s.c.overlayHit oi x.cx x.cy) else x.pending || s.overlayBtn
  | 5 => x.pending || s.c.overlayHit oi x.cx x.cy
  | _ => false

def overlayInput (x : Input) : Loop :=
  if x.ev.kind = 2 then
    if x.ev.p1 ≠ 0 then { s with overlayBtn := true }
    else { c := { s.c with drag := none }, btnL := false, overlayBtn := false }
  else s

def windowInput (x : Input) : Loop :=
  match x.ev.kind with
  | 1 =>
    match s.c.drag with
    | some d => { s with c := s.c.dragTo g d.winId x.cx x.cy (d.grabDx, d.grabDy) }
    | none => s
  | 2 =>
    if x.ev.p0 = 0 then
      if x.ev.p1 ≠ 0 ∧ !s.btnL then { s with btnL := true, c := s.c.onLeftDown x.cx x.cy }
      else if x.ev.p1 = 0 ∧ s.btnL then { s with btnL := false, c := { s.c with drag := none } }
      else s
    else s
  | _ => s

def dismissed (x : Input) : Option Nat :=
  if x.ev.kind = 2 ∧ x.ev.p0 = 0 ∧ x.ev.p1 ≠ 0 ∧ s.c.overlayIndex = none then s.c.toastAt g x.cx x.cy else none

def input (x : Input) : Loop :=
  if s.c.overlayIndex.any fun oi => s.routed oi x then s.overlayInput x
  else if s.c.modal then s
  else
    match s.dismissed g x with
    | some i => { s with c := { s.c with toasts := s.c.toasts.eraseIdx i } }
    | none => s.windowInput g x

end Loop

namespace Iteration

variable (g : Geom) (it : Iteration) (s : Loop)

def framing : Loop :=
  let s' := it.inputs.foldl (Loop.input g) { s with c := s.c.reap }
  let c := ((s'.c.drainKevents it.kevents).tickToasts it.now).tickModal it.pending
  { s' with c := (c.frameAll it.frames).rasterMeshes it.frames }

def requests (c : Compositor) : Compositor :=
  let c := c.eachWindow backgroundAt
  let c := c.eachWindow overlayAt
  let c := c.spawns g it.load
  let c := c.eachWindow fun c i => c.moveAt it.cursor i
  c.eachWindow fun c i => c.controlAt g i

def activated (c : Compositor) : Compositor := c.activations.foldl activate c.drainActivations

def run : Loop :=
  let s' := it.framing g s
  { s' with c := activated (it.requests g s'.c) }

end Iteration

/-- The compositor as `Compositor::new` leaves it: the shell or its stand-in, and the overlay for notices. -/
def boot (g : Geom) (shell notify : Load) : Compositor :=
  (({} : Compositor).spawnLoaded g shell).spawnLoaded g notify

end Ruos.Wm
