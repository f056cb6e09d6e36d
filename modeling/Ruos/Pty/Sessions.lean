import Ruos.Lib.Run
import Ruos.Pty.Residue

/-! Sessions on the pool of pairs: SSH connections and terminal windows that claim a pair, the queue and the dispatcher
of the shells, and the ways in which a session ends. Sessions and shells run in parallel; every step is one access to
the shared flags or one operation under a lock. -/
namespace Ruos.Pty

open Lib

def numPairs : Nat := 8

inductive PtyOrigin
  | free
  | ssh
  | localGui
deriving DecidableEq

/-- Where a session is: `closing` is between the two halves of `term.close`. -/
inductive Phase
  | fresh
  | claimed (idx : Nat)
  | marked (idx : Nat)
  | attached (idx : Nat)
  | closing (idx : Nat)
  | ended
deriving DecidableEq

def Phase.pair : Phase → Option Nat
  | .claimed idx | .marked idx | .attached idx | .closing idx => some idx
  | .fresh | .ended => none

/-- A shell, in the queue or running: the pair it is bound to, and the session it was queued for. -/
structure Shell where
  idx : Nat
  session : Nat
deriving DecidableEq

/-- Input bytes are tagged with the session that sends them, output bytes with the session of the shell that writes
them. A `release` is in `leaving` before it clears `CLAIMED` and in `resetting` until it has cleared the other flags.
The fields from `owner` on are not in the code: the session that claimed each pair last, the session on whose account
its shutdown flag was set last, and who got whose bytes and freed whose pair. -/
structure Sessions where
  tty : Nat → Tty Nat
  origin : Nat → PtyOrigin
  queue : List Shell
  shells : List Shell
  leaving : List Shell
  resetting : List Shell
  phase : Nat → Phase
  watchdog : Option (Nat × Option Nat)
  owner : Nat → Option Nat
  shutdownBy : Nat → Option Nat
  received : List (Nat × Nat)
  consumed : List (Nat × Nat)
  freed : List (Nat × Option Nat)

inductive SessionEvent
  | tryClaim (session idx : Nat)
  | setOrigin (session : Nat) (o : PtyOrigin)
  | enqueue (session : Nat)
  | input (session : Nat) (byte : UInt8)
  | output (session : Nat)
  | close (session : Nat)
  | closeRelease (session : Nat)
  | hangup (session : Nat)
  | finish (session : Nat)
  | spawn
  | drop
  | shellRead (sh : Shell) (len : Nat)
  | shellWrite (sh : Shell) (bytes : List UInt8)
  | shellSet (sh : Shell) (t : Termios) (pid : Option Nat)
  | exit (sh : Shell)
  | releaseClaim (sh : Shell)
  | releaseRest (sh : Shell)
  | watch (idx : Nat)
  | watchShutdown

namespace Sessions

def boot : Sessions where
  tty := fun _ => .boot 0
  origin := fun _ => .free
  queue := []
  shells := []
  leaving := []
  resetting := []
  phase := fun _ => .fresh
  watchdog := none
  owner := fun _ => none
  shutdownBy := fun _ => none
  received := []
  consumed := []
  freed := []

def setTty (s : Sessions) (idx : Nat) (t : Tty Nat) : Sessions := { s with tty := Function.update s.tty idx t }

def setPhase (s : Sessions) (session : Nat) (p : Phase) : Sessions :=
  { s with phase := Function.update s.phase session p }

def requestShutdown (s : Sessions) (idx : Nat) (account : Option Nat) : Sessions :=
  { s.setTty idx { s.tty idx with shutdown := true } with shutdownBy := Function.update s.shutdownBy idx account }

def step (s : Sessions) : SessionEvent → Option Sessions
  | .tryClaim session idx =>
    if s.phase session = .fresh ∧ 1 ≤ idx ∧ idx < numPairs ∧ (s.tty idx).claimed = false then
      some { (s.setTty idx { s.tty idx with claimed := true }).setPhase session (.claimed idx) with
             owner := Function.update s.owner idx (some session) }
    else none
  | .setOrigin session o =>
    match s.phase session with
    | .claimed idx =>
      some { s.setPhase session (.marked idx) with origin := Function.update s.origin idx o }
    | _ => none
  | .enqueue session =>
    match s.phase session with
    | .marked idx => some { s.setPhase session (.attached idx) with queue := s.queue ++ [⟨idx, session⟩] }
    | _ => none
  | .input session byte =>
    match s.phase session with
    | .attached idx => some (s.setTty idx ((s.tty idx).masterInputPush ⟨byte, session⟩))
    | _ => none
  | .output session =>
    match s.phase session with
    | .attached idx =>
      let r := (s.tty idx).step .masterOutputTry
      some { s.setTty idx r.2 with received := s.received ++ r.1.cells.map fun c => (session, c.tag) }
    | _ => none
  | .close session =>
    match s.phase session with
    | .attached idx => some ((s.requestShutdown idx (some session)).setPhase session (.closing idx))
    | _ => none
  | .closeRelease session =>
    match s.phase session with
    | .closing idx => some { s.setPhase session (.attached idx) with leaving := s.leaving ++ [⟨idx, session⟩] }
    | _ => none
  | .hangup session =>
    match s.phase session with
    | .attached idx => some ((s.requestShutdown idx (some session)).setPhase session .ended)
    | _ => none
  | .finish session =>
    match s.phase session with
    | .attached _ => some (s.setPhase session .ended)
    | _ => none
  | .spawn =>
    match s.queue with
    | [] => none
    | sh :: rest => some { s with queue := rest, shells := s.shells ++ [sh] }
  -- The pool of shell tasks is full.
  | .drop =>
    match s.queue with
    | [] => none
    | sh :: rest => some { s with queue := rest, leaving := s.leaving ++ [sh] }
  | .shellRead sh len =>
    if sh ∈ s.shells then
      let r := (s.tty sh.idx).slaveRead len
      some { s.setTty sh.idx r.2 with consumed := s.consumed ++ r.1.cells.map fun c => (sh.session, c.tag) }
    else none
  | .shellWrite sh bytes =>
    if sh ∈ s.shells then
      some (s.setTty sh.idx ((s.tty sh.idx).step (.slaveWrite (bytes.map fun b => ⟨b, sh.session⟩))).2)
    else none
  | .shellSet sh t pid =>
    if sh ∈ s.shells then
      some (s.setTty sh.idx (((s.tty sh.idx).step (.setTermios t)).2.step (.setForeground pid)).2)
    else none
  -- The shell ends, or could not be started.
  | .exit sh =>
    if sh ∈ s.shells then some { s with shells := s.shells.erase sh, leaving := s.leaving ++ [sh] } else none
  | .releaseClaim sh =>
    if sh ∈ s.leaving then
      some { s.setTty sh.idx { s.tty sh.idx with claimed := false } with
             leaving := s.leaving.erase sh
             resetting := s.resetting ++ [sh]
             freed := if (s.tty sh.idx).claimed then s.freed ++ [(sh.session, s.owner sh.idx)] else s.freed }
    else none
  | .releaseRest sh =>
    if sh ∈ s.resetting then
      some { s.setTty sh.idx { s.tty sh.idx with shutdown := false } with
             resetting := s.resetting.erase sh
             origin := Function.update s.origin sh.idx .free }
    else none
  -- Whether the pair has been idle for too long is left open.
  | .watch idx =>
    if (s.tty idx).claimed ∧ (s.tty idx).shutdown = false ∧ s.origin idx = .ssh ∧ s.watchdog = none then
      some { s with watchdog := some (idx, s.owner idx) }
    else none
  | .watchShutdown => s.watchdog.map fun w => { s.requestShutdown w.1 w.2 with watchdog := none }

/-- When a pair is claimed nothing of the session before is left on it: no shell is queued or running and no release is
under way, no session is still attached, the watchdog is not about to shut it down, its shutdown flag is clear, and no
byte is in its queues or its line buffer. -/
def Quiet (s : Sessions) : SessionEvent → Prop
  | .tryClaim _ idx =>
    (∀ sh ∈ s.queue ++ s.shells ++ s.leaving ++ s.resetting, sh.idx ≠ idx) ∧
    (∀ session, (s.phase session).pair ≠ some idx) ∧ (∀ w ∈ s.watchdog, w.1 ≠ idx) ∧
    (s.tty idx).shutdown = false ∧ (s.tty idx).pair.masterOut = [] ∧ (s.tty idx).pair.lineBuffer = [] ∧
    (s.tty idx).ring.contents = []
  | _ => True

/-- One shell for each pair, every byte goes to or comes from the session the pair was claimed by, and no session frees
or shuts down the pair of another. -/
structure Isolated (s : Sessions) : Prop where
  oneShell : (s.shells.map Shell.idx).Nodup
  output : ∀ x ∈ s.received, x.1 = x.2
  input : ∀ x ∈ s.consumed, x.1 = x.2
  freed : ∀ x ∈ s.freed, x.2 = some x.1
  shutdown : ∀ idx, (s.tty idx).claimed → (s.tty idx).shutdown → s.shutdownBy idx = s.owner idx

end Sessions

end Ruos.Pty
