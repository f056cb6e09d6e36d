import Ruos.Pty.LineDiscipline

/-! Successive sessions on one pair: what the session that claims it next can see of the one before. No operation brings
in a byte with a tag of its own. -/
namespace Ruos.Pty

open Lib List

variable {τ : Type*}

/-- One pair with its slave ring, its flags of `pty/mod.rs` and the kill marks of the processes. -/
structure Tty (τ : Type*) where
  pair : PtyPair τ
  ring : SpscRing τ
  foreground : Option Nat
  killPending : Nat → Bool
  claimed : Bool
  shutdown : Bool

inductive TtyOp (τ : Type*)
  | masterInputPush (c : Cell τ)
  | masterOutputTry
  | slaveRead (len : Nat)
  | slaveWrite (cs : List (Cell τ))
  | setTermios (t : Termios)
  | setForeground (pid : Option Nat)
  | requestShutdown

/-- The bytes an operation returns, and whether it reports the end of the input. -/
structure Reply (τ : Type*) where
  cells : List (Cell τ)
  eof : Bool

def Reply.none : Reply τ := ⟨[], false⟩

namespace SpscRing

/-- The `pop`s of one read of at most `n` bytes. -/
def popUpTo : Nat → SpscRing τ → List (Cell τ) × SpscRing τ
  | 0, r => ([], r)
  | n + 1, r =>
    match r.pop with
    | none => ([], r)
    | some (c, r') => (c :: (popUpTo n r').1, (popUpTo n r').2)

theorem popUpTo_contents (n : Nat) (r : SpscRing τ) :
    (popUpTo n r).1 = r.contents.take n ∧ (popUpTo n r).2.contents = r.contents.drop n := by
  induction n generalizing r with
  | zero => exact ⟨rfl, rfl⟩
  | succ n ih =>
    cases hpop : r.pop with
    | none =>
      have hnil := pop_eq_none hpop
      rw [popUpTo, hpop, hnil]
      exact ⟨rfl, rfl⟩
    | some x =>
      obtain ⟨c, r'⟩ := x
      obtain ⟨htake, hdrop⟩ := ih r'
      rw [popUpTo, hpop, contents_of_pop hpop]
      exact ⟨congrArg (c :: ·) htake, hdrop⟩

end SpscRing

namespace Tty

def boot (tag : τ) : Tty τ := ⟨.new, .new tag, none, fun _ => false, false, false⟩

def tryClaim (s : Tty τ) : Bool × Tty τ := if s.claimed then (false, s) else (true, { s with claimed := true })

/-- The origin and the time of the last activity, which are also reset, are left out. -/
def release (s : Tty τ) : Tty τ := { s with claimed := false, shutdown := false }

def masterInputPush (s : Tty τ) (c : Cell τ) : Tty τ :=
  let r := s.pair.processInput s.foreground c
  { s with
    pair := r.1
    ring := s.ring.pushAll r.2.1
    killPending := fun pid => s.killPending pid || r.2.2 == some pid }

/-- One poll of `PtySlaveFile::read`. -/
def slaveRead (s : Tty τ) (len : Nat) : Reply τ × Tty τ :=
  let r := SpscRing.popUpTo len s.ring
  let killed := (s.foreground.map s.killPending).getD false
  (⟨r.1, len != 0 && r.1.isEmpty && (s.shutdown || killed)⟩, { s with ring := r.2 })

def step (s : Tty τ) : TtyOp τ → Reply τ × Tty τ
  | .masterInputPush c => (.none, s.masterInputPush c)
  | .masterOutputTry =>
    (⟨s.pair.masterOut.take 1, false⟩, { s with pair := { s.pair with masterOut := s.pair.masterOut.drop 1 } })
  | .slaveRead len => s.slaveRead len
  | .slaveWrite cs => (.none, { s with pair := cs.foldl PtyPair.processOutput s.pair })
  | .setTermios t => (.none, { s with pair := { s.pair with termios := t } })
  | .setForeground pid => (.none, { s with foreground := pid })
  | .requestShutdown => (.none, { s with shutdown := true })

def run (s : Tty τ) (ops : List (TtyOp τ)) : Tty τ := ops.foldl (fun s op => (s.step op).2) s

/-- The bytes that each operation returns: those the slave reads and those the master side receives. -/
def observe (s : Tty τ) : List (TtyOp τ) → List (List UInt8)
  | [] => []
  | op :: ops => (s.step op).1.cells.map Cell.byte :: observe (s.step op).2 ops

/-- The pair after a session that claims it, uses it and releases it, claimed for the next one. -/
def reclaimed (s : Tty τ) (session : List (TtyOp τ)) : Tty τ := ((s.tryClaim.2.run session).release).tryClaim.2

end Tty

structure Settings where
  mapsReturn : Bool
  canonical : Bool
  signals : Bool
  echoes : Bool
  mapsNewline : Bool
  vintr : UInt8
  verase : UInt8
  veof : UInt8

def Termios.settings (t : Termios) : Settings :=
  ⟨t.mapsReturn, t.canonical, t.signals, t.echoes, t.mapsNewline, t.cCc vintr, t.cCc verase, t.cCc veof⟩

/-- Two pairs between which the line discipline does not distinguish. -/
structure PtyPair.Alike (p q : PtyPair τ) : Prop where
  masterOut : p.masterOut = q.masterOut
  lineBuffer : p.lineBuffer = q.lineBuffer
  settings : p.termios.settings = q.termios.settings

namespace PtyPair.Alike

variable {p q : PtyPair τ}

theorem sendEcho (h : Alike p q) (tag : τ) (bs : List UInt8) : Alike (p.sendEcho tag bs) (q.sendEcho tag bs) := by
  have hecho : p.termios.echoes = q.termios.echoes := congrArg Settings.echoes h.settings
  unfold PtyPair.sendEcho
  rw [hecho]
  split
  · exact { h with masterOut := congrArg (· ++ _) h.masterOut }
  · exact h

theorem processInput (h : Alike p q) (f g : Option Nat) (c : Cell τ) :
    Alike (p.processInput f c).1 (q.processInput g c).1 ∧ (p.processInput f c).2.1 = (q.processInput g c).2.1 := by
  have h₁ : mapInput p.termios c = mapInput q.termios c := by
    unfold mapInput
    rw [show p.termios.mapsReturn = q.termios.mapsReturn from congrArg Settings.mapsReturn h.settings]
  have h₂ : p.termios.canonical = q.termios.canonical := congrArg Settings.canonical h.settings
  have h₃ : p.termios.signals = q.termios.signals := congrArg Settings.signals h.settings
  have h₄ : p.termios.cCc vintr = q.termios.cCc vintr := congrArg Settings.vintr h.settings
  have h₅ : p.termios.cCc verase = q.termios.cCc verase := congrArg Settings.verase h.settings
  have h₆ : p.termios.cCc veof = q.termios.cCc veof := congrArg Settings.veof h.settings
  have hset : ∀ line, Alike ({ p with lineBuffer := line }) ({ q with lineBuffer := line }) :=
    fun line => { h with lineBuffer := rfl }
  unfold PtyPair.processInput
  rw [h₁, h₂, h₃, h₄, h₅, h₆, h.lineBuffer]
  simp only
  split
  · exact ⟨h, rfl⟩
  split
  · exact ⟨(hset _).sendEcho _ _, rfl⟩
  split
  · split
    · exact ⟨h, rfl⟩
    · exact ⟨(hset _).sendEcho _ _, rfl⟩
  split
  · exact ⟨(hset _).sendEcho _ _, rfl⟩
  split
  · exact ⟨hset _, rfl⟩
  · exact ⟨(hset _).sendEcho _ _, rfl⟩

theorem processOutput (h : Alike p q) (c : Cell τ) : Alike (p.processOutput c) (q.processOutput c) := by
  have hmap : p.termios.mapsNewline = q.termios.mapsNewline := congrArg Settings.mapsNewline h.settings
  unfold PtyPair.processOutput
  rw [hmap, h.masterOut]
  exact { h with masterOut := rfl }

theorem foldl_processOutput (h : Alike p q) (cs : List (Cell τ)) :
    Alike (cs.foldl PtyPair.processOutput p) (cs.foldl PtyPair.processOutput q) := by
  induction cs generalizing p q with
  | nil => exact h
  | cons c cs ih => exact ih (h.processOutput c)

end PtyPair.Alike

/-- Two states that no reads and writes can tell apart: the flags and the positions of the ring do not matter. -/
structure Tty.Alike (s t : Tty τ) : Prop where
  pair : s.pair.Alike t.pair
  input : s.ring.contents = t.ring.contents

namespace Tty.Alike

variable {s t : Tty τ}

theorem step (h : Alike s t) (op : TtyOp τ) :
    (s.step op).1.cells = (t.step op).1.cells ∧ Alike (s.step op).2 (t.step op).2 := by
  cases op with
  | masterInputPush c =>
    obtain ⟨hpair, hpush⟩ := h.pair.processInput s.foreground t.foreground c
    refine ⟨rfl, hpair, ?_⟩
    simp only [Tty.step, Tty.masterInputPush, SpscRing.contents_pushAll, h.input, hpush]
  | masterOutputTry =>
    simp only [Tty.step, h.pair.masterOut]
    exact ⟨trivial, ⟨rfl, h.pair.lineBuffer, h.pair.settings⟩, h.input⟩
  | slaveRead len =>
    obtain ⟨hs, hs'⟩ := SpscRing.popUpTo_contents len s.ring
    obtain ⟨ht, ht'⟩ := SpscRing.popUpTo_contents len t.ring
    simp only [Tty.step, Tty.slaveRead]
    rw [hs, ht, h.input]
    exact ⟨rfl, h.pair, by simp only [hs', ht', h.input]⟩
  | slaveWrite cs => exact ⟨rfl, h.pair.foldl_processOutput cs, h.input⟩
  | setTermios t => exact ⟨rfl, ⟨h.pair.masterOut, h.pair.lineBuffer, rfl⟩, h.input⟩
  | setForeground | requestShutdown => exact ⟨rfl, h.pair, h.input⟩

theorem observe (h : Alike s t) (ops : List (TtyOp τ)) : s.observe ops = t.observe ops := by
  induction ops generalizing s t with
  | nil => rfl
  | cons op ops ih =>
    obtain ⟨hcells, hnext⟩ := h.step op
    rw [Tty.observe, Tty.observe, hcells, ih hnext]

end Tty.Alike

/-- Nothing of an earlier session is left that could be seen: the settings that matter are those of a fresh pair, and
the line buffer and both queues are empty. -/
structure Tty.Clean (s : Tty τ) : Prop where
  masterOut : s.pair.masterOut = []
  lineBuffer : s.pair.lineBuffer = []
  settings : s.pair.termios.settings = Termios.defaultCooked.settings
  input : s.ring.contents = []

theorem Tty.Clean.alike {s t : Tty τ} (hs : s.Clean) (ht : t.Clean) : s.Alike t :=
  ⟨⟨hs.masterOut.trans ht.masterOut.symm, hs.lineBuffer.trans ht.lineBuffer.symm, hs.settings.trans ht.settings.symm⟩,
    hs.input.trans ht.input.symm⟩

variable {P : τ → Prop}

/-- Every byte on the pair, in either direction, has a tag that meets `P`. -/
structure Tty.Tagged (P : τ → Prop) (t : Tty τ) : Prop where
  masterOut : ∀ c ∈ t.pair.masterOut, P c.tag
  lineBuffer : ∀ c ∈ t.pair.lineBuffer, P c.tag
  input : ∀ c ∈ t.ring.contents, P c.tag

variable {p : PtyPair τ}

theorem PtyPair.tagged_sendEcho (h : ∀ c ∈ p.masterOut, P c.tag) {tag : τ} (htag : P tag) (bs : List UInt8) :
    ∀ c ∈ (p.sendEcho tag bs).masterOut, P c.tag := by
  unfold sendEcho
  split
  · intro c hc
    rcases mem_append.mp hc with hc | hc
    · exact h c hc
    · obtain ⟨b, -, rfl⟩ := mem_map.mp hc
      exact htag
  · exact h

theorem PtyPair.tagged_processInput (hout : ∀ c ∈ p.masterOut, P c.tag) (hline : ∀ c ∈ p.lineBuffer, P c.tag)
    (f : Option Nat) {c : Cell τ} (hc : P c.tag) :
    (∀ d ∈ (p.processInput f c).1.masterOut, P d.tag) ∧ (∀ d ∈ (p.processInput f c).1.lineBuffer, P d.tag) ∧
      ∀ d ∈ (p.processInput f c).2.1, P d.tag := by
  have htag : P (mapInput p.termios c).tag := by
    unfold mapInput
    split <;> exact hc
  have hecho : ∀ line bs, ∀ d ∈ (({ p with lineBuffer := line }).sendEcho (mapInput p.termios c).tag
      bs).masterOut, P d.tag := fun line bs => tagged_sendEcho (p := { p with lineBuffer := line }) hout htag bs
  have hsnoc : ∀ d ∈ p.lineBuffer ++ [mapInput p.termios c], P d.tag := by
    intro d hd
    rcases mem_append.mp hd with hd | hd
    · exact hline d hd
    · rw [mem_singleton.mp hd]
      exact htag
  have hnil : ∀ d ∈ ([] : List (Cell τ)), P d.tag := fun _ hd => absurd hd not_mem_nil
  simp only [processInput]
  split
  · exact ⟨hout, hline, fun d hd => by rw [mem_singleton.mp hd]; exact htag⟩
  split
  · exact ⟨hecho _ _, by simp, hnil⟩
  split
  · split
    · exact ⟨hout, hline, hnil⟩
    · refine ⟨hecho _ _, ?_, hnil⟩
      rw [lineBuffer_sendEcho]
      exact fun d hd => hline d ((dropLast_sublist _).subset hd)
  split
  · exact ⟨hecho _ _, by simp, hsnoc⟩
  split
  · exact ⟨hout, hnil, hline⟩
  · exact ⟨hecho _ _, by rw [lineBuffer_sendEcho]; exact hsnoc, hnil⟩

variable {t : Tty τ}

theorem Tty.Tagged.masterInputPush (h : t.Tagged P) {c : Cell τ} (hc : P c.tag) : (t.masterInputPush c).Tagged P := by
  obtain ⟨hout, hline, hpush⟩ := PtyPair.tagged_processInput h.masterOut h.lineBuffer t.foreground hc
  refine ⟨hout, hline, fun d hd => ?_⟩
  rw [Tty.masterInputPush, SpscRing.contents_pushAll] at hd
  rcases mem_append.mp (mem_of_mem_take hd) with hd | hd
  · exact h.input d hd
  · exact hpush d hd

theorem Tty.Tagged.masterOutputTry (h : t.Tagged P) :
    (t.step .masterOutputTry).2.Tagged P ∧ ∀ c ∈ (t.step .masterOutputTry).1.cells, P c.tag :=
  ⟨⟨fun c hc => h.masterOut c (mem_of_mem_drop hc), h.lineBuffer, h.input⟩,
    fun c hc => h.masterOut c (mem_of_mem_take hc)⟩

theorem Tty.Tagged.slaveRead (h : t.Tagged P) (len : Nat) :
    (t.slaveRead len).2.Tagged P ∧ ∀ c ∈ (t.slaveRead len).1.cells, P c.tag := by
  obtain ⟨htake, hdrop⟩ := SpscRing.popUpTo_contents len t.ring
  refine ⟨⟨h.masterOut, h.lineBuffer, fun c hc => ?_⟩, fun c hc => ?_⟩
  · simp only [Tty.slaveRead, hdrop] at hc
    exact h.input c (mem_of_mem_drop hc)
  · simp only [Tty.slaveRead, htake] at hc
    exact h.input c (mem_of_mem_take hc)

theorem PtyPair.tagged_processOutput (h : ∀ c ∈ p.masterOut, P c.tag) {cs : List (Cell τ)} (hcs : ∀ c ∈ cs, P c.tag) :
    ∀ c ∈ (cs.foldl processOutput p).masterOut, P c.tag := by
  induction cs generalizing p with
  | nil => exact h
  | cons c cs ih =>
    have hc : P c.tag := hcs c (by simp)
    refine ih ?_ fun d hd => hcs d (mem_cons_of_mem c hd)
    intro d hd
    simp only [processOutput] at hd
    split at hd <;> simp only [mem_append, mem_singleton] at hd
    · rcases hd with (hd | rfl) | rfl
      · exact h d hd
      · exact hc
      · exact hc
    · rcases hd with hd | rfl
      · exact h d hd
      · exact hc

theorem PtyPair.lineBuffer_processOutput (p : PtyPair τ) (cs : List (Cell τ)) :
    (cs.foldl processOutput p).lineBuffer = p.lineBuffer := by
  induction cs generalizing p with
  | nil => rfl
  | cons c cs ih => exact ih (p.processOutput c)

theorem Tty.Tagged.slaveWrite (h : t.Tagged P) {cs : List (Cell τ)} (hcs : ∀ c ∈ cs, P c.tag) :
    (t.step (.slaveWrite cs)).2.Tagged P := by
  refine ⟨PtyPair.tagged_processOutput h.masterOut hcs, ?_, h.input⟩
  simp only [Tty.step, PtyPair.lineBuffer_processOutput]
  exact h.lineBuffer

end Ruos.Pty
