import Mathlib.Data.Finset.Card
import Ruos.Lib.Run

/-! The byte pipe of `pipe/mod.rs`: a bounded buffer, the numbers of open ends, one waker slot for each direction, and
what it guarantees over every interleaving of reads, writes and drops of its ends. -/
namespace Ruos

def pipeCap : Nat := 64 * 1024

structure PipeInner where
  buf : List UInt8
  writers : Nat
  readers : Nat
  readWaker : Option Nat
  writeWaker : Option Nat

namespace PipeInner

/-- One poll of `read` with a buffer of `len` bytes: the bytes returned, `none` if it is pending, and the waker that
is woken. -/
def pollRead (g : PipeInner) (len waker : Nat) : Option (List UInt8) × Option Nat × PipeInner :=
  if len = 0 then (some [], none, g)
  else
    let got := g.buf.take len
    let g := { g with buf := g.buf.drop len }
    if got ≠ [] then (some got, g.writeWaker, { g with writeWaker := none })
    else if g.writers = 0 then (some [], none, g)
    else (none, none, { g with readWaker := some waker })

/-- One poll of `write`: the number of bytes accepted, `none` if it is pending, and the waker that is woken. -/
def pollWrite (g : PipeInner) (bytes : List UInt8) (waker : Nat) : Option Nat × Option Nat × PipeInner :=
  if bytes = [] then (some 0, none, g)
  else if g.readers = 0 then (some 0, none, g)
  else
    let room := pipeCap - g.buf.length
    if room = 0 then (none, none, { g with writeWaker := some waker })
    else
      let n := min room bytes.length
      (some n, g.readWaker, { g with buf := g.buf ++ bytes.take n, readWaker := none })

def dropWriter (g : PipeInner) : Option Nat × PipeInner :=
  let g := { g with writers := g.writers - 1 }
  if g.writers = 0 then (g.readWaker, { g with readWaker := none }) else (none, g)

def dropReader (g : PipeInner) : Option Nat × PipeInner :=
  let g := { g with readers := g.readers - 1 }
  if g.readers = 0 then (g.writeWaker, { g with writeWaker := none }) else (none, g)

/-- What a poll of `read` can do. -/
inductive ReadPoll (g : PipeInner) (len waker : Nat) : Option (List UInt8) × Option Nat × PipeInner → Prop
  | empty (hlen : len = 0) : ReadPoll g len waker (some [], none, g)
  | data (bs rest : List UInt8) (hne : bs ≠ []) (hbuf : g.buf = bs ++ rest) :
      ReadPoll g len waker (some bs, g.writeWaker, { g with buf := rest, writeWaker := none })
  | eof (hbuf : g.buf = []) (hgone : g.writers = 0) : ReadPoll g len waker (some [], none, g)
  | pending (hbuf : g.buf = []) (hopen : 0 < g.writers) :
      ReadPoll g len waker (none, none, { g with readWaker := some waker })

theorem readPoll (g : PipeInner) (len waker : Nat) : ReadPoll g len waker (g.pollRead len waker) := by
  unfold pollRead
  split
  · rename_i hlen
    exact .empty hlen
  · rename_i hlen
    simp only
    split
    · rename_i hne
      exact .data _ _ hne (List.take_append_drop len g.buf).symm
    · rename_i hne
      have hbuf : g.buf = [] := by
        rcases List.take_eq_nil_iff.mp (not_not.mp hne) with h | h
        · exact absurd h hlen
        · exact h
      have hdrop : g.buf.drop len = g.buf := by rw [hbuf, List.drop_nil]
      rw [hdrop]
      split
      · rename_i hgone
        exact .eof hbuf hgone
      · rename_i hopen
        exact .pending hbuf (Nat.pos_of_ne_zero hopen)

/-- What a poll of `write` can do. -/
inductive WritePoll (g : PipeInner) (bytes : List UInt8) (waker : Nat) : Option Nat × Option Nat × PipeInner → Prop
  | refused : WritePoll g bytes waker (some 0, none, g)
  | stored (n : Nat) (hn : 0 < n) (hle : n ≤ bytes.length) (hroom : g.buf.length + n ≤ pipeCap) :
      WritePoll g bytes waker (some n, g.readWaker, { g with buf := g.buf ++ bytes.take n, readWaker := none })
  | pending (hfull : pipeCap ≤ g.buf.length) (hopen : 0 < g.readers) :
      WritePoll g bytes waker (none, none, { g with writeWaker := some waker })

theorem writePoll (g : PipeInner) (bytes : List UInt8) (waker : Nat) :
    WritePoll g bytes waker (g.pollWrite bytes waker) := by
  unfold pollWrite
  split
  · exact .refused
  · rename_i hne
    split
    · exact .refused
    · rename_i hopen
      simp only
      split
      · exact .pending (by omega) (Nat.pos_of_ne_zero hopen)
      · have := List.length_pos_iff.mpr hne
        exact .stored _ (by omega) (by omega) (by omega)

end PipeInner

/-- A pipe with its open ends, the waker that each pending call was last polled with, as long as it has not been
woken, and all bytes that have gone in and come out. -/
structure Pipe where
  inner : PipeInner
  openReaders : Finset Nat
  openWriters : Finset Nat
  parkedReaders : Nat → Option Nat
  parkedWriters : Nat → Option Nat
  accepted : List UInt8
  delivered : List UInt8

/-- A pipe with the given numbers of ends; `new_pipe` makes one with one end on each side. -/
def Pipe.new (readers writers : Nat) : Pipe where
  inner := ⟨[], writers, readers, none, none⟩
  openReaders := Finset.range readers
  openWriters := Finset.range writers
  parkedReaders := fun _ => none
  parkedWriters := fun _ => none
  accepted := []
  delivered := []

def wake (waker : Option Nat) (parked : Nat → Option Nat) : Nat → Option Nat := fun e =>
  if parked e = waker then none else parked e

theorem parked_of_wake {waker : Option Nat} {parked : Nat → Option Nat} {e w : Nat}
    (h : wake waker parked e = some w) : parked e = some w ∧ waker ≠ some w := by
  unfold wake at h
  split at h
  · cases h
  · rename_i hne
    exact ⟨h, fun heq => hne (h.trans heq.symm)⟩

inductive PipeEvent
  | read (e len waker : Nat)
  | write (e : Nat) (bytes : List UInt8) (waker : Nat)
  | dropReader (e : Nat)
  | dropWriter (e : Nat)
  /-- A pending call is given up. -/
  | cancelRead (e : Nat)
  | cancelWrite (e : Nat)

namespace Pipe

def read (s : Pipe) (e len waker : Nat) : Option (List UInt8) × Pipe :=
  let x := s.inner.pollRead len waker
  (x.1, { s with
    inner := x.2.2
    parkedReaders := Function.update (wake x.2.1 s.parkedReaders) e (if x.1 = none then some waker else none)
    parkedWriters := wake x.2.1 s.parkedWriters
    delivered := s.delivered ++ x.1.getD [] })

def write (s : Pipe) (e : Nat) (bytes : List UInt8) (waker : Nat) : Option Nat × Pipe :=
  let x := s.inner.pollWrite bytes waker
  (x.1, { s with
    inner := x.2.2
    parkedReaders := wake x.2.1 s.parkedReaders
    parkedWriters := Function.update (wake x.2.1 s.parkedWriters) e (if x.1 = none then some waker else none)
    accepted := s.accepted ++ bytes.take (x.1.getD 0) })

def step (s : Pipe) : PipeEvent → Option Pipe
  | .read e len waker => if e ∈ s.openReaders then some (s.read e len waker).2 else none
  | .write e bytes waker => if e ∈ s.openWriters then some (s.write e bytes waker).2 else none
  | .dropReader e =>
    if e ∈ s.openReaders then
      let x := s.inner.dropReader
      some { s with
        inner := x.2
        openReaders := s.openReaders.erase e
        parkedReaders := Function.update (wake x.1 s.parkedReaders) e none
        parkedWriters := wake x.1 s.parkedWriters }
    else none
  | .dropWriter e =>
    if e ∈ s.openWriters then
      let x := s.inner.dropWriter
      some { s with
        inner := x.2
        openWriters := s.openWriters.erase e
        parkedReaders := wake x.1 s.parkedReaders
        parkedWriters := Function.update (wake x.1 s.parkedWriters) e none }
    else none
  | .cancelRead e => some { s with parkedReaders := Function.update s.parkedReaders e none }
  | .cancelWrite e => some { s with parkedWriters := Function.update s.parkedWriters e none }
end Pipe

open Lib Function List Option Pipe Finset

/-- Nothing is lost or repeated, the buffer is bounded, and the counters count the open ends. -/
structure Pipe.Sound (s : Pipe) : Prop where
  fifo : s.accepted = s.delivered ++ s.inner.buf
  bounded : s.inner.buf.length ≤ pipeCap
  readers : s.inner.readers = s.openReaders.card
  writers : s.inner.writers = s.openWriters.card

theorem PipeInner.of_dropReader (g : PipeInner) : g.dropReader.2.buf = g.buf ∧
    g.dropReader.2.readers = g.readers - 1 ∧ g.dropReader.2.writers = g.writers := by
  unfold dropReader
  simp only
  split <;> exact ⟨rfl, rfl, rfl⟩

theorem PipeInner.of_dropWriter (g : PipeInner) : g.dropWriter.2.buf = g.buf ∧
    g.dropWriter.2.writers = g.writers - 1 ∧ g.dropWriter.2.readers = g.readers := by
  unfold dropWriter
  simp only
  split <;> exact ⟨rfl, rfl, rfl⟩

theorem Pipe.Sound.new (m k : Nat) : (new m k).Sound where
  fifo := rfl
  bounded := Nat.zero_le _
  readers := (card_range m).symm
  writers := (card_range k).symm

theorem Pipe.Sound.read {s : Pipe} (h : s.Sound) (e len waker : Nat) : (s.read e len waker).2.Sound := by
  have hpoll := s.inner.readPoll len waker
  unfold Pipe.read
  generalize s.inner.pollRead len waker = x at hpoll
  cases hpoll with
  | empty | eof | pending => exact { h with fifo := by simpa using h.fifo }
  | data bs rest hne hbuf =>
    have hb := h.bounded
    rw [hbuf, length_append] at hb
    refine ⟨?_, by simp only; omega, h.readers, h.writers⟩
    have hfifo := h.fifo
    rw [hbuf, ← append_assoc] at hfifo
    exact hfifo

theorem Pipe.Sound.write {s : Pipe} (h : s.Sound) (e : Nat) (bytes : List UInt8) (waker : Nat) :
    (s.write e bytes waker).2.Sound := by
  have hpoll := s.inner.writePoll bytes waker
  unfold Pipe.write
  generalize s.inner.pollWrite bytes waker = x at hpoll
  cases hpoll with
  | refused | pending => exact { h with fifo := by simpa using h.fifo }
  | stored n hn hle hroom =>
    refine ⟨?_, ?_, h.readers, h.writers⟩
    · change s.accepted ++ bytes.take n = s.delivered ++ (s.inner.buf ++ bytes.take n)
      rw [h.fifo, append_assoc]
    · rw [length_append, length_take]
      omega

variable {s s' : Pipe} {ev : PipeEvent}

theorem Pipe.Sound.step (h : s.Sound) (hs : s.step ev = some s') : s'.Sound := by
  cases ev <;> simp only [step, ite_none_right_eq_some, some.injEq] at hs
  case read e len waker =>
    exact hs.2 ▸ h.read e len waker
  case write e bytes waker =>
    exact hs.2 ▸ h.write e bytes waker
  case dropReader e =>
    obtain ⟨he, rfl⟩ := hs
    obtain ⟨hbuf, hr, hw⟩ := s.inner.of_dropReader
    refine ⟨by rw [hbuf]; exact h.fifo, by rw [hbuf]; exact h.bounded, ?_, ?_⟩
    · rw [hr, card_erase_of_mem he, h.readers]
    · rw [hw, h.writers]
  case dropWriter e =>
    obtain ⟨he, rfl⟩ := hs
    obtain ⟨hbuf, hw, hr⟩ := s.inner.of_dropWriter
    refine ⟨by rw [hbuf]; exact h.fifo, by rw [hbuf]; exact h.bounded, ?_, ?_⟩
    · rw [hr, h.readers]
    · rw [hw, card_erase_of_mem he, h.writers]
  case cancelRead | cancelWrite =>
    cases hs
    exact { h with }

/-- One side of a pipe that has at most one end: a call that waits is the one whose waker is in the slot, and it is
stuck. -/
structure Waits (ends : Finset Nat) (parked : Nat → Option Nat) (slot : Option Nat) (stuck : Prop) : Prop where
  single : ends.card ≤ 1
  isOpen : ∀ e w, parked e = some w → e ∈ ends
  waits : ∀ e w, parked e = some w → slot = some w ∧ stuck

namespace Waits

variable {ends : Finset Nat} {parked : Nat → Option Nat} {slot slot' woken : Option Nat} {stuck stuck' : Prop}

theorem start (h : ends.card ≤ 1) : Waits ends (fun _ => none) slot stuck where
  single := h
  isOpen := fun _ _ hp => by cases hp
  waits := fun _ _ hp => by cases hp

section

variable (h : Waits ends parked slot stuck)
include h

theorem eq_of_polled {e : Nat} (he : e ∈ ends) {v : Option Nat} {e' w : Nat}
    (hp : update (wake woken parked) e v e' = some w) : e' = e ∧ v = some w := by
  by_cases hne : e' = e
  · subst hne
    rw [update_self] at hp
    exact ⟨rfl, hp⟩
  · rw [update_of_ne hne] at hp
    have hopen := h.isOpen e' w (parked_of_wake hp).1
    exact absurd (card_le_one.mp h.single e' hopen e he) hne

theorem polled {e : Nat} (he : e ∈ ends) {v : Option Nat} (hv : ∀ w, v = some w → slot' = some w ∧ stuck') :
    Waits ends (update (wake woken parked) e v) slot' stuck' where
  single := h.single
  isOpen := fun _ _ hp => (h.eq_of_polled he hp).1 ▸ he
  waits := fun _ w hp => hv w (h.eq_of_polled he hp).2

theorem dropped {e : Nat} (he : e ∈ ends) :
    Waits (ends.erase e) (update (wake woken parked) e none) slot' stuck' where
  single := le_trans card_erase_le h.single
  isOpen := fun _ _ hp => by cases (h.eq_of_polled he hp).2
  waits := fun _ _ hp => by cases (h.eq_of_polled he hp).2

theorem other (hkeep : ∀ w, slot = some w → stuck → woken ≠ some w → slot' = some w ∧ stuck') :
    Waits ends (wake woken parked) slot' stuck' where
  single := h.single
  isOpen := fun e w hp => h.isOpen e w (parked_of_wake hp).1
  waits := by
    intro e w hp
    obtain ⟨hparked, hwoken⟩ := parked_of_wake hp
    obtain ⟨hslot, hstuck⟩ := h.waits e w hparked
    exact hkeep w hslot hstuck hwoken

theorem cancelled (e : Nat) : Waits ends (update parked e none) slot stuck := by
  have hold {e' w : Nat} (hp : update parked e none e' = some w) : parked e' = some w := by
    by_cases hne : e' = e
    · subst hne
      rw [update_self] at hp
      cases hp
    · rwa [update_of_ne hne] at hp
  exact ⟨h.single, fun e' w hp => h.isOpen e' w (hold hp), fun e' w hp => h.waits e' w (hold hp)⟩

end

end Waits

/-- A waiting reader has nothing to read, and there is still a writer. -/
def Pipe.ReaderWaits (s : Pipe) : Prop :=
  Waits s.openReaders s.parkedReaders s.inner.readWaker (s.inner.buf = [] ∧ 0 < s.inner.writers)

/-- A waiting writer has no room, and there is still a reader. -/
def Pipe.WriterWaits (s : Pipe) : Prop :=
  Waits s.openWriters s.parkedWriters s.inner.writeWaker (pipeCap ≤ s.inner.buf.length ∧ 0 < s.inner.readers)

theorem Pipe.waits_step (hs : s.step ev = some s') :
    (s.ReaderWaits → s'.ReaderWaits) ∧ (s.WriterWaits → s'.WriterWaits) := by
  cases ev <;> simp only [step, ite_none_right_eq_some, some.injEq] at hs
  case read e len waker =>
    obtain ⟨he, rfl⟩ := hs
    have hpoll := s.inner.readPoll len waker
    unfold read
    generalize s.inner.pollRead len waker = x at hpoll
    refine ⟨fun h => Waits.polled h he fun w hv => ?_, fun h => Waits.other h fun w hslot hstuck hwoken => ?_⟩
    · cases hpoll with
      | empty | data | eof => cases hv
      | pending hbuf hopen => exact ⟨hv, hbuf, hopen⟩
    · cases hpoll with
      | empty | eof | pending => exact ⟨hslot, hstuck⟩
      | data bs rest hne hbuf => exact absurd hslot hwoken
  case write e bytes waker =>
    obtain ⟨he, rfl⟩ := hs
    have hpoll := s.inner.writePoll bytes waker
    unfold write
    generalize s.inner.pollWrite bytes waker = x at hpoll
    refine ⟨fun h => Waits.other h fun w hslot hstuck hwoken => ?_, fun h => Waits.polled h he fun w hv => ?_⟩
    · cases hpoll with
      | refused => exact ⟨hslot, hstuck⟩
      | stored n hn hle hroom => exact absurd hslot hwoken
      | pending hfull hopen =>
        rw [hstuck.1] at hfull
        exact absurd hfull (by decide)
    · cases hpoll with
      | refused | stored => cases hv
      | pending hfull hopen => exact ⟨hv, hfull, hopen⟩
  case dropReader e =>
    obtain ⟨he, rfl⟩ := hs
    refine ⟨fun h => Waits.dropped h he, fun h => Waits.other h fun w hslot hstuck hwoken => ?_⟩
    unfold PipeInner.dropReader at hwoken ⊢
    by_cases hlast : s.inner.readers - 1 = 0
    · simp only [hlast, if_true] at hwoken
      exact absurd hslot hwoken
    · simp only [hlast, if_false]
      exact ⟨hslot, hstuck.1, Nat.pos_of_ne_zero hlast⟩
  case dropWriter e =>
    obtain ⟨he, rfl⟩ := hs
    refine ⟨fun h => Waits.other h fun w hslot hstuck hwoken => ?_, fun h => Waits.dropped h he⟩
    unfold PipeInner.dropWriter at hwoken ⊢
    by_cases hlast : s.inner.writers - 1 = 0
    · simp only [hlast, if_true] at hwoken
      exact absurd hslot hwoken
    · simp only [hlast, if_false]
      exact ⟨hslot, hstuck.1, Nat.pos_of_ne_zero hlast⟩
  case cancelRead e =>
    cases hs
    exact ⟨fun h => Waits.cancelled h e, id⟩
  case cancelWrite e =>
    cases hs
    exact ⟨id, fun h => Waits.cancelled h e⟩

/-- Over every interleaving of the ends of a pipe: what comes out is a first part of what went in and the rest is in
the buffer, the buffer is bounded, and end of file is only reported when the buffer is empty and all writers are gone.
With one reader no read waits while there is data or no writer, with one writer no write waits while there is room or
no reader. -/
theorem pipe_sound (m k : Nat) {es : List PipeEvent} {s : Pipe} (hrun : exec Pipe.step (Pipe.new m k) es = some s) :
    s.accepted = s.delivered ++ s.inner.buf ∧ s.inner.buf.length ≤ pipeCap ∧
      (∀ e len waker, 0 < len → (s.read e len waker).1 = some [] → s.inner.buf = [] ∧ s.openWriters = ∅) ∧
      (m ≤ 1 → ∀ e w, s.parkedReaders e = some w → s.inner.buf = [] ∧ s.openWriters ≠ ∅) ∧
      (k ≤ 1 → ∀ e w, s.parkedWriters e = some w → pipeCap ≤ s.inner.buf.length ∧ s.openReaders ≠ ∅) := by
  have hsound : s.Sound := exec_preserves (fun s ev s' hs hstep => hs.step hstep) (Pipe.Sound.new m k) hrun
  refine ⟨hsound.fifo, hsound.bounded, ?_, ?_, ?_⟩
  · intro e len waker hlen hread
    have hpoll := s.inner.readPoll len waker
    unfold Pipe.read at hread
    generalize s.inner.pollRead len waker = x at hpoll hread
    cases hpoll with
    | empty hzero => omega
    | data bs rest hne hbuf => exact absurd (some.inj hread) hne
    | eof hbuf hgone => exact ⟨hbuf, card_eq_zero.mp (hsound.writers ▸ hgone)⟩
    | pending hbuf hopen => cases hread
  · intro hm e w hparked
    have hstart : (Pipe.new m k).ReaderWaits := Waits.start (by rw [Pipe.new, card_range]; exact hm)
    have hwaits : s.ReaderWaits := exec_preserves (fun _ _ _ hs hstep => (Pipe.waits_step hstep).1 hs) hstart hrun
    obtain ⟨-, hbuf, hwriters⟩ := hwaits.waits e w hparked
    refine ⟨hbuf, nonempty_iff_ne_empty.mp (card_pos.mp ?_)⟩
    rw [← hsound.writers]
    exact hwriters
  · intro hk e w hparked
    have hstart : (Pipe.new m k).WriterWaits := Waits.start (by rw [Pipe.new, card_range]; exact hk)
    have hwaits : s.WriterWaits := exec_preserves (fun _ _ _ hs hstep => (Pipe.waits_step hstep).2 hs) hstart hrun
    obtain ⟨-, hfull, hreaders⟩ := hwaits.waits e w hparked
    refine ⟨hfull, nonempty_iff_ne_empty.mp (card_pos.mp ?_)⟩
    rw [← hsound.readers]
    exact hreaders

/-- A reader waits, is woken by a write and reads the first of two bytes. -/
theorem pipe_sound_two_bytes :
    ∃ es s, exec Pipe.step (Pipe.new 1 1) es = some s ∧ s.delivered = [1] ∧ s.accepted = s.delivered ++ [2] := by
  have hrun : exec step (new 1 1) [.read 0 1 5, .write 0 [1, 2] 6, .read 0 1 5] = some _ := rfl
  exact ⟨_, _, hrun, rfl, (pipe_sound 1 1 hrun).1⟩

/-- With two readers the second takes the waker slot of the first. A write wakes the second only, and when that one
has read a byte, the first still waits although the buffer is not empty. -/
theorem second_reader_takes_slot :
    ∃ es s, exec Pipe.step (Pipe.new 2 1) es = some s ∧ s.parkedReaders 0 = some 5 ∧ s.inner.buf = [2] :=
  ⟨[.read 0 1 5, .read 1 1 6, .write 0 [1, 2] 7, .read 1 1 6], _, rfl, rfl, rfl⟩

end Ruos
