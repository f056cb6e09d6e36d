import Ruos.Lib.Run
import Ruos.Pty.LineDiscipline

/-! Canonical-mode input of one pair, interleaved with reads of its slave: the lines that are typed, and what of them
the slave gets. -/
namespace Ruos.Pty

open Lib List SpscRing PtyPair

variable {τ : Type*}

structure Edited (τ : Type*) where
  lines : List (List (Cell τ))
  current : List (Cell τ)

/-- The effect of one more byte under the settings `t`. There is no kill character among the settings. -/
def Edited.type (e : Edited τ) (t : Termios) (c : Cell τ) : Edited τ :=
  let c := PtyPair.mapInput t c
  if t.signals && c.byte == t.cCc vintr then { e with current := [] }
  else if c.byte == t.cCc verase then { e with current := e.current.dropLast }
  else if c.byte == 10 then ⟨e.lines ++ [e.current ++ [c]], []⟩
  else if c.byte == t.cCc veof then ⟨e.lines ++ [e.current], []⟩
  else { e with current := e.current ++ [c] }

def edited (typed : List (Termios × Cell τ)) : Edited τ := typed.foldl (fun e x => e.type x.1 x.2) ⟨[], []⟩

theorem edited_append (typed : List (Termios × Cell τ)) (t : Termios) (c : Cell τ) :
    edited (typed ++ [(t, c)]) = (edited typed).type t c := by
  simp [edited]

/-- In canonical mode the line buffer holds the line as edited so far, and what is pushed to the ring is the line that
the byte completes, if it does. -/
theorem PtyPair.processInput_edits (foreground : Option Nat) (pair : PtyPair τ) (c : Cell τ)
    (lines : List (List (Cell τ))) (hcanon : pair.termios.canonical) : let r := pair.processInput foreground c
    let e := (Edited.mk lines pair.lineBuffer).type pair.termios c
    r.1.termios = pair.termios ∧ r.1.lineBuffer = e.current ∧
      (e.lines = lines ∧ r.2.1 = [] ∨ e.lines = lines ++ [r.2.1]) := by
  simp only [processInput, Edited.type, hcanon, Bool.not_true, Bool.false_eq_true, if_false]
  generalize mapInput pair.termios c = c
  by_cases hintr : (pair.termios.signals && c.byte == pair.termios.cCc vintr) = true
  · simp [hintr]
  · by_cases herase : (c.byte == pair.termios.cCc verase) = true
    · by_cases hempty : pair.lineBuffer.isEmpty
      · have hnil := isEmpty_iff.mp hempty
        simp [hintr, herase, hnil]
      · simp [hintr, herase, hempty]
    · by_cases hnl : (c.byte == 10) = true
      · simp [hintr, herase, hnl]
      · by_cases heof : (c.byte == pair.termios.cCc veof) = true <;> simp [hintr, herase, hnl, heof]

/-- `draining` holds the bytes of a completed line that `process_input`, which has the lock of the pair, has yet to
push; `typed` and `delivered` record the input bytes, with the settings they met, and what the slave has read. -/
structure Line (τ : Type*) where
  pair : PtyPair τ
  ring : SpscRing τ
  draining : List (Cell τ)
  typed : List (Termios × Cell τ)
  delivered : List (Cell τ)

inductive LineEvent (τ : Type*)
  | input (foreground : Option Nat) (c : Cell τ)
  | push
  | read
  | setTermios (t : Termios)

namespace Line

def start (tag : τ) : Line τ := ⟨.new, .new tag, [], [], []⟩

/-- The reader takes one byte at a time and does not take the lock. -/
def step (s : Line τ) : LineEvent τ → Option (Line τ)
  | .input foreground c =>
    if s.draining.isEmpty then
      let r := s.pair.processInput foreground c
      some { s with pair := r.1, draining := r.2.1, typed := s.typed ++ [(s.pair.termios, c)] }
    else none
  | .push =>
    match s.draining with
    | [] => none
    | c :: rest => some { s with ring := s.ring.push c, draining := rest }
  | .read => s.ring.pop.map fun x => { s with ring := x.2, delivered := s.delivered ++ [x.1] }
  | .setTermios t =>
    if s.draining.isEmpty then some { s with pair := { s.pair with termios := t } } else none

def Canonical (_ : Line τ) : LineEvent τ → Prop
  | .setTermios t => t.canonical
  | _ => True

/-- When a line is completed the ring is full or has room for all of it, and while a line is being pushed the slave
reads only if what is left of the line fits. -/
def Fits (s : Line τ) : LineEvent τ → Prop
  | .input _ c => ∀ line, ((Edited.mk [] s.pair.lineBuffer).type s.pair.termios c).lines = [line] →
      s.ring.contents.length + line.length ≤ spscCap ∨ s.ring.contents.length = spscCap
  | .read => s.draining = [] ∨ s.ring.contents.length + s.draining.length ≤ spscCap
  | _ => True

/-- What the slave has read is the beginning of a sequence of whole completed lines, of which none is repeated or out
of order; between two lines the ring holds the rest of them. -/
def LineWise (s : Line τ) : Prop :=
  ∃ lines : List (List (Cell τ)), lines.Sublist (edited s.typed).lines ∧ s.delivered <+: lines.flatten ∧
    (s.draining = [] → s.delivered ++ s.ring.contents = lines.flatten)

/-- A line being pushed is either accepted to its end or refused to its end. -/
structure Inv (s : Line τ) : Prop where
  canonical : s.pair.termios.canonical
  current : s.pair.lineBuffer = (edited s.typed).current
  whole : ∃ lines : List (List (Cell τ)), lines.Sublist (edited s.typed).lines ∧
    (s.delivered ++ s.ring.contents ++ s.draining = lines.flatten ∧
        s.ring.contents.length + s.draining.length ≤ spscCap ∨
      s.delivered ++ s.ring.contents = lines.flatten ∧ (s.draining = [] ∨ s.ring.contents.length = spscCap))

theorem Inv.start (tag : τ) : (start tag).Inv where
  canonical := Termios.canonical_defaultCooked
  current := rfl
  whole := ⟨[], nil_sublist _, .inr ⟨by simp [Line.start], .inl rfl⟩⟩

variable {s : Line τ}

theorem Inv.lineWise (h : s.Inv) : s.LineWise := by
  obtain ⟨lines, hsub, ⟨hall, -⟩ | ⟨hall, -⟩⟩ := h.whole
  · refine ⟨lines, hsub, ⟨s.ring.contents ++ s.draining, by rw [← append_assoc]; exact hall⟩, fun hd => ?_⟩
    rw [hd, append_nil] at hall
    exact hall
  · exact ⟨lines, hsub, ⟨s.ring.contents, hall⟩, fun _ => hall⟩

theorem Inv.between (h : s.Inv) (hd : s.draining = []) :
    ∃ lines : List (List (Cell τ)), lines.Sublist (edited s.typed).lines ∧
      s.delivered ++ s.ring.contents = lines.flatten := by
  obtain ⟨lines, hsub, ⟨hall, -⟩ | ⟨hall, -⟩⟩ := h.whole
  · rw [hd, append_nil] at hall
    exact ⟨lines, hsub, hall⟩
  · exact ⟨lines, hsub, hall⟩

theorem type_lines (e : Edited τ) (t : Termios) (c : Cell τ) :
    (e.type t c).lines = e.lines ++ ((Edited.mk [] e.current).type t c).lines ∧
      (e.type t c).current = ((Edited.mk [] e.current).type t c).current := by
  simp only [Edited.type]
  repeat' split
  all_goals simp

theorem Inv.input (h : s.Inv) (hd : s.draining = []) (foreground : Option Nat) (c : Cell τ)
    (hfits : s.Fits (.input foreground c)) :
    Inv { s with pair := (s.pair.processInput foreground c).1, draining := (s.pair.processInput foreground c).2.1,
                 typed := s.typed ++ [(s.pair.termios, c)] } := by
  obtain ⟨hterm, hcur, hpush⟩ := s.pair.processInput_edits foreground c [] h.canonical
  obtain ⟨hlines, hcurrent⟩ := type_lines (edited s.typed) s.pair.termios c
  rw [← h.current] at hlines hcurrent
  obtain ⟨lines, hsub, hall⟩ := h.between hd
  refine ⟨?_, ?_, ?_⟩
  · exact hterm.symm ▸ h.canonical
  · rw [edited_append, hcurrent, hcur]
  rw [edited_append, hlines]
  obtain ⟨hnone, hnil⟩ | hline := hpush
  · rw [hnone, hnil, append_nil]
    exact ⟨lines, hsub, .inr ⟨hall, .inl rfl⟩⟩
  · rw [hline]
    rcases hfits _ hline with hroom | hfull
    · exact ⟨lines ++ [_], hsub.append (List.Sublist.refl _), .inl ⟨by simp [hall], hroom⟩⟩
    · exact ⟨lines, hsub.trans (sublist_append_left _ _), .inr ⟨hall, .inr hfull⟩⟩

theorem Inv.push (h : s.Inv) {c : Cell τ} {rest : List (Cell τ)} (hd : s.draining = c :: rest) :
    Inv { s with ring := s.ring.push c, draining := rest } := by
  refine { h with whole := ?_ }
  obtain ⟨lines, hsub, ⟨hall, hroom⟩ | ⟨hall, hfull⟩⟩ := h.whole
  · rw [hd] at hall hroom
    simp only [length_cons] at hroom
    refine ⟨lines, hsub, .inl ⟨?_, ?_⟩⟩
    · rw [← hall, contents_push, if_pos (by omega)]
      simp
    · simp only [contents_push]
      rw [if_pos (by omega), length_append, length_singleton]
      omega
  · have hcap : s.ring.contents.length = spscCap := hfull.resolve_left (by simp [hd])
    have hsame : (s.ring.push c).contents = s.ring.contents := by
      rw [contents_push, if_neg (by omega)]
    exact ⟨lines, hsub, .inr ⟨by rw [hsame]; exact hall, .inr (by rw [hsame]; exact hcap)⟩⟩

theorem Inv.read (h : s.Inv) {x : Cell τ × SpscRing τ} (hpop : s.ring.pop = some x) (hfits : s.Fits .read) :
    Inv { s with ring := x.2, delivered := s.delivered ++ [x.1] } := by
  refine { h with whole := ?_ }
  have hcons := contents_of_pop hpop
  obtain ⟨lines, hsub, ⟨hall, hroom⟩ | ⟨hall, hfull⟩⟩ := h.whole
  · rw [hcons] at hall hroom
    simp only [length_cons] at hroom
    exact ⟨lines, hsub, .inl ⟨by simpa using hall, by simp only; omega⟩⟩
  · have hidle : s.draining = [] := by
      rcases hfull with hd | hcap
      · exact hd
      · rcases hfits with hd | hle
        · exact hd
        · exact length_eq_zero_iff.mp (by omega)
    rw [hcons] at hall
    exact ⟨lines, hsub, .inr ⟨by simpa using hall, .inl hidle⟩⟩

theorem Inv.step {s s' : Line τ} {e : LineEvent τ} (h : s.Inv) (hcanon : s.Canonical e) (hfits : s.Fits e)
    (hs : s.step e = some s') : s'.Inv := by
  cases e with
  | input foreground c =>
    simp only [Line.step] at hs
    split at hs <;> cases hs
    rename_i hd
    exact h.input (isEmpty_iff.mp hd) foreground c hfits
  | push =>
    simp only [Line.step] at hs
    split at hs <;> cases hs
    rename_i c rest hd
    exact h.push hd
  | read =>
    obtain ⟨x, hpop, rfl⟩ := Option.map_eq_some_iff.mp hs
    exact h.read hpop hfits
  | setTermios t =>
    simp only [Line.step] at hs
    split at hs <;> cases hs
    exact { h with canonical := hcanon }

/-- In canonical mode, if every completed line finds the ring full or with room for all of it, the slave reads whole
lines. -/
theorem lines_whole (tag : τ) {es : List (LineEvent τ)} {s : Line τ}
    (hg : Guarded step (fun s e => s.Canonical e ∧ s.Fits e) (start tag) es)
    (he : exec step (start tag) es = some s) : s.LineWise :=
  (exec_invariant (fun _ _ _ h hg hs => h.step hg.1 hg.2 hs) (Inv.start tag) hg he).lineWise

def letter (b : UInt8) : Cell Unit := ⟨b, ()⟩

/-- So many letters have been typed. -/
def typing (n : Nat) : Line Unit :=
  ⟨⟨replicate n (letter 97), replicate n (letter 97), .defaultCooked⟩, .new (), [],
    replicate n (.defaultCooked, letter 97), []⟩

theorem exec_letters (n : Nat) : exec step (start ()) (replicate n (.input none (letter 97))) = some (typing n) := by
  induction n with
  | zero => rfl
  | succ n ih =>
    rw [replicate_succ']
    refine exec_append ih (exec_cons.mpr ⟨typing (n + 1), ?_, rfl⟩)
    simp [typing, step, processInput, mapInput, sendEcho, letter, replicate_succ']

theorem edited_letters (n : Nat) : edited (replicate n (.defaultCooked, letter 97)) = ⟨[], replicate n (letter 97)⟩ := by
  induction n with
  | zero => rfl
  | succ n ih =>
    rw [replicate_succ', edited_append, ih, replicate_succ']
    simp [Edited.type, mapInput, letter]

theorem exec_pushes (s : Line Unit) : exec step s (replicate s.draining.length .push) =
    some { s with ring := s.ring.pushAll s.draining, draining := [] } := by
  obtain ⟨pair, ring, draining, typed, delivered⟩ := s
  induction draining generalizing ring with
  | nil => rfl
  | cons c rest ih => exact exec_cons.mpr ⟨_, rfl, ih (ring.push c)⟩

/-- A line of `spscCap` letters loses its newline: the next line is joined to it. -/
theorem long_line_joined : ∃ es s, Guarded step Canonical (start ()) es ∧ exec step (start ()) es = some s ∧
    ¬ s.LineWise := by
  obtain ⟨pair, hend⟩ : ∃ pair, (typing spscCap).step (.input none (letter 10)) = some ⟨pair, .new (),
      replicate spscCap (letter 97) ++ [letter 10], (typing spscCap).typed ++ [(.defaultCooked, letter 10)], []⟩ := by
    simp [typing, step, processInput, mapInput, letter]
  have hrun := exec_append (exec_append (exec_letters spscCap) (exec_cons.mpr ⟨_, hend, exec_nil _ _⟩)) (exec_pushes _)
  refine ⟨_, _, guarded_of_forall (fun e he s => ?_) _, hrun, ?_⟩
  · simp only [mem_append, mem_replicate, mem_singleton] at he
    rcases he with (⟨-, rfl⟩ | rfl) | ⟨-, rfl⟩ <;> trivial
  have hlines : (edited ((typing spscCap).typed ++ [(.defaultCooked, letter 10)])).lines =
      [replicate spscCap (letter 97) ++ [letter 10]] := by
    rw [edited_append, typing, edited_letters]
    simp [Edited.type, mapInput, letter]
  rintro ⟨lines, hsub, -, hall⟩
  simp only [forall_const, nil_append, contents_pushAll, contents_new] at hall
  have hheld := congrArg length hall
  rw [hlines] at hsub
  -- The ring holds more than no line, and less than the one that was typed.
  have hpos : 0 < spscCap := by decide
  rcases sublist_singleton.mp hsub with rfl | rfl
  · simp at hheld
    omega
  · simp at hheld

theorem lines_whole_newline : ∃ s : Line Unit,
    Guarded step (fun s e => s.Canonical e ∧ s.Fits e) (start ()) [.input none (letter 10), .push, .read] ∧
      exec step (start ()) [.input none (letter 10), .push, .read] = some s ∧ s.delivered = [letter 10] ∧
      s.LineWise := by
  refine ⟨_, ?guarded, rfl, rfl, lines_whole () ?guarded rfl⟩
  refine .cons ⟨trivial, fun line hline => ?_⟩ rfl (.cons ⟨trivial, trivial⟩ rfl (.cons ⟨trivial, .inl rfl⟩ rfl trivial))
  obtain rfl : [letter 10] = line := (cons.inj hline).1
  exact .inl (by decide)

end Line

end Ruos.Pty
