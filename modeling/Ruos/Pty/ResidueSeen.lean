import Ruos.Pty.Residue

/-! Which residues of an earlier session can be seen: the answers of a pair tell its settings, and no sequence of
operations tells a clean pair from a fresh one. -/
namespace Ruos.Pty

open Lib PtyPair List

variable {τ : Type*}

namespace PtyPair

variable {p : PtyPair τ} {f : Option Nat} {tag : τ}

/-- The bytes that the master side has yet to receive once `b` has been typed. -/
def answer (p : PtyPair τ) (f : Option Nat) (b : UInt8) (tag : τ) : List UInt8 :=
  (p.processInput f ⟨b, tag⟩).1.masterOut.map Cell.byte

def echoOf (p : PtyPair τ) (b : UInt8) : List UInt8 :=
  if p.termios.signals && b == p.termios.cCc vintr then [94, 67, 13, 10]
  else if b == p.termios.cCc verase then if p.lineBuffer.isEmpty then [] else [8, 32, 8]
  else if b == 10 then [13, 10]
  else if b == p.termios.cCc veof then []
  else [b]

theorem answer_eq (hout : p.masterOut = []) (b : UInt8) :
    p.answer f b tag = if p.termios.canonical && p.termios.echoes then
      p.echoOf (if p.termios.mapsReturn && b == 13 then 10 else b) else [] := by
  have hmap : mapInput p.termios ⟨b, tag⟩ = ⟨if p.termios.mapsReturn && b == 13 then 10 else b, tag⟩ := by
    unfold mapInput
    split <;> rfl
  unfold answer processInput echoOf
  rw [hmap]
  generalize (if p.termios.mapsReturn && b == 13 then 10 else b) = b
  cases p.termios.canonical with
  | false => simp [hout]
  | true =>
    cases hecho : p.termios.echoes with
    | false | true =>
      simp only [sendEcho, hecho]
      repeat' split
      all_goals simp_all

theorem answer_new (b : UInt8) :
    (new : PtyPair τ).answer f b tag = (new : PtyPair τ).echoOf (if b == 13 then 10 else b) := by
  rw [answer_eq rfl]
  simp [new]

theorem of_letter (hout : p.masterOut = []) (h : p.answer f 120 tag = [120]) :
    p.termios.canonical = true ∧ p.termios.echoes = true := by
  rw [answer_eq hout] at h
  split at h
  · rename_i hboth
    exact Bool.and_eq_true_iff.mp hboth
  · cases h

variable (hout : p.masterOut = []) (hmode : p.termios.canonical = true ∧ p.termios.echoes = true)

include hout hmode

theorem answer_of_mode {b : UInt8} (hb : b ≠ 13) : p.answer f b tag = p.echoOf b := by
  rw [answer_eq hout, hmode.1, hmode.2]
  simp [hb]

theorem of_interrupt (h : p.answer f 3 tag = [94, 67, 13, 10]) :
    p.termios.signals = true ∧ p.termios.cCc vintr = 3 := by
  rw [answer_of_mode hout hmode (by decide), echoOf] at h
  split at h
  · rename_i hsig
    obtain ⟨hsig, hintr⟩ := Bool.and_eq_true_iff.mp hsig
    exact ⟨hsig, (beq_iff_eq.mp hintr).symm⟩
  · repeat' split at h
    all_goals simp at h

section

variable (hintr : p.termios.cCc vintr = 3)
include hintr

theorem of_return (h : p.answer f 13 tag = [13, 10]) : p.termios.mapsReturn = true := by
  by_contra hmap
  rw [answer_eq hout, echoOf] at h
  simp [hintr] at h
  repeat' split at h
  all_goals simp at h

theorem of_erase (h : p.answer f 0x7F tag = [8, 32, 8]) : p.termios.cCc verase = 0x7F := by
  rw [answer_of_mode hout hmode (by decide), echoOf] at h
  simp [hintr] at h
  split at h
  · rename_i her
    exact her.symm
  · repeat' split at h
    all_goals simp at h

theorem lineBuffer_of_erase (herase : p.termios.cCc verase = 0x7F) (h : p.answer f 0x7F tag = []) :
    p.lineBuffer = [] := by
  rw [answer_of_mode hout hmode (by decide), echoOf] at h
  simpa [hintr, herase] using h

theorem of_eof (herase : p.termios.cCc verase = 0x7F) (h : p.answer f 4 tag = []) : p.termios.cCc veof = 4 := by
  rw [answer_of_mode hout hmode (by decide), echoOf] at h
  simp only [hintr, herase] at h
  by_contra hne
  simp [Ne.symm hne] at h

end

end PtyPair

namespace Tty

/-- No sequence of operations tells the two states apart. -/
def Same (s t : Tty τ) : Prop := ∀ ops, s.observe ops = t.observe ops

namespace Same

variable {s t : Tty τ}

theorem step (h : Same s t) (op : TtyOp τ) : Same (s.step op).2 (t.step op).2 := by
  intro ops
  exact (cons.inj (h (op :: ops))).2

theorem input (h : Same s t) : s.ring.contents.map Cell.byte = t.ring.contents.map Cell.byte := by
  have heq := (cons.inj (h [.slaveRead spscCap])).1
  simp only [Tty.step, slaveRead, (SpscRing.popUpTo_contents _ _).1] at heq
  rwa [take_of_length_le s.ring.length_contents_le, take_of_length_le t.ring.length_contents_le] at heq

theorem masterOut (h : Same s t) : s.pair.masterOut.map Cell.byte = t.pair.masterOut.map Cell.byte := by
  induction hs : s.pair.masterOut generalizing s t with
  | nil =>
    have heq := (cons.inj (h [.masterOutputTry])).1
    simp only [Tty.step, hs] at heq
    cases ht : t.pair.masterOut with
    | nil => rfl
    | cons c cs => simp [ht] at heq
  | cons c cs ih =>
    have heq := (cons.inj (h [.masterOutputTry])).1
    simp only [Tty.step, hs] at heq
    cases ht : t.pair.masterOut with
    | nil => simp [ht] at heq
    | cons d ds =>
      have htail := ih (h.step .masterOutputTry) (by simp [Tty.step, hs])
      simp only [Tty.step, ht, drop_succ_cons, drop_zero] at htail
      have hbyte : c.byte = d.byte := by simpa [ht] using heq
      rw [map_cons, map_cons, hbyte, htail]

theorem answer (h : Same s t) (b : UInt8) (tag : τ) :
    s.pair.answer s.foreground b tag = t.pair.answer t.foreground b tag :=
  (h.step (.masterInputPush ⟨b, tag⟩)).masterOut

theorem answer_boot {tag₀ : τ} (h : Same s (boot tag₀)) {b : UInt8} {bs : List UInt8}
    (hb : (PtyPair.new : PtyPair τ).echoOf (if b == 13 then 10 else b) = bs) (tag : τ) :
    s.pair.answer s.foreground b tag = bs := by
  rw [← hb]
  exact (h.answer b tag).trans (answer_new b)

end Same

theorem clean_boot (tag : τ) : (boot tag).Clean := ⟨rfl, rfl, rfl, SpscRing.contents_new tag⟩

theorem Same.erase {s : Tty τ} {tag : τ} (h : Same s (boot tag))
    (hmode : s.pair.termios.canonical = true ∧ s.pair.termios.echoes = true)
    (hintr : s.pair.termios.cCc vintr = 3) : s.pair.termios.cCc verase = 0x7F := by
  have hnext := (h.step (.masterInputPush ⟨120, tag⟩)).step .masterOutputTry
  have hpair : (((boot tag).step (.masterInputPush ⟨120, tag⟩)).2.step .masterOutputTry).2.pair =
      ⟨[], [⟨120, tag⟩], .defaultCooked⟩ := by
    simp [Tty.step, masterInputPush, boot, new, processInput, mapInput, sendEcho]
  have hterm : ((s.step (.masterInputPush ⟨120, tag⟩)).2.step .masterOutputTry).2.pair.termios = s.pair.termios :=
    s.pair.termios_processInput s.foreground ⟨120, tag⟩
  have hout := hnext.masterOut
  have hanswer := hnext.answer 0x7F tag
  rw [hpair] at hout hanswer
  rw [← hterm] at hmode hintr ⊢
  refine of_erase (map_eq_nil_iff.mp hout) hmode hintr (hanswer.trans ?_)
  rw [answer_eq rfl]
  simp [echoOf]

theorem Clean.of_same {s f : Tty τ} (tag : τ) (h : Same s f) (hf : f.Clean) : s.Clean := by
  have hboot : Same s (boot tag) := fun ops => (h ops).trans ((hf.alike (clean_boot tag)).observe ops)
  have hout := map_eq_nil_iff.mp hboot.masterOut
  have hin : s.ring.contents = [] := by
    have heq := hboot.input
    rw [(clean_boot tag).input] at heq
    exact map_eq_nil_iff.mp heq
  have hmode := of_letter hout (hboot.answer_boot (by simp [echoOf, new]) tag)
  obtain ⟨hsig, hintr⟩ := of_interrupt hout hmode (hboot.answer_boot (by simp [echoOf, new]) tag)
  have hret := of_return hout hmode hintr (hboot.answer_boot (by simp [echoOf, new]) tag)
  have herase := hboot.erase hmode hintr
  have hline := lineBuffer_of_erase hout hmode hintr herase (hboot.answer_boot (by simp [echoOf, new]) tag)
  have heof := of_eof hout hmode hintr herase (hboot.answer_boot (by simp [echoOf, new]) tag)
  have hnl : s.pair.termios.mapsNewline = true := by
    have heq := (hboot.step (.slaveWrite [⟨10, tag⟩])).masterOut
    by_contra hno
    simp [Tty.step, processOutput, hout, hno, boot, new] at heq
  refine ⟨hout, hline, ?_, hin⟩
  simp [Termios.settings, hret, hmode, hsig, hnl, hintr, herase, heof]

/-- Two earlier sessions that leave the pair clean cannot be told apart by the next one; a session that does not leave
it clean can be told from one that did nothing. -/
theorem residue_seen_iff (tag : τ) :
    (∀ (s : Tty τ) (session₁ session₂ : List (TtyOp τ)), (s.reclaimed session₁).Clean → (s.reclaimed session₂).Clean →
      ∀ ops, (s.reclaimed session₁).observe ops = (s.reclaimed session₂).observe ops) ∧
    ∀ session : List (TtyOp τ), (∀ ops, ((boot tag).reclaimed session).observe ops =
      ((boot tag).reclaimed []).observe ops) ↔ ((boot tag).reclaimed session).Clean := by
  have hidle : ((boot tag).reclaimed []).Clean := ⟨rfl, rfl, rfl, SpscRing.contents_new tag⟩
  refine ⟨fun s _ _ h₁ h₂ => (h₁.alike h₂).observe, fun session => ⟨fun h => Clean.of_same tag h hidle, fun h => ?_⟩⟩
  exact (h.alike hidle).observe

/-- A session whose output has been collected leaves nothing to see. -/
theorem residue_seen_iff_collected : ((boot ()).reclaimed [.slaveWrite [⟨120, ()⟩], .masterOutputTry]).Clean ∧
      ((boot ()).reclaimed [.slaveWrite [⟨120, ()⟩], .masterOutputTry]).observe [.masterOutputTry] =
        ((boot ()).reclaimed []).observe [.masterOutputTry] := by
  have hclean : ((boot ()).reclaimed [.slaveWrite [⟨120, ()⟩], .masterOutputTry]).Clean :=
    ⟨by decide, rfl, rfl, SpscRing.contents_new ()⟩
  exact ⟨hclean, ((residue_seen_iff ()).2 _).mpr hclean _⟩

/-- Output that the earlier session did not collect is received by the next one. -/
theorem residue_of_output : ((boot ()).reclaimed [.slaveWrite [⟨120, ()⟩]]).observe [.masterOutputTry] ≠
    ((boot ()).reclaimed []).observe [.masterOutputTry] := by
  decide

end Tty

end Ruos.Pty
