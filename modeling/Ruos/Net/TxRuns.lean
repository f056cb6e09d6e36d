import Ruos.Net.E1000
import Ruos.Net.Rtl8169

/-! Whole runs of the transmit queues, with any interleaving of tokens and progress of the device. -/
namespace Ruos.Net

open Lib E1000

variable {bufs : Buffers} {mem : Mem} {es : Nat → TxEvent}

namespace E1000

abbrev run (bufs : Buffers) (mem : Mem) (es : Nat → TxEvent) : Nat → Tx TxDesc :=
  forever (step bufs) (init bufs mem) es

section

variable (hsmall : ∀ n frame, es n = .consume frame → frame.length ≤ maxFrame)
include hsmall

theorem ahead_run {n : Nat} (hroom : ∀ k < n, ∀ frame, es k = .consume frame → HasRoom (run bufs mem es k)) :
    Ahead bufs (run bufs mem es n) := by
  apply forever_invariant ahead_step (ahead_init bufs mem)
  intro k hk
  cases he : es k with
  | consume frame => exact ⟨hsmall k frame he, hroom k hk frame he⟩
  | send | complete => trivial

theorem delivers (hrec : Recurs es .send) (hroom : ∀ n frame, es n = .consume frame → HasRoom (run bufs mem es n)) :
    Delivers (run bufs mem es) := by
  have hahead : ∀ n, Ahead bufs (run bufs mem es n) :=
    fun n => ahead_run hsmall fun k _ => hroom k
  apply delivers_of_send (grows_step bufs) ?_ hrec
  · intro n hlt
    obtain ⟨⟨freed, htracks⟩, hlead⟩ := hahead n
    exact ⟨_, _, send_eq htracks hlt hlead⟩
  · intro n
    obtain ⟨⟨freed, htracks⟩, -⟩ := hahead n
    exact htracks.wire

end

theorem not_delivers_of_stuck {n : Nat} (hstuck : Stuck (run bufs mem es n)) (hlt : (run bufs mem es n).wire.length <
      (run bufs mem es n).accepted.length) : ¬ Delivers (run bufs mem es) := by
  rintro ⟨-, hall⟩
  obtain ⟨m, hm⟩ := hall n
  have hstep : ∀ t e, Stuck t ∧ t.wire = (run bufs mem es n).wire →
      Stuck (step bufs t e) ∧ (step bufs t e).wire = (run bufs mem es n).wire := by
    rintro t e ⟨ht, hwire⟩
    obtain ⟨hs, hw⟩ := ht.step_eq e
    exact ⟨hs, hw.trans hwire⟩
  have hlast := (forever_preserves hstep (Nat.le_max_left n m) ⟨hstuck, rfl⟩).2
  have hgrow : ∀ t e, (run bufs mem es m).wire <+: t.wire →
      (run bufs mem es m).wire <+: (step bufs t e).wire :=
    fun t e h => h.trans (grows_step bufs t e).1
  have hmax := forever_preserves hgrow (Nat.le_max_right n m) List.prefix_rfl
  have hle := (hm.trans hmax).length_le
  rw [hlast] at hle
  omega

theorem hasRoom_of_delivers (hsmall : ∀ n frame, es n = .consume frame → frame.length ≤ maxFrame)
    (h : Delivers (run bufs mem es)) (n : Nat) (frame : List UInt8)
    (he : es n = .consume frame) : HasRoom (run bufs mem es n) := by
  induction n using Nat.strong_induction_on generalizing frame with
  | _ n ih =>
    by_contra hroom
    obtain ⟨hstuck, hlt⟩ := stuck_of_not_hasRoom (ahead_run hsmall ih) (hsmall n frame he) hroom
    have hnext : run bufs mem es (n + 1) =
        consume bufs frame (run bufs mem es n) := by
      rw [run, forever, he, step]
    rw [← hnext] at hstuck hlt
    exact not_delivers_of_stuck hstuck hlt h

end E1000

namespace Rtl8169

abbrev run (bufs : Buffers) (mem : Mem) (es : Nat → TxEvent) : Nat → Tx RtlDesc :=
  forever (step bufs) (init bufs mem) es

section

variable (hsmall : ∀ n frame, es n = .consume frame → frame.length ≤ maxFrame)
include hsmall

theorem ordered_run {n : Nat}
    (hspares : ∀ k < n, ∀ frame, es k = .consume frame → Spares bufs frame (run bufs mem es k)) :
    Ordered bufs (run bufs mem es n) := by
  apply forever_invariant ordered_step (ordered_init bufs mem)
  intro k hk
  cases he : es k with
  | consume frame => exact ⟨hsmall k frame he, hspares k hk frame he⟩
  | send | complete => trivial

theorem delivers (hrec : Recurs es .send)
    (hspares : ∀ n frame, es n = .consume frame → Spares bufs frame (run bufs mem es n)) :
    Delivers (run bufs mem es) := by
  have hordered : ∀ n, Ordered bufs (run bufs mem es n) :=
    fun n => ordered_run hsmall fun k _ => hspares k
  apply delivers_of_send (grows_step bufs) ?_ hrec
  · intro n hlt
    obtain ⟨freed, htracks⟩ := hordered n
    exact ⟨_, _, send_next htracks hlt⟩
  · intro n
    obtain ⟨freed, htracks⟩ := hordered n
    exact htracks.wire

theorem not_delivers_of_overwritten {n : Nat} {frame : List UInt8} (he : es n = .consume frame)
    (hsend : es (n + 1) = .send) (hbefore : ∀ k < n, ∀ f, es k = .consume f → Spares bufs f (run bufs mem es k))
    (hspares : ¬ Spares bufs frame (run bufs mem es n)) : ¬ Delivers (run bufs mem es) := by
  rintro ⟨hinitial, -⟩
  have hnext : run bufs mem es (n + 2) =
      send (consume bufs frame (run bufs mem es n)) := by
    rw [run, forever, forever, he, hsend, step, step]
  have hwrong := send_overwritten (ordered_run hsmall hbefore) (hsmall n frame he) hspares
  rw [← hnext] at hwrong
  exact hwrong (hinitial (n + 2))

end

end Rtl8169

/-- For every interleaving of tokens with the progress of a device that sends again and again: the e1000 queue delivers
exactly if no token is consumed when only the slot before the head is left. The RTL8169 queue delivers if no token is
consumed on a different frame that is yet to be sent, and the first such token followed by a send breaks it. -/
theorem tx_delivers_iff (bufs : Buffers) (mem : Mem) (es : Nat → TxEvent)
    (hsmall : ∀ n frame, es n = .consume frame → frame.length ≤ maxFrame) (hrec : Recurs es .send) :
    (Delivers (forever (E1000.step bufs) (E1000.init bufs mem) es) ↔
      ∀ n frame, es n = .consume frame → E1000.HasRoom (forever (E1000.step bufs) (E1000.init bufs mem) es n)) ∧
    ((∀ n frame, es n = .consume frame →
        Rtl8169.Spares bufs frame (forever (Rtl8169.step bufs) (Rtl8169.init bufs mem) es n)) →
      Delivers (forever (Rtl8169.step bufs) (Rtl8169.init bufs mem) es)) ∧
    ∀ n frame, es n = .consume frame → es (n + 1) = .send → (∀ k < n, ∀ f, es k = .consume f →
        Rtl8169.Spares bufs f (forever (Rtl8169.step bufs) (Rtl8169.init bufs mem) es k)) →
      ¬ Rtl8169.Spares bufs frame (forever (Rtl8169.step bufs) (Rtl8169.init bufs mem) es n) →
      ¬ Delivers (forever (Rtl8169.step bufs) (Rtl8169.init bufs mem) es) := by
  refine ⟨⟨?_, ?_⟩, ?_, ?_⟩
  · intro h
    exact hasRoom_of_delivers hsmall h
  · intro h
    exact delivers hsmall hrec h
  · intro h
    exact Rtl8169.delivers hsmall hrec h
  · intro n frame he hsend hbefore hspares
    exact Rtl8169.not_delivers_of_overwritten hsmall he hsend hbefore hspares

def pages : Buffers where
  phys := fun i => 4096 * i
  apart := by
    intro i j _ _ hne
    omega

/-- So many tokens with one frame and then one with another, before the device starts to send. -/
def burst (count : Nat) (frame last : List UInt8) (n : Nat) : TxEvent :=
  if n < count then .consume frame else if n = count then .consume last else .send

theorem burst_send (count : Nat) (frame last : List UInt8) {n : Nat} (hn : count < n) :
    burst count frame last n = .send := by
  rw [burst, if_neg (by omega), if_neg (by omega)]

theorem recurs_burst (count : Nat) (frame last : List UInt8) : Recurs (burst count frame last) .send :=
  fun n => ⟨n + count + 1, by omega, burst_send count frame last (by omega)⟩

theorem tx_delivers_two_frames :
    Delivers (forever (E1000.step pages) (E1000.init pages fun _ => 0) (burst 1 [1, 2, 3] [4, 5])) ∧
    Delivers (forever (Rtl8169.step pages) (Rtl8169.init pages fun _ => 0) (burst 1 [1, 2, 3] [4, 5])) := by
  have hcases : ∀ {n : Nat} {frame : List UInt8}, burst 1 [1, 2, 3] [4, 5] n = .consume frame →
      n = 0 ∧ frame = [1, 2, 3] ∨ n = 1 ∧ frame = [4, 5] := by
    intro n frame he
    match n with
    | 0 => exact .inl ⟨rfl, (TxEvent.consume.inj he).symm⟩
    | 1 => exact .inr ⟨rfl, (TxEvent.consume.inj he).symm⟩
    | n + 2 =>
      cases he
  have hsmall : ∀ n frame, burst 1 [1, 2, 3] [4, 5] n = .consume frame → frame.length ≤ maxFrame := by
    intro n frame he
    rcases hcases he with ⟨-, rfl⟩ | ⟨-, rfl⟩ <;> decide
  have hall := tx_delivers_iff pages (fun _ => 0) (burst 1 [1, 2, 3] [4, 5]) hsmall (recurs_burst 1 _ _)
  constructor
  · apply hall.1.mpr
    intro n frame he
    rcases hcases he with ⟨rfl, rfl⟩ | ⟨rfl, rfl⟩ <;> decide +kernel
  · apply hall.2.1
    intro n frame he
    rcases hcases he with ⟨rfl, rfl⟩ | ⟨rfl, rfl⟩ <;> decide +kernel

/-- The e1000 with 64 frames queued before it starts. -/
abbrev fullQueue : Tx TxDesc := forever (step pages) (init pages fun _ => 0) (burst 63 [1] [1]) 64

/-- 64 frames before the device starts leave the e1000 with its tail at its head, so that it sends none of them. One more
is dropped by the RTL8169, but its bytes go out in place of those of the first frame. -/
theorem full_queue_fails : ¬ Delivers (forever (E1000.step pages) (E1000.init pages fun _ => 0) (burst 63 [1] [1])) ∧
    ¬ Delivers (forever (Rtl8169.step pages) (Rtl8169.init pages fun _ => 0) (burst 64 [1] [2])) := by
  constructor
  · have hstuck : Stuck fullQueue := ⟨by decide +kernel, by decide +kernel, by decide +kernel⟩
    have hshort : fullQueue.wire.length < fullQueue.accepted.length := by decide +kernel
    exact not_delivers_of_stuck hstuck hshort
  · rintro ⟨hinitial, -⟩
    have hwrong : ¬ (forever (Rtl8169.step pages) (Rtl8169.init pages fun _ => 0) (burst 64 [1] [2]) 66).wire <+:
        (forever (Rtl8169.step pages) (Rtl8169.init pages fun _ => 0) (burst 64 [1] [2]) 66).accepted := by
      decide +kernel
    exact hwrong (hinitial 66)

end Ruos.Net
