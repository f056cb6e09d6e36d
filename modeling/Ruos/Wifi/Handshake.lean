import Mathlib
import Ruos.Wifi.Agreement
import Ruos.Lib.Run

/-! The station and the access point with the air between them, and what each makes of the frames of the other. -/
namespace Ruos.Wifi

open Lib List Option KeyMessage Authenticator

/-- A frame on its way to the station: of its access point, or of anybody else. -/
inductive Air
  | fromAp (frame : List UInt8)
  | other (frame : List UInt8)
deriving DecidableEq

def Air.frame : Air → List UInt8
  | .fromAp f => f
  | .other f => f

structure World where
  sta : Driver
  ap : Authenticator
  up : List (List UInt8)
  down : List Air

/-- What can happen next. `poll` is a turn of the loop of the station in which a frame arrives, `idle` one in which none
does. -/
inductive Event
  | transmit (t : Transmission)
  | other (frame : List UInt8)
  | hear
  | poll (now after : Nat) (snonce : Octets 32)
  | idle (now : Nat)

def Network.station (net : Network) : Station := ⟨net.pmk, net.spa, net.aa⟩

namespace World

def init (start txSeq : Nat) : World := ⟨⟨.awaitM1 (start + 3000), txSeq⟩, .init, [], []⟩

/-- Nothing that is sent is lost. -/
def step (c : Crypto) (net : Network) (w : World) : Event → Option World
  | .transmit t =>
    (w.ap.transmit c net t).map fun r => { w with ap := r.1, down := w.down ++ [.fromAp (r.2 ++ t.trailer)] }
  | .other frame => some { w with down := w.down ++ [.other frame] }
  | .hear =>
    match w.up with
    | [] => none
    | frame :: up => some { w with ap := w.ap.hear c net frame, up := up }
  | .poll now after snonce =>
    match w.down with
    | [] => none
    | x :: down =>
      let r := w.sta.poll c net.station now after snonce (some x.frame)
      some { w with sta := r.1, up := w.up ++ r.2, down := down }
  | .idle now =>
    let r := w.sta.poll c net.station now now (.zero 32) none
    some { w with sta := r.1, up := w.up ++ r.2 }

end World

def Stage.InTime (now : Nat) : Stage → Prop
  | .awaitM1 deadline => now < deadline
  | .awaitM3 deadline _ => now < deadline
  | .returned _ => True

def Stage.takes (frame : List UInt8) : Stage → Bool
  | .awaitM1 _ => (recvM1 frame).isSome
  | .awaitM3 _ _ => (recvM3 frame).isSome
  | .returned _ => false

instance Stage.InTime.decidable (now : Nat) : ∀ stage : Stage, Decidable (stage.InTime now)
  | .awaitM1 deadline => inferInstanceAs (Decidable (now < deadline))
  | .awaitM3 deadline _ => inferInstanceAs (Decidable (now < deadline))
  | .returned _ => isTrue trivial

def Phase.Fits (c : Crypto) (net : Network) (t : Transmission) : Phase → Prop
  | .awaitM4 ptk => (net.frame t (net.message3 c ptk t)).length ≤ 600
  | _ => True

instance Phase.Fits.decidable (c : Crypto) (net : Network) (t : Transmission) : ∀ p : Phase, Decidable (p.Fits c net t)
  | .awaitM4 ptk => inferInstanceAs (Decidable ((net.frame t (net.message3 c ptk t)).length ≤ 600))
  | .awaitM2 => isTrue trivial
  | .complete _ => isTrue trivial

/-- Frames arrive in time and message 3 fits; and no frame of anybody else is taken for the message waited for. -/
def World.Fair (c : Crypto) (net : Network) (w : World) : Event → Prop
  | .transmit t => w.ap.phase.Fits c net t
  | .other _ => True
  | .hear => True
  | .poll now _ _ => w.sta.stage.InTime now ∧ ∀ x ∈ w.down.head?, x = .other x.frame → w.sta.stage.takes x.frame = false
  | .idle now => w.sta.stage.InTime now

instance World.Fair.decidable (c : Crypto) (net : Network) (w : World) : ∀ e : Event, Decidable (w.Fair c net e)
  | .transmit t => inferInstanceAs (Decidable (w.ap.phase.Fits c net t))
  | .other _ => isTrue trivial
  | .hear => isTrue trivial
  | .poll now _ _ => inferInstanceAs (Decidable (w.sta.stage.InTime now ∧
      ∀ x ∈ w.down.head?, x = .other x.frame → w.sta.stage.takes x.frame = false))
  | .idle now => inferInstanceAs (Decidable (w.sta.stage.InTime now))

variable {c : Crypto} {net : Network}

theorem recvEapol_frame (want mask : Nat) (t : Transmission) (k : KeyMessage) (rest : List UInt8) :
    recvEapol want mask (t.header net ++ (k.head ++ rest)) =
      (parse (k.head ++ rest.take (600 - ((t.header net).length + 99)))).bind fun kf =>
        if kf.keyInfo &&& mask = want then some kf else none := by
  have hheader := @length_header_le net t
  have hne : t.header net ++ (k.head ++ rest) ≠ [] := by
    intro h
    have := congrArg length h
    simp at this
  have htake : (t.header net ++ (k.head ++ rest)).take 600 =
      t.header net ++ (k.head ++ rest.take (600 - ((t.header net).length + 99))) := by
    rw [take_append, take_of_length_le (by omega), take_append,
      take_of_length_le (by rw [length_head]; omega), length_head, Nat.sub_sub]
  rw [recvEapol, recvFrame, if_neg hne, htake, bind_some, parseEapolData_header, bind_some]

theorem recvM1_message1 (t : Transmission) :
    ∃ m1, recvM1 (net.frame t (net.message1 t) ++ t.trailer) = some m1 ∧ m1.replayCounter = t.replay ∧
      m1.nonce = net.anonce := by
  have hbits : 0x008A &&& (keyInfoAck ||| keyInfoMic) = keyInfoAck := by decide
  rw [Network.frame, encode, append_assoc, append_assoc, recvM1, recvEapol_frame,
    parse_head _ (by decide : 0x008A < 2 ^ 16)]
  exact ⟨_, if_pos hbits, rfl, rfl⟩

theorem recvM3_message1 (t : Transmission) : recvM3 (net.frame t (net.message1 t) ++ t.trailer) = none := by
  have hbits : 0x008A &&& (keyInfoMic ||| keyInfoEncrypted) ≠ keyInfoMic ||| keyInfoEncrypted := by decide
  rw [Network.frame, encode, append_assoc, append_assoc, recvM3, recvEapol_frame,
    parse_head _ (by decide : 0x008A < 2 ^ 16)]
  exact if_neg hbits

theorem recvM3_message3 (ptk : Ptk) (t : Transmission) (hfits : (net.frame t (net.message3 c ptk t)).length ≤ 600) :
    recvM3 (net.frame t (net.message3 c ptk t) ++ t.trailer) = some ⟨0x13CA, t.replay, net.anonce,
      (net.message3 c ptk t).mic, net.wrapped c ptk.kek, (net.message3 c ptk t).encode⟩ := by
  have hlen : (net.message3 c ptk t).data.length ≤ 600 - ((t.header net).length + 99) := by
    simp only [Network.frame, encode, length_append, length_head] at hfits
    omega
  have hbits : 0x13CA &&& (keyInfoMic ||| keyInfoEncrypted) = keyInfoMic ||| keyInfoEncrypted := by decide
  rw [Network.frame, encode, append_assoc, append_assoc, recvM3, recvEapol_frame, take_append,
    take_of_length_le hlen, ← append_assoc, ← encode,
    parse_encode _ (by decide : 0x13CA < 2 ^ 16) (by omega)]
  exact if_pos hbits

variable {ap : Authenticator} {seq : Nat}

theorem hear_eq {k : KeyMessage} {eapol : List UInt8} (heq : eapol = k.encode) (hinfo : k.info < 2 ^ 16)
    (hkey : k.keyLength = 16) (hlen : 95 + k.data.length < 2 ^ 16) :
    ap.hear c net (buildEapolData net.spa net.aa eapol seq) = ap.accept c net k := by
  rw [hear, receive_buildEapolData, bind_some, heq, decode_encode k hinfo (by omega) hlen]

theorem hear_message2 (snonce : Octets 32) {m1 : KeyFrame} (hphase : ap.phase = .awaitM2)
    (hreplay : m1.replayCounter ∈ ap.sent1) :
    ap.hear c net (buildEapolData net.spa net.aa (message2 c (net.ptk c snonce) m1 snonce) seq) =
      { ap with phase := .awaitM4 (net.ptk c snonce) } := by
  obtain ⟨k, hk, hinfo, hkey, hrep, hnonce, hdata, hmic⟩ := @patchMic_build c (net.ptk c snonce).kck
    (keyDescVersion2 ||| keyInfoKeyType ||| keyInfoMic) m1.replayCounter snonce rsnIeWpa2Psk
  rw [message2, hear_eq hk (by rw [hinfo]; decide) hkey (by rw [hdata]; decide), accept, hphase]
  simp only [hnonce]
  rw [if_pos ⟨hinfo, hrep ▸ hreplay⟩, if_neg (not_not_intro hmic), if_pos hdata]

theorem hear_message4 {ptk : Ptk} {m3 : KeyFrame} (hphase : ap.phase = .awaitM4 ptk)
    (hreplay : m3.replayCounter ∈ ap.sent3) :
    ap.hear c net (buildEapolData net.spa net.aa (message4 c ptk m3) seq) = { ap with phase := .complete ptk } := by
  obtain ⟨k, hk, hinfo, hkey, hrep, -, hdata, hmic⟩ := @patchMic_build c ptk.kck
    (keyDescVersion2 ||| keyInfoKeyType ||| keyInfoMic ||| keyInfoSecure) m3.replayCounter (.zero 32) []
  rw [message4, hear_eq hk (by rw [hinfo]; decide) hkey (by rw [hdata]; decide), accept, hphase]
  simp only
  rw [if_pos ⟨hinfo, hrep ▸ hreplay⟩, if_neg (not_not_intro hmic)]

end Ruos.Wifi
