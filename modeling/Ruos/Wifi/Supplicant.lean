import Ruos.Wifi.Wpa2

/-! `four_way_handshake` of `usb/wifi/mod.rs`, from one call of `recv_frame` to the next, and the other side: an
authenticator as 802.11i describes it, for WPA2-PSK with key-descriptor version 2, not taken from the source. -/
namespace Ruos.Wifi

open Lib

/-- What the handshake is called with: the key, `st.mac` and `bssid`. -/
structure Station where
  pmk : Octets 32
  mac : Octets 6
  bssid : Octets 6

/-- Where `four_way_handshake` stands. -/
inductive Stage
  | awaitM1 (deadline : Nat)
  | awaitM3 (deadline : Nat) (ptk : Ptk)
  | returned (result : Option (Ptk × UInt8 × List UInt8))

/-- The driver in the handshake, with `st.tx_seq`. -/
structure Driver where
  stage : Stage
  txSeq : Nat

/-- `recv_frame` into the buffer of the handshake. -/
def recvFrame (frame : List UInt8) : Option (List UInt8) := if frame = [] then none else some (frame.take 600)

/-- The key frame with which `recv_eapol` returns, if this frame is one. -/
def recvEapol (want mask : Nat) (frame : List UInt8) : Option KeyFrame :=
  (recvFrame frame).bind fun buf => (parseEapolData buf).bind fun payload => (parse payload).bind fun kf =>
    if kf.keyInfo &&& mask = want then some kf else none

def recvM1 : List UInt8 → Option KeyFrame := recvEapol keyInfoAck (keyInfoAck ||| keyInfoMic)

def recvM3 : List UInt8 → Option KeyFrame :=
  recvEapol (keyInfoMic ||| keyInfoEncrypted) (keyInfoMic ||| keyInfoEncrypted)

/-- The message integrity code is put into a frame that `build` made. -/
def patchMic (c : Crypto) (kck : Octets 16) (eapol : List UInt8) : List UInt8 :=
  splice eapol micOffset (eapolMic c kck eapol).1

def message2 (c : Crypto) (ptk : Ptk) (m1 : KeyFrame) (snonce : Octets 32) : List UInt8 :=
  patchMic c ptk.kck
    (build (keyDescVersion2 ||| keyInfoKeyType ||| keyInfoMic) 16 m1.replayCounter snonce rsnIeWpa2Psk)

def message4 (c : Crypto) (ptk : Ptk) (m3 : KeyFrame) : List UInt8 :=
  patchMic c ptk.kck
    (build (keyDescVersion2 ||| keyInfoKeyType ||| keyInfoMic ||| keyInfoSecure) 16 m3.replayCounter (.zero 32) [])

/-- The checks of message 3, with the group key that it delivers. -/
def openM3 (c : Crypto) (ptk : Ptk) (m3 : KeyFrame) : Option (UInt8 × List UInt8) :=
  if m3.raw.length < micOffset + micLen then none
  else if eapolMic c ptk.kck (splice m3.raw micOffset (List.replicate micLen 0)) ≠ m3.mic then none
  else (aesUnwrap c ptk.kek m3.keyData).bind extractGtk

namespace Driver

def returns (d : Driver) (result : Option (Ptk × UInt8 × List UInt8)) : Driver := { d with stage := .returned result }

/-- `next_seq` and `send_data_frame`. -/
def send (st : Station) (d : Driver) (stage : Stage) (eapol : List UInt8) : Driver × List (List UInt8) :=
  (⟨stage, (d.txSeq + 1) &&& 0x0FFF⟩, [buildEapolData st.mac st.bssid eapol (d.txSeq &&& 0x0FFF)])

/-- A turn of the loop of `recv_eapol` at the time `now`, with what the radio delivers, and all that is done before the
next turn. `after` is the time at which waiting for message 3 starts. -/
def poll (c : Crypto) (st : Station) (d : Driver) (now after : Nat) (snonce : Octets 32) (frame : Option (List UInt8)) :
    Driver × List (List UInt8) :=
  match d.stage with
  | .awaitM1 deadline =>
    if now < deadline then
      match frame.bind recvM1 with
      | none => (d, [])
      | some m1 =>
        let ptk := derivePtk c st.pmk st.bssid st.mac m1.nonce snonce
        d.send st (.awaitM3 (after + 3000) ptk) (message2 c ptk m1 snonce)
    else (d.returns none, [])
  | .awaitM3 deadline ptk =>
    if now < deadline then
      match frame.bind recvM3 with
      | none => (d, [])
      | some m3 =>
        match openM3 c ptk m3 with
        | none => (d.returns none, [])
        | some (idx, gtk) => d.send st (.returned (some (ptk, idx, gtk))) (message4 c ptk m3)
    else (d.returns none, [])
  | .returned _ => (d, [])
end Driver

/-- `PRF-n` of the standard: the blocks for the counters from zero on, cut to the length. -/
def prf (c : Crypto) (key label data : List UInt8) (len : Nat) : List UInt8 :=
  ((List.range ((8 * len + 159) / 160 + 1)).flatMap fun i =>
    (c.hmacSha1 key (label ++ [0] ++ data ++ [UInt8.ofNat i])).1).take len

/-- `Min` and `Max` one after the other, the strings being compared as numbers. -/
def ascending {n : Nat} (x y : Octets n) : List UInt8 := if beVal x.1 < beVal y.1 then x.1 ++ y.1 else y.1 ++ x.1

structure Element where
  id : UInt8
  data : List UInt8
  length_le : data.length ≤ 255

def Element.encode (e : Element) : List UInt8 := e.id :: UInt8.ofNat e.data.length :: e.data

def Element.IsGtk (e : Element) : Prop := e.id = 0xDD ∧ e.data.take 4 = [0x00, 0x0F, 0xAC, 0x01]

/-- The association, and the group key that is delivered, between other elements. -/
structure Network where
  pmk : Octets 32
  aa : Octets 6
  spa : Octets 6
  anonce : Octets 32
  gtk : Octets 16
  keyId : Fin 4
  tx : Bool
  before : List Element
  after : List Element
  before_not_gtk : ∀ e ∈ before, ¬ e.IsGtk

namespace Network

def ptk (net : Network) (c : Crypto) (snonce : Octets 32) : Ptk :=
  let p := prf c net.pmk.1 pairwiseLabel (ascending net.aa net.spa ++ ascending net.anonce snonce) 48
  ⟨.copy 16 (p.take 16), .copy 16 ((p.drop 16).take 16), .copy 16 (p.drop 32)⟩

/-- The octet with the key index and the `Tx` bit. -/
def keyIdOctet (net : Network) : UInt8 := UInt8.ofNat (net.keyId.val + if net.tx then 4 else 0)

def gtkKde (net : Network) : List UInt8 := [0xDD, 22, 0x00, 0x0F, 0xAC, 0x01, net.keyIdOctet, 0x00] ++ net.gtk.1

def elements (net : Network) : List UInt8 :=
  net.before.flatMap Element.encode ++ (net.gtkKde ++ net.after.flatMap Element.encode)

def keyData (net : Network) : List UInt8 :=
  let bs := net.elements
  if bs.length % 8 = 0 then bs else bs ++ 0xDD :: List.replicate (7 - bs.length % 8) 0

def blocks (net : Network) : List (Octets 8) :=
  (List.range (net.keyData.length / 8)).map fun i => .copy 8 (slice net.keyData (i * 8) 8)

def wrapped (net : Network) (c : Crypto) (kek : Octets 16) : List UInt8 :=
  let s := KeyWrap.wrap (c.encryptBlock kek) net.blocks
  s.1.1 ++ s.2.flatMap Subtype.val

end Network

structure KeyMessage where
  version : UInt8
  info : Nat
  keyLength : Nat
  replay : Octets 8
  nonce : Octets 32
  iv : Octets 16
  rsc : Octets 8
  reserved : Octets 8
  mic : Octets 16
  data : List UInt8

namespace KeyMessage

def head (k : KeyMessage) : List UInt8 :=
  [k.version, 3] ++ ((beBytes 2 (95 + k.data.length)).1 ++ (2 :: ((beBytes 2 k.info).1 ++ ((beBytes 2 k.keyLength).1 ++
    (k.replay.1 ++ (k.nonce.1 ++ (k.iv.1 ++ (k.rsc.1 ++ (k.reserved.1 ++ (k.mic.1 ++
      (beBytes 2 k.data.length).1))))))))))

def encode (k : KeyMessage) : List UInt8 := k.head ++ k.data

def decode (bs : List UInt8) : Option KeyMessage := do
  let (version, bs) ← Octets.read 1 bs
  let (type, bs) ← Octets.read 1 bs
  let (length, bs) ← Octets.read 2 bs
  let (descriptor, bs) ← Octets.read 1 (bs.take (beVal length.1))
  let (info, bs) ← Octets.read 2 bs
  let (keyLength, bs) ← Octets.read 2 bs
  let (replay, bs) ← Octets.read 8 bs
  let (nonce, bs) ← Octets.read 32 bs
  let (iv, bs) ← Octets.read 16 bs
  let (rsc, bs) ← Octets.read 8 bs
  let (reserved, bs) ← Octets.read 8 bs
  let (mic, bs) ← Octets.read 16 bs
  let (dataLength, data) ← Octets.read 2 bs
  if type.1 = [3] ∧ descriptor.1 = [2] ∧ data.length = beVal dataLength.1 then
    some ⟨version.1.headD 0, beVal info.1, beVal keyLength.1, replay, nonce, iv, rsc, reserved, mic, data⟩
  else none

/-- The integrity code of a message: HMAC-SHA1-128 over the frame with zeros in its place. -/
def micOf (c : Crypto) (kck : Octets 16) (k : KeyMessage) : Octets 16 :=
  Octets.first 16 4 (c.hmacSha1 kck.1 { k with mic := .zero 16 }.encode)

end KeyMessage

/-- What the standard leaves to the access point, chosen anew for each frame: the header, with the QoS control field if it
is a QoS data frame, and the fields that are no part of the key exchange. What follows the frame is ignored. -/
structure Transmission where
  qos : Option (Octets 2)
  flags : UInt8
  duration : Octets 2
  source : Octets 6
  seqControl : Octets 2
  version : UInt8
  replay : Octets 8
  iv : Octets 16
  rsc : Octets 8
  reserved : Octets 8
  keyData1 : List UInt8
  trailer : List UInt8

/-- The header of a data frame from the access point, up to the EAPOL frame. -/
def Transmission.header (t : Transmission) (net : Network) : List UInt8 :=
  [if t.qos.isSome then 0x88 else 0x08, t.flags] ++ (t.duration.1 ++ (net.spa.1 ++ (net.aa.1 ++ (t.source.1 ++
    (t.seqControl.1 ++ (t.qos.elim [] Subtype.val ++ llcSnapEapol))))))

namespace Network

def message1 (net : Network) (t : Transmission) : KeyMessage where
  version := t.version
  info := 0x008A
  keyLength := 16
  replay := t.replay
  nonce := net.anonce
  iv := t.iv
  rsc := t.rsc
  reserved := t.reserved
  mic := .zero 16
  data := t.keyData1

def unsealed3 (net : Network) (c : Crypto) (ptk : Ptk) (t : Transmission) : KeyMessage where
  version := t.version
  info := 0x13CA
  keyLength := 16
  replay := t.replay
  nonce := net.anonce
  iv := t.iv
  rsc := t.rsc
  reserved := t.reserved
  mic := .zero 16
  data := net.wrapped c ptk.kek

def message3 (net : Network) (c : Crypto) (ptk : Ptk) (t : Transmission) : KeyMessage :=
  { net.unsealed3 c ptk t with mic := (net.unsealed3 c ptk t).micOf c ptk.kck }

def frame (net : Network) (t : Transmission) (k : KeyMessage) : List UInt8 := t.header net ++ k.encode

/-- The EAPOL frame in a data frame from the station to this access point. -/
def receive (net : Network) (frame : List UInt8) : Option (List UInt8) := do
  let (control, bs) ← Octets.read 2 frame
  let (_, bs) ← Octets.read 2 bs
  let (receiver, bs) ← Octets.read 6 bs
  let (transmitter, bs) ← Octets.read 6 bs
  let (_, bs) ← Octets.read 6 bs
  let (_, bs) ← Octets.read 2 bs
  let (snap, bs) ← Octets.read 8 bs
  if control.1 = [0x08, 0x01] ∧ receiver = net.aa ∧ transmitter = net.spa ∧ snap.1 = llcSnapEapol then some bs
  else none

end Network

inductive Phase
  | awaitM2
  | awaitM4 (ptk : Ptk)
  | complete (ptk : Ptk)
deriving DecidableEq

/-- The replay counters of the messages 1 and 3 that are outstanding, and whether an integrity check has failed. -/
structure Authenticator where
  phase : Phase
  sent1 : List (Octets 8)
  sent3 : List (Octets 8)
  badMic : Bool

namespace Authenticator

def init : Authenticator := ⟨.awaitM2, [], [], false⟩

def transmit (c : Crypto) (net : Network) (ap : Authenticator) (t : Transmission) :
    Option (Authenticator × List UInt8) :=
  match ap.phase with
  | .awaitM2 => some ({ ap with sent1 := t.replay :: ap.sent1 }, net.frame t (net.message1 t))
  | .awaitM4 ptk => some ({ ap with sent3 := t.replay :: ap.sent3 }, net.frame t (net.message3 c ptk t))
  | .complete _ => none

/-- A message that answers no outstanding one is discarded, and so is one whose integrity check fails. The element of
message 2 has to be that of the association request. -/
def accept (c : Crypto) (net : Network) (ap : Authenticator) (k : KeyMessage) : Authenticator :=
  match ap.phase with
  | .awaitM2 =>
    let ptk := net.ptk c k.nonce
    if k.info = 0x010A ∧ k.replay ∈ ap.sent1 then
      if k.micOf c ptk.kck ≠ k.mic then { ap with badMic := true }
      else if k.data = rsnIeWpa2Psk then { ap with phase := .awaitM4 ptk }
      else ap
    else ap
  | .awaitM4 ptk =>
    if k.info = 0x030A ∧ k.replay ∈ ap.sent3 then
      if k.micOf c ptk.kck ≠ k.mic then { ap with badMic := true } else { ap with phase := .complete ptk }
    else ap
  | .complete _ => ap

def hear (c : Crypto) (net : Network) (ap : Authenticator) (frame : List UInt8) : Authenticator :=
  match (net.receive frame).bind KeyMessage.decode with
  | some k => ap.accept c net k
  | none => ap

end Authenticator
end Ruos.Wifi
