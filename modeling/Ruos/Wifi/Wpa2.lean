import Mathlib.Data.Set.Finite.List
import Ruos.Lib.KeyWrap

/-! EAPOL-Key frames and the data frames that carry them (`usb/wifi/eapol.rs` and a part of `usb/wifi/ieee80211.rs`),
and the key derivation, message integrity code and key unwrapping of `usb/wifi/wpa2.rs`. -/
namespace Ruos.Wifi

open Lib

def eapolVersion : UInt8 := 2
def eapolTypeKey : UInt8 := 3
def keyDescTypeRsn : UInt8 := 2

def keyDescVersion2 : Nat := 2

def keyInfoKeyType : Nat := 1 <<< 3
def keyInfoAck : Nat := 1 <<< 7
def keyInfoMic : Nat := 1 <<< 8
def keyInfoSecure : Nat := 1 <<< 9
def keyInfoEncrypted : Nat := 1 <<< 12

def micOffset : Nat := 4 + 77
def micLen : Nat := 16
def keyFrameMin : Nat := 4 + 95

structure KeyFrame where
  keyInfo : Nat
  replayCounter : Octets 8
  nonce : Octets 32
  mic : Octets 16
  keyData : List UInt8
  raw : List UInt8

def parse (p : List UInt8) : Option KeyFrame :=
  if p.length < keyFrameMin ∨ p.getD 1 0 ≠ eapolTypeKey then none
  else
    let b := p.drop 4
    if b.getD 0 0 ≠ keyDescTypeRsn then none
    else
      let kdl := beVal (slice b 93 2)
      let total := 4 + 95 + kdl
      some
        { keyInfo := beVal (slice b 1 2)
          replayCounter := .copy 8 (slice b 5 8)
          nonce := .copy 32 (slice b 13 32)
          mic := .copy 16 (slice b 77 16)
          keyData := if b.length ≥ 95 + kdl then slice b 95 kdl else []
          raw := if p.length ≥ total then p.take total else p }

/-- `build`: the message integrity code is left zero. -/
def build (keyInfo keyLen : Nat) (replayCounter : Octets 8) (nonce : Octets 32) (keyData : List UInt8) : List UInt8 :=
  let bodyLen := 95 + keyData.length
  [eapolVersion, eapolTypeKey] ++ (beBytes 2 bodyLen).1 ++ [keyDescTypeRsn] ++ (beBytes 2 keyInfo).1 ++
    (beBytes 2 keyLen).1 ++ replayCounter.1 ++ nonce.1 ++ List.replicate 16 0 ++ List.replicate 8 0 ++
    List.replicate 8 0 ++ List.replicate 16 0 ++ (beBytes 2 keyData.length).1 ++ keyData

/-- The loop of `extract_gtk`, on what is left of the key data. -/
def extractLoop : (fuel : Nat) → List UInt8 → Option (UInt8 × List UInt8)
  | fuel + 1, id :: len :: rest =>
    if id = 0x00 then none
    else if rest.length < len.toNat then none
    else
      let d := rest.take len.toNat
      if id = 0xDD ∧ d.length ≥ 7 ∧ d.take 3 = [0x00, 0x0F, 0xAC] ∧ d.getD 3 0 = 0x01 then
        some (d.getD 4 0 &&& 0x03, d.drop 6)
      else extractLoop fuel (rest.drop len.toNat)
  | _, _ => none

/-- `extract_gtk`: the index and the bytes of the group key; each turn of the loop takes two bytes at least. -/
def extractGtk (keyData : List UInt8) : Option (UInt8 × List UInt8) := extractLoop keyData.length keyData

def llcSnapEapol : List UInt8 := [0xAA, 0xAA, 0x03, 0x00, 0x00, 0x00, 0x88, 0x8E]

def buildEapolData (sa bssid : Octets 6) (eapol : List UInt8) (seq : Nat) : List UInt8 :=
  ([0x08, 0x01, 0x00, 0x00] : List UInt8) ++ bssid.1 ++ sa.1 ++ bssid.1 ++ leBytes 2 ((seq &&& 0x0FFF) <<< 4) ++ llcSnapEapol ++ eapol

def parseEapolData (frame : List UInt8) : Option (List UInt8) :=
  if frame.length < 24 + 8 ∨ frame.getD 0 0 &&& 0x0C ≠ 0x08 then none
  else
    let hdr := if frame.getD 0 0 &&& 0xF0 = 0x80 then 26 else 24
    if frame.length < hdr + 8 ∨ slice frame hdr 8 ≠ llcSnapEapol then none else some (frame.drop (hdr + 8))

/-- `rsn_ie_wpa2_psk`, the element that the association request carries too. -/
def rsnIeWpa2Psk : List UInt8 :=
  ([48, 20] : List UInt8) ++ leBytes 2 1 ++ [0x00, 0x0F, 0xAC, 0x04] ++ leBytes 2 1 ++ [0x00, 0x0F, 0xAC, 0x04] ++ leBytes 2 1 ++
    [0x00, 0x0F, 0xAC, 0x02] ++ leBytes 2 0

open List Octets KeyWrap

/-- The `hmac`, `sha1` and `aes` crates: HMAC-SHA1 is some function, and decryption inverts encryption. -/
structure Crypto where
  hmacSha1 : (key message : List UInt8) → Octets 20
  encryptBlock : (key block : Octets 16) → Octets 16
  decryptBlock : (key block : Octets 16) → Octets 16
  decrypt_encrypt : ∀ key block, decryptBlock key (encryptBlock key block) = block

structure Ptk where
  kck : Octets 16
  kek : Octets 16
  tk : Octets 16
deriving DecidableEq

/-- The loop of `sha1_prf`, with the number of bytes that are still to be filled. -/
def prfLoop (c : Crypto) (key label data : List UInt8) : (fuel : Nat) → (counter : UInt8) → (left : Nat) → List UInt8
  | 0, _, _ => []
  | fuel + 1, counter, left =>
    if left = 0 then []
    else
      let digest := (c.hmacSha1 key (label ++ [0] ++ data ++ [counter])).1
      digest.take (min 20 left) ++ prfLoop c key label data fuel (counter + 1) (left - min 20 left)

/-- `sha1_prf` into a buffer of so many bytes; each turn of the loop fills one at least. -/
def sha1Prf (c : Crypto) (key label data : List UInt8) (len : Nat) : List UInt8 := prfLoop c key label data len 0 len

def pairwiseLabel : List UInt8 :=
  [0x50, 0x61, 0x69, 0x72, 0x77, 0x69, 0x73, 0x65, 0x20, 0x6B, 0x65, 0x79, 0x20, 0x65, 0x78, 0x70, 0x61, 0x6E, 0x73,
    0x69, 0x6F, 0x6E]

def derivePtk (c : Crypto) (pmk : Octets 32) (aa spa : Octets 6) (anonce snonce : Octets 32) : Ptk :=
  let macs := if aa.1 < spa.1 then aa.1 ++ spa.1 else spa.1 ++ aa.1
  let nonces := if anonce.1 < snonce.1 then anonce.1 ++ snonce.1 else snonce.1 ++ anonce.1
  let ptk := sha1Prf c pmk.1 pairwiseLabel (macs ++ nonces) 48
  ⟨.copy 16 (slice ptk 0 16), .copy 16 (slice ptk 16 16), .copy 16 (slice ptk 32 16)⟩

def eapolMic (c : Crypto) (kck : Octets 16) (eapol : List UInt8) : Octets 16 :=
  .copy 16 ((c.hmacSha1 kck.1 eapol).1.take 16)

/-- The body of the loops of `aes_unwrap`, on the register `r[i]`. -/
def unwrapStep (c : Crypto) (kek : Octets 16) (t : Nat) (s : KeyWrap.Registers) (i : Nat) : KeyWrap.Registers :=
  let block := c.decryptBlock kek ((s.1.xor (beBytes 8 t)).append (s.2.getD i (.zero 8)))
  (Octets.first 8 8 block, s.2.set i (Octets.last 8 8 block))

def aesUnwrap (c : Crypto) (kek : Octets 16) (wrapped : List UInt8) : Option (List UInt8) :=
  if wrapped.length < 16 ∨ wrapped.length % 8 ≠ 0 then none
  else
    let n := wrapped.length / 8 - 1
    let a := Octets.copy 8 (slice wrapped 0 8)
    let r := (List.range n).map fun i => Octets.copy 8 (slice wrapped (8 * (i + 1)) 8)
    let s := (List.range 6).reverse.foldl
      (fun s j => (List.range n).reverse.foldl (fun s i => unwrapStep c kek (n * j + (i + 1)) s i) s) (a, r)
    if s.1 ≠ ⟨List.replicate 8 0xA6, rfl⟩ then none else some (s.2.flatMap Subtype.val)

variable {c : Crypto} {kek : Octets 16}

theorem registers_getD {r : List (Octets 8)} {i : Nat} (hi : i < r.length) (d : Octets 8) :
    r.set i (r.getD i d) = r ∧ ∀ x, (r.set i x).getD i d = x := by
  simp [hi]

theorem unwrapStep_wrapStep (t : Nat) (s : KeyWrap.Registers) (i : Nat) (hi : i < s.2.length) :
    unwrapStep c kek t (KeyWrap.wrapStep (c.encryptBlock kek) t s i) i = s := by
  simp only [unwrapStep, wrapStep, registers_getD hi, xor_xor_cancel, set_set]
  rw [append_first_last, c.decrypt_encrypt, first_append, last_append, (registers_getD hi _).1]

/-- `aes_unwrap` cuts its input into registers. -/
theorem registers_eq {w : List UInt8} {n : Nat} (h : w.length = (n + 1) * 8) :
    copy 8 (slice w 0 8) :: ((range n).map fun i => copy 8 (slice w (8 * (i + 1)) 8)) = blocksOf w := by
  rw [blocksOf, pieces, h, Nat.mul_div_cancel _ (by decide), range_succ_eq_map]
  simp [Function.comp_def, Nat.mul_comm]

theorem aesUnwrap_wrap {blocks : List (Octets 8)} (hne : blocks ≠ []) :
    aesUnwrap c kek (bytes (wrap (c.encryptBlock kek) blocks)) = some (blocks.flatMap Subtype.val) := by
  have hundo := @undo_wrap (c.encryptBlock kek) (unwrapStep c kek) unwrapStep_wrapStep blocks
  have hlen : (wrap (c.encryptBlock kek) blocks).2.length = blocks.length := length_wrapRounds _ _
  have hpos := length_pos_iff.mpr hne
  generalize wrap (c.encryptBlock kek) blocks = s at hundo hlen
  obtain ⟨a, r⟩ := s
  have hblocks : blocksOf (bytes (a, r)) = a :: r := blocksOf_flatMap (a :: r)
  have hbytes : (bytes (a, r)).length = (r.length + 1) * 8 := length_bytes (a, r)
  obtain ⟨ha, hr⟩ := cons.inj ((registers_eq hbytes).trans hblocks)
  have hn : (bytes (a, r)).length / 8 - 1 = r.length := by omega
  have hle : 16 ≤ (bytes (a, r)).length := by
    rw [hbytes, hlen]
    omega
  rw [aesUnwrap, if_neg (by omega)]
  simp only [hn, ha, hr]
  rw [hlen, hundo]
  rfl

theorem encrypt_decrypt (block : Octets 16) : c.encryptBlock kek (c.decryptBlock kek block) = block := by
  have hbyte : Finite UInt8 := Finite.of_injective UInt8.toFin fun _ _ h => UInt8.toFin_inj.mp h
  have hfinite : Finite (Octets 16) := (finite_length_eq UInt8 16).to_subtype
  have hinj : Function.Injective (c.encryptBlock kek) := Function.LeftInverse.injective (c.decrypt_encrypt kek)
  obtain ⟨plain, rfl⟩ := Finite.surjective_of_injective hinj block
  rw [c.decrypt_encrypt]

theorem wrapStep_unwrapStep (t : Nat) (s : Registers) (i : Nat) (hi : i < s.2.length) :
    wrapStep (c.encryptBlock kek) t (unwrapStep c kek t s i) i = s := by
  simp only [unwrapStep, wrapStep, registers_getD hi, append_first_last, encrypt_decrypt, first_append, last_append,
    xor_xor_cancel, set_set]

theorem eq_of_aesUnwrap {w p : List UInt8} (h : aesUnwrap c kek w = some p) :
    ∃ blocks, blocks ≠ [] ∧ w = bytes (wrap (c.encryptBlock kek) blocks) ∧ p = blocks.flatMap Subtype.val := by
  unfold aesUnwrap at h
  split_ifs at h with hbad
  dsimp only at h
  have hw : w.length = (w.length / 8 - 1 + 1) * 8 := by omega
  have hpos : 0 < w.length / 8 - 1 := by omega
  have hregisters := registers_eq hw
  generalize w.length / 8 - 1 = n at *
  generalize hr : (range n).map (fun i => copy 8 (slice w (8 * (i + 1)) 8)) = r at *
  have hn : r.length = n := by rw [← hr, length_map, length_range]
  have hlen : ∀ t s i, (unwrapStep c kek t s i).2.length = s.2.length := fun _ _ _ => length_set ..
  have hredo := @redo_wrap _ _ n (copy 8 (slice w 0 8), r) hlen (@wrapStep_unwrapStep c kek) hn
  generalize (range 6).reverse.foldl _ (copy 8 (slice w 0 8), r) = s at h hredo
  split_ifs at h with hs
  obtain ⟨a, blocks⟩ := s
  obtain rfl : a = initial := not_not.mp hs
  have hblocks : blocks.length = n := by
    rw [← hn, ← @length_wrapRounds (c.encryptBlock kek) n (initial, blocks), hredo]
  refine ⟨blocks, length_pos_iff.mp (hblocks ▸ hpos), ?_, (Option.some.inj h).symm⟩
  rw [wrap, hblocks, hredo, bytes]
  calc w = (blocksOf w).flatMap Subtype.val := (flatMap_blocksOf (by omega)).symm
    _ = _ := by rw [← hregisters, flatMap_cons]

/-- The key wrap of RFC 3394. -/
def aesWrap (c : Crypto) (kek : Octets 16) (data : List UInt8) : List UInt8 :=
  bytes (wrap (c.encryptBlock kek) (blocksOf data))

theorem aesUnwrap_eq_some_iff (c : Crypto) (kek : Octets 16) (w p : List UInt8) :
    aesUnwrap c kek w = some p ↔ (8 ≤ p.length ∧ p.length % 8 = 0) ∧ w = aesWrap c kek p := by
  constructor
  · intro h
    obtain ⟨blocks, hne, rfl, rfl⟩ := eq_of_aesUnwrap h
    have hlen := length_flatten_of_length (length_of_mem_vals blocks)
    have hpos := length_pos_iff.mpr hne
    rw [← flatMap_def, length_map] at hlen
    exact ⟨by omega, by rw [aesWrap, blocksOf_flatMap]⟩
  · rintro ⟨⟨hle, hmod⟩, rfl⟩
    have hdata := flatMap_blocksOf hmod
    have hne : blocksOf p ≠ [] := by
      intro hnil
      rw [hnil] at hdata
      rw [← hdata] at hle
      cases hle
    rw [aesWrap, aesUnwrap_wrap hne, hdata]

end Ruos.Wifi
