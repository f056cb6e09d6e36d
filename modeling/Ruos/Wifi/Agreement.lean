import Ruos.Wifi.Supplicant

/-! What one side writes, the other reads: the keys, the frames, the integrity codes and the key data. -/
namespace Ruos.Wifi

open Lib List Nat KeyMessage Octets Network Transmission

variable {c : Crypto} {net : Network}

theorem prfLoop_eq (key label data : List UInt8) {fuel i left k : Nat} (hfuel : left ≤ fuel) (hk : left ≤ 20 * k) :
    prfLoop c key label data fuel (UInt8.ofNat i) left =
      ((List.range' i k).flatMap fun i => (c.hmacSha1 key (label ++ [0] ++ data ++ [UInt8.ofNat i])).1).take left := by
  induction k generalizing fuel i left with
  | zero =>
    obtain rfl : left = 0 := by omega
    cases fuel <;> simp [prfLoop]
  | succ k ih =>
    cases fuel with
    | zero =>
      obtain rfl : left = 0 := by omega
      simp [prfLoop]
    | succ fuel =>
      by_cases hleft : left = 0
      · simp [prfLoop, hleft]
      · have hnext : UInt8.ofNat i + 1 = UInt8.ofNat (i + 1) := by simp
        have hrest := @ih fuel (i + 1) (left - min 20 left) (by omega) (by omega)
        rw [prfLoop, if_neg hleft, hnext, hrest, range'_succ, flatMap_cons, List.take_append]
        generalize c.hmacSha1 key (label ++ [0] ++ data ++ [UInt8.ofNat i]) = digest
        have hlen := digest.2
        have hsub : left - digest.1.length = left - min 20 left := by omega
        have htake : digest.1.take (min 20 left) = digest.1.take left := by
          rcases Nat.le_total left 20 with h | h
          · rw [Nat.min_eq_right h]
          · rw [Nat.min_eq_left h, take_of_length_le hlen.le, take_of_length_le (hlen.trans_le h)]
        rw [hsub, ← htake]

theorem sha1Prf_eq (key label data : List UInt8) : sha1Prf c key label data 48 = prf c key label data 48 := by
  rw [prf, range_eq_range']
  exact prfLoop_eq key label data (Nat.le_refl 48) (by decide)

theorem length_prf (key label data : List UInt8) : (prf c key label data 48).length = 48 := by
  rw [prf]
  simp

theorem ascending_eq {n : Nat} (x y : Octets n) : (if x.1 < y.1 then x.1 ++ y.1 else y.1 ++ x.1) = ascending x y := by
  exact if_congr (lt_iff_beVal_lt (x.2.trans y.2.symm)) rfl rfl

theorem derivePtk_eq (snonce : Octets 32) :
    derivePtk c net.pmk net.aa net.spa net.anonce snonce = net.ptk c snonce := by
  rw [derivePtk, ptk, ascending_eq, ascending_eq, sha1Prf_eq]
  have hlen := @length_prf c net.pmk.1 pairwiseLabel (ascending net.aa net.spa ++ ascending net.anonce snonce)
  generalize prf c net.pmk.1 pairwiseLabel (ascending net.aa net.spa ++ ascending net.anonce snonce) 48 = p at hlen
  have hlast : slice p 32 16 = p.drop 32 := take_of_length_le (by rw [length_drop, hlen])
  simp only [hlast]
  rfl

@[simp] theorem length_head (k : KeyMessage) : k.head.length = 99 := by simp [KeyMessage.head]

theorem slice_drop {α : Type*} (l : List α) (a off n : Nat) : slice (l.drop a) off n = slice l (a + off) n := by
  rw [slice, drop_drop, slice]

theorem slice_head (k : KeyMessage) (rest : List UInt8) :
    slice (k.head ++ rest) 5 2 = (beBytes 2 k.info).1 ∧ slice (k.head ++ rest) 9 8 = k.replay.1 ∧
      slice (k.head ++ rest) 17 32 = k.nonce.1 ∧ slice (k.head ++ rest) 81 16 = k.mic.1 ∧
      slice (k.head ++ rest) 97 2 = (beBytes 2 k.data.length).1 := by
  refine ⟨?_, ?_, ?_, ?_, ?_⟩ <;>
    simp (disch := decide) only [slice, KeyMessage.head, cons_append, nil_append, append_assoc,
      drop_succ_cons, Octets.drop_append, reduceSub, drop_zero, Octets.take_append]

theorem parse_head (k : KeyMessage) (hinfo : k.info < 2 ^ 16) (rest : List UInt8) : parse (k.head ++ rest) = some
      { keyInfo := k.info, replayCounter := k.replay, nonce := k.nonce, mic := k.mic,
        keyData := if rest.length ≥ k.data.length % 2 ^ 16 then rest.take (k.data.length % 2 ^ 16) else [],
        raw := if rest.length ≥ k.data.length % 2 ^ 16 then k.head ++ rest.take (k.data.length % 2 ^ 16)
          else k.head ++ rest } := by
  obtain ⟨hinfo', hreplay, hnonce, hmic, hlen⟩ := slice_head k rest
  have hp : (k.head ++ rest).length = 99 + rest.length := by simp
  have htype : (k.head ++ rest).getD 1 0 = eapolTypeKey := by simp [KeyMessage.head, eapolTypeKey]
  have hdesc : ((k.head ++ rest).drop 4).getD 0 0 = keyDescTypeRsn := by
    rfl
  have hdata : slice (k.head ++ rest) 99 (k.data.length % 2 ^ 16) = rest.take (k.data.length % 2 ^ 16) := by
    rw [slice, drop_left' (length_head k)]
  have hraw : (k.head ++ rest).take (99 + k.data.length % 2 ^ 16) = k.head ++ rest.take (k.data.length % 2 ^ 16) := by
    rw [← length_head k, take_length_add_append]
  have hkdl : beVal (beBytes 2 k.data.length).1 = k.data.length % 2 ^ 16 := beVal_beBytes 2 _
  have hval : beVal (beBytes 2 k.info).1 = k.info := beVal_beBytes_of_lt hinfo
  have hbody : 99 + rest.length - 4 ≥ 95 + k.data.length % 2 ^ 16 ↔ rest.length ≥ k.data.length % 2 ^ 16 := by omega
  have htotal : 99 + rest.length ≥ 99 + k.data.length % 2 ^ 16 ↔ rest.length ≥ k.data.length % 2 ^ 16 := by omega
  rw [parse, if_neg (by rw [htype, keyFrameMin]; simp)]
  simp only [hdesc, ne_eq, not_true_eq_false, if_false, slice_drop, reduceAdd, hinfo', hreplay, hnonce, hmic, hlen,
    hkdl, hdata, hraw, hval, Octets.copy_val, length_drop, hp, hbody, htotal]

theorem parse_encode (k : KeyMessage) (hinfo : k.info < 2 ^ 16) (hlen : k.data.length < 2 ^ 16) (trailer : List UInt8) :
    parse (k.encode ++ trailer) = some ⟨k.info, k.replay, k.nonce, k.mic, k.data, k.encode⟩ := by
  have hle : (k.data ++ trailer).length ≥ k.data.length := by simp
  rw [encode, append_assoc, parse_head k hinfo, mod_eq_of_lt hlen, if_pos hle, if_pos hle,
    take_left' rfl]

theorem parseEapolData_eq {frame rest : List UInt8} {b : UInt8} {hdr : Nat} (hb : frame.getD 0 0 = b)
    (htype : b &&& 0x0C = 0x08) (hhdr : (if b &&& 0xF0 = 0x80 then 26 else 24) = hdr) (hlen : hdr + 8 ≤ frame.length)
    (hsnap : slice frame hdr 8 = llcSnapEapol) (hrest : frame.drop (hdr + 8) = rest) :
    parseEapolData frame = some rest := by
  have hmin : 24 ≤ hdr := by
    rw [← hhdr]
    split_ifs <;> decide
  have hlong : ¬ (frame.length < 24 + 8 ∨ frame.getD 0 0 &&& 0x0C ≠ 0x08) := by
    rintro (h | h)
    · omega
    · exact h (hb ▸ htype)
  rw [parseEapolData, if_neg hlong, hb]
  simp only [hhdr, hsnap, hrest, ne_eq, not_true_eq_false, or_false]
  exact if_neg (by omega)

/-- The header of a data frame from the access point is skipped, plain or with the QoS control field. -/
theorem parseEapolData_header (t : Transmission) (rest : List UInt8) :
    parseEapolData (t.header net ++ rest) = some rest := by
  obtain ⟨snap, hsnap⟩ : ∃ snap : Octets 8, snap.1 = llcSnapEapol := ⟨⟨llcSnapEapol, rfl⟩, rfl⟩
  cases hq : t.qos with
  | none =>
    have hheader : t.header net ++ rest = 0x08 :: t.flags :: (t.duration.1 ++ (net.spa.1 ++ (net.aa.1 ++
        (t.source.1 ++ (t.seqControl.1 ++ (snap.1 ++ rest)))))) := by
      simp [header, hq, hsnap]
    rw [hheader]
    refine @parseEapolData_eq _ _ 0x08 24 rfl (by decide) (by decide) ?_ ?_ ?_
    · simp
      omega
    · rw [← hsnap]
      simp (disch := decide) only [slice, drop_succ_cons, Octets.drop_append, reduceSub, drop_zero,
        Octets.take_append]
    · simp (disch := decide) only [drop_succ_cons, Octets.drop_append, reduceAdd, reduceSub, drop_zero]
  | some q =>
    have hheader : t.header net ++ rest = 0x88 :: t.flags :: (t.duration.1 ++ (net.spa.1 ++ (net.aa.1 ++
        (t.source.1 ++ (t.seqControl.1 ++ (q.1 ++ (snap.1 ++ rest))))))) := by
      simp [header, hq, hsnap]
    rw [hheader]
    refine @parseEapolData_eq _ _ 0x88 26 rfl (by decide) (by decide) ?_ ?_ ?_
    · simp
      omega
    · rw [← hsnap]
      simp (disch := decide) only [slice, drop_succ_cons, Octets.drop_append, reduceSub, drop_zero,
        Octets.take_append]
    · simp (disch := decide) only [drop_succ_cons, Octets.drop_append, reduceAdd, reduceSub, drop_zero]

theorem length_header_le (t : Transmission) : (t.header net).length ≤ 34 := by
  cases hq : t.qos <;> simp [header, hq, llcSnapEapol]

theorem receive_buildEapolData (eapol : List UInt8) (seq : Nat) :
    net.receive (buildEapolData net.spa net.aa eapol seq) = some eapol := by
  obtain ⟨snap, hsnap⟩ : ∃ snap : Octets 8, snap.1 = llcSnapEapol := ⟨⟨llcSnapEapol, rfl⟩, rfl⟩
  obtain ⟨control, hcontrol⟩ : ∃ x : Octets 2, x.1 = [0x08, 0x01] := ⟨⟨[0x08, 0x01], rfl⟩, rfl⟩
  obtain ⟨seqs, hseqs⟩ : ∃ x : Octets 2, x.1 = leBytes 2 ((seq &&& 0x0FFF) <<< 4) := ⟨⟨_, length_leBytes 2 _⟩, rfl⟩
  have hframe : buildEapolData net.spa net.aa eapol seq = control.1 ++ ((Octets.zero 2).1 ++ (net.aa.1 ++ (net.spa.1 ++
      (net.aa.1 ++ (seqs.1 ++ (snap.1 ++ eapol)))))) := by
    rw [hcontrol, hseqs, hsnap]
    simp [buildEapolData, Octets.zero]
  rw [hframe, receive]
  simp only [Octets.read_append, Option.bind_eq_bind, Option.bind_some]
  exact if_pos ⟨hcontrol, trivial, trivial, hsnap⟩

theorem decode_encode (k : KeyMessage) (hinfo : k.info < 2 ^ 16) (hkey : k.keyLength < 2 ^ 16)
    (hlen : 95 + k.data.length < 2 ^ 16) : KeyMessage.decode k.encode = some k := by
  obtain ⟨version, hversion⟩ : ∃ x : Octets 1, x.1 = [k.version] := ⟨⟨[k.version], rfl⟩, rfl⟩
  obtain ⟨type, htype⟩ : ∃ x : Octets 1, x.1 = [3] := ⟨⟨[3], rfl⟩, rfl⟩
  obtain ⟨descriptor, hdescriptor⟩ : ∃ x : Octets 1, x.1 = [2] := ⟨⟨[2], rfl⟩, rfl⟩
  obtain ⟨body, hbody⟩ : ∃ body, body = descriptor.1 ++ ((beBytes 2 k.info).1 ++ ((beBytes 2 k.keyLength).1 ++
      (k.replay.1 ++ (k.nonce.1 ++ (k.iv.1 ++ (k.rsc.1 ++ (k.reserved.1 ++ (k.mic.1 ++
        ((beBytes 2 k.data.length).1 ++ k.data))))))))) := ⟨_, rfl⟩
  have hlength : body.length = 95 + k.data.length := by
    rw [hbody]
    simp
    omega
  have hframe : k.encode = version.1 ++ (type.1 ++ ((beBytes 2 (95 + k.data.length)).1 ++ body)) := by
    rw [hversion, htype, hbody, hdescriptor]
    simp [KeyMessage.encode, KeyMessage.head]
  have hval : ∀ n, n < 2 ^ 16 → beVal (beBytes 2 n).1 = n := fun n hn => beVal_beBytes_of_lt hn
  rw [hframe]
  iterate 3 refine (read_bind _ _ _).trans ?_
  dsimp only
  rw [hval _ hlen, take_of_length_le hlength.le, hbody]
  iterate 10 refine (read_bind _ _ _).trans ?_
  rw [if_pos ⟨htype, hdescriptor, (hval k.data.length (by omega)).symm⟩, hval _ hinfo, hval _ hkey, hversion]
  rfl

theorem build_eq (info : Nat) (replay : Octets 8) (nonce : Octets 32) (data : List UInt8) :
    build info 16 replay nonce data =
      (KeyMessage.mk 2 info 16 replay nonce (.zero 16) (.zero 8) (.zero 8) (.zero 16) data).encode := by
  simp [build, KeyMessage.encode, KeyMessage.head, Octets.zero, eapolVersion, eapolTypeKey, keyDescTypeRsn]

theorem splice_mic (k : KeyMessage) (mic : Octets 16) :
    splice k.encode micOffset mic.1 = { k with mic := mic }.encode := by
  obtain ⟨front, hfront⟩ : ∃ front : Octets 81, ∀ m : Octets 16,
      { k with mic := m }.encode = front.1 ++ (m.1 ++ ((beBytes 2 k.data.length).1 ++ k.data)) := by
    refine ⟨⟨[k.version, 3] ++ ((beBytes 2 (95 + k.data.length)).1 ++ (2 :: ((beBytes 2 k.info).1 ++
      ((beBytes 2 k.keyLength).1 ++ (k.replay.1 ++ (k.nonce.1 ++ (k.iv.1 ++ (k.rsc.1 ++ k.reserved.1)))))))), ?_⟩, ?_⟩
    · simp
    · simp [KeyMessage.encode, KeyMessage.head]
  have hk := hfront k.mic
  have hoff : micOffset = front.1.length + 0 := by rw [front.2]; rfl
  rw [hk, hfront mic, hoff, splice_append_right, splice]
  simp

theorem eapolMic_eq (kck : Octets 16) (k : KeyMessage) (hmic : k.mic = .zero 16) :
    eapolMic c kck k.encode = k.micOf c kck := by
  have hk : { k with mic := .zero 16 } = k := by rw [← hmic]
  have hlen : ((c.hmacSha1 kck.1 k.encode).1.take 16).length = 16 := by simp
  rw [eapolMic, micOf, hk, copy_of_length hlen]
  rfl

theorem patchMic_build (kck : Octets 16) (info : Nat) (replay : Octets 8) (nonce : Octets 32) (data : List UInt8) :
    ∃ k : KeyMessage, patchMic c kck (build info 16 replay nonce data) = k.encode ∧ k.info = info ∧ k.keyLength = 16 ∧
      k.replay = replay ∧ k.nonce = nonce ∧ k.data = data ∧ k.micOf c kck = k.mic := by
  refine ⟨{ mk 2 info 16 replay nonce (.zero 16) (.zero 8) (.zero 8) (.zero 16) data with
    mic := (mk 2 info 16 replay nonce (.zero 16) (.zero 8) (.zero 8) (.zero 16) data).micOf c kck },
    ?_, rfl, rfl, rfl, rfl, rfl, rfl⟩
  rw [patchMic, build_eq, eapolMic_eq _ _ rfl, splice_mic]

theorem extractLoop_element {e : Element} (hid : e.id ≠ 0) (hgtk : ¬ e.IsGtk) (fuel : Nat) (rest : List UInt8) :
    extractLoop (fuel + 1) (e.encode ++ rest) = extractLoop fuel rest := by
  have hlen : (UInt8.ofNat e.data.length).toNat = e.data.length := by
    have := e.length_le
    rw [UInt8.toNat_ofNat']
    omega
  have htake : (e.data ++ rest).take e.data.length = e.data := take_left' rfl
  have hdrop : (e.data ++ rest).drop e.data.length = rest := drop_left' rfl
  have hother : ¬ (e.id = 0xDD ∧ e.data.length ≥ 7 ∧ e.data.take 3 = [0x00, 0x0F, 0xAC] ∧ e.data.getD 3 0 = 0x01) := by
    rintro ⟨hdd, hlong, houi, htype⟩
    refine hgtk ⟨hdd, ?_⟩
    have hget : e.data[3]? = some (e.data.getD 3 0) := by
      rw [getD_eq_getElem?_getD, getElem?_eq_getElem (by omega)]
      rfl
    rw [take_add_one, houi, hget, htype]
    rfl
  rw [Element.encode, cons_append, cons_append, extractLoop, if_neg hid, hlen,
    if_neg (by simp)]
  simp only [htake, hdrop]
  exact if_neg hother

theorem extractLoop_elements {es : List Element} (hid : ∀ e ∈ es, e.id ≠ 0) (hgtk : ∀ e ∈ es, ¬ e.IsGtk) (fuel : Nat)
    (rest : List UInt8) :
    extractLoop (es.length + fuel) (es.flatMap Element.encode ++ rest) = extractLoop fuel rest := by
  induction es with
  | nil => simp
  | cons e es ih =>
    rw [flatMap_cons, append_assoc, length_cons, Nat.add_right_comm,
      extractLoop_element (hid e mem_cons_self) (hgtk e mem_cons_self)]
    exact ih (fun e he => hid e (mem_cons_of_mem _ he)) fun e he => hgtk e (mem_cons_of_mem _ he)

theorem keyIdOctet_and (i : Fin 4) (tx : Bool) :
    UInt8.ofNat (i.val + if tx then 4 else 0) &&& 0x03 = UInt8.ofNat i.val := by
  revert i tx
  decide

theorem extractLoop_gtkKde (fuel : Nat) (rest : List UInt8) :
    extractLoop (fuel + 1) (net.gtkKde ++ rest) = some (UInt8.ofNat net.keyId.val, net.gtk.1) := by
  have htake : (0x00 :: 0x0F :: 0xAC :: 0x01 :: net.keyIdOctet :: 0x00 :: (net.gtk.1 ++ rest)).take 22 =
      0x00 :: 0x0F :: 0xAC :: 0x01 :: net.keyIdOctet :: 0x00 :: net.gtk.1 := by
    simp
  have hlen : ¬ (0x00 :: 0x0F :: 0xAC :: 0x01 :: net.keyIdOctet :: 0x00 :: (net.gtk.1 ++ rest)).length <
      (22 : UInt8).toNat := by
    simp
  have hcons : net.gtkKde ++ rest =
      0xDD :: 22 :: 0x00 :: 0x0F :: 0xAC :: 0x01 :: net.keyIdOctet :: 0x00 :: (net.gtk.1 ++ rest) := rfl
  rw [hcons, extractLoop, if_neg (by decide), if_neg hlen]
  simp only [show (22 : UInt8).toNat = 22 from rfl, htake]
  rw [if_pos (by simp)]
  simp only [getD_cons_succ, getD_cons_zero, drop_succ_cons, drop_zero]
  rw [keyIdOctet, keyIdOctet_and]

theorem keyData_eq (net : Network) :
    ∃ rest, net.keyData = net.before.flatMap Element.encode ++ (net.gtkKde ++ rest) := by
  simp only [keyData]
  split_ifs
  · exact ⟨net.after.flatMap Element.encode, rfl⟩
  · exact ⟨net.after.flatMap Element.encode ++ 0xDD :: replicate (7 - net.elements.length % 8) 0, by
      simp only [elements, append_assoc]⟩

/-- `extract_gtk` finds the group key, if no element before it has the number of the padding. -/
theorem extractGtk_keyData (hid : ∀ e ∈ net.before, e.id ≠ 0) :
    extractGtk net.keyData = some (UInt8.ofNat net.keyId.val, net.gtk.1) := by
  obtain ⟨rest, hrest⟩ := keyData_eq net
  have hcount : net.before.length ≤ (net.before.flatMap Element.encode).length := by
    induction net.before with
    | nil => exact Nat.le_refl 0
    | cons e es ih =>
      simp only [flatMap_cons, length_append, length_cons, Element.encode]
      omega
  have hfuel : net.keyData.length = net.before.length + (net.keyData.length - net.before.length - 1 + 1) := by
    have : 1 ≤ net.gtkKde.length := by simp [gtkKde]
    rw [hrest]
    simp only [length_append]
    omega
  rw [extractGtk, hfuel, hrest, extractLoop_elements hid net.before_not_gtk, extractLoop_gtkKde]

theorem length_keyData : net.keyData.length % 8 = 0 := by
  simp only [keyData]
  split_ifs with h
  · exact h
  · simp only [length_append, length_cons, length_replicate]
    omega

theorem flatMap_blocks : net.blocks.flatMap Subtype.val = net.keyData := by
  have hblocks : net.blocks = KeyWrap.blocksOf net.keyData := by
    simp [blocks, KeyWrap.blocksOf, pieces, Function.comp_def]
  rw [hblocks, KeyWrap.flatMap_blocksOf length_keyData]

theorem blocks_ne_nil : net.blocks ≠ [] := by
  intro h
  have hnil : net.keyData = [] := by rw [← flatMap_blocks, h]; rfl
  obtain ⟨rest, hrest⟩ := keyData_eq net
  rw [hrest] at hnil
  simp [gtkKde] at hnil

theorem openM3_message3 (hid : ∀ e ∈ net.before, e.id ≠ 0) (ptk : Ptk) (t : Transmission) :
    openM3 c ptk ⟨0x13CA, t.replay, net.anonce, (net.message3 c ptk t).mic, net.wrapped c ptk.kek,
      (net.message3 c ptk t).encode⟩ = some (UInt8.ofNat net.keyId.val, net.gtk.1) := by
  have hlen : ¬ (net.message3 c ptk t).encode.length < micOffset + micLen := by
    simp only [encode, length_append, length_head, micOffset, micLen]
    omega
  have hzero : splice (net.message3 c ptk t).encode micOffset (replicate micLen 0) =
      (net.unsealed3 c ptk t).encode := splice_mic (net.message3 c ptk t) (.zero 16)
  have hmic : eapolMic c ptk.kck (net.unsealed3 c ptk t).encode = (net.message3 c ptk t).mic := eapolMic_eq _ _ rfl
  have hplain : aesUnwrap c ptk.kek (net.wrapped c ptk.kek) = some net.keyData := by
    rw [← @flatMap_blocks net]
    exact aesUnwrap_wrap blocks_ne_nil
  rw [openM3, if_neg hlen, hzero, if_neg (not_not_intro hmic), hplain]
  exact extractGtk_keyData hid

end Ruos.Wifi
