import Ruos.Net.TxRing
import Mathlib.Data.Nat.Bitwise

/-! The transmit queue of the RTL8169 (`net/nic/rtl8169.rs`): the device sends the descriptors it owns in ring order. -/
namespace Ruos.Net.Rtl8169

open Lib List Nat

def own : Nat := 1 <<< 31
def eor : Nat := 1 <<< 30
def fs : Nat := 1 <<< 29
def ls : Nat := 1 <<< 28
def frameLenMask : Nat := 0x3FFF

structure RtlDesc where
  opts1 : Nat
  opts2 : Nat
  addr : Nat
  deriving DecidableEq

def eorOf (i : Nat) : Nat := if i = txSlots - 1 then eor else 0

variable (bufs : Buffers)

def init (mem : Mem) : Tx RtlDesc := Tx.fresh mem fun i => { opts1 := eorOf i, opts2 := 0, addr := bufs.phys i }

/-- The descriptor of a frame of `len` bytes: a single segment, owned by the device. -/
def txDesc (tdt len : Nat) : RtlDesc where
  opts1 := own ||| fs ||| ls ||| eorOf tdt ||| (min len bufSize &&& frameLenMask)
  opts2 := 0
  addr := bufs.phys tdt

/-- A full queue drops the frame, whose bytes still go into the buffer of the slot. -/
def consume (frame : List UInt8) (t : Tx RtlDesc) : Tx RtlDesc :=
  if (t.desc t.tail).opts1 &&& own ≠ 0 then t.fill bufs t.tail (frame.take (min frame.length bufSize))
  else (t.fill bufs t.tail (frame.take (min frame.length bufSize))).publish t.tail (txDesc bufs t.tail frame.length) frame

def frameLen (d : RtlDesc) : Nat := d.opts1 &&& frameLenMask

/-- The device waits at a descriptor that it does not own or has just sent. -/
def send (t : Tx RtlDesc) : Tx RtlDesc :=
  if (t.desc t.head).opts1 &&& own = 0 ∨ t.head ∈ t.inflight then t
  else t.emit (t.mem.read (t.desc t.head).addr (frameLen (t.desc t.head)))
    (if (t.desc t.head).opts1 &&& eor = 0 then t.head + 1 else 0)

def clearOwn (d : RtlDesc) : RtlDesc := { d with opts1 := d.opts1 % 2 ^ 31 }

def step (t : Tx RtlDesc) : TxEvent → Tx RtlDesc
  | .consume frame => consume bufs frame t
  | .send => send t
  | .complete => t.finish clearOwn

/-- A token is not consumed on a frame that is yet to be sent, unless it agrees with it. -/
def Spares (frame : List UInt8) (t : Tx RtlDesc) : Prop :=
  (t.desc t.tail).opts1 &&& own = 0 ∨ t.tail ∈ t.inflight ∨
    frame.take (frameLen (t.desc t.tail)) =
      (t.mem.read (bufs.phys t.tail) (frameLen (t.desc t.tail))).take frame.length

instance (frame : List UInt8) (t : Tx RtlDesc) : Decidable (Spares bufs frame t) :=
  inferInstanceAs (Decidable (_ ∨ _ ∨ _))

section

variable (i : Nat) {n : Nat}

theorem opts1_eq (hn : n ≤ maxFrame) :
    (txDesc bufs i n).opts1 = 2 ^ 28 * (if i = txSlots - 1 then 15 else 11) + n := by
  have hmin : min n bufSize = n := Nat.min_eq_left (by unfold maxFrame at hn; unfold bufSize; omega)
  have hmask : n &&& frameLenMask = n := by
    have hmod := and_two_pow_sub_one_eq_mod n 14
    unfold maxFrame at hn
    rw [mod_eq_of_lt (by omega)] at hmod
    exact hmod
  have hflags : own ||| fs ||| ls ||| eorOf i = 2 ^ 28 * (if i = txSlots - 1 then 15 else 11) := by
    unfold eorOf
    split_ifs <;> decide
  show own ||| fs ||| ls ||| eorOf i ||| (min n bufSize &&& frameLenMask) = _
  rw [hmin, hmask, hflags, two_pow_add_eq_or_of_lt]
  unfold maxFrame at hn
  omega

theorem and_two_pow_eq_zero_iff (x k : Nat) : x &&& 1 <<< k = 0 ↔ x / 2 ^ k % 2 = 0 := by
  rw [one_shiftLeft, and_two_pow, testBit_eq_decide_div_mod_eq]
  by_cases h : x / 2 ^ k % 2 = 1
  · simp [h]
  · have hzero : x / 2 ^ k % 2 = 0 := by omega
    simp [hzero]

theorem own_txDesc (hn : n ≤ maxFrame) : (txDesc bufs i n).opts1 &&& own ≠ 0 := by
  rw [Ne, own, and_two_pow_eq_zero_iff, opts1_eq bufs i hn]
  unfold maxFrame at hn
  split_ifs <;> omega

theorem eor_txDesc (hn : n ≤ maxFrame) : (txDesc bufs i n).opts1 &&& eor = 0 ↔ i ≠ txSlots - 1 := by
  rw [eor, and_two_pow_eq_zero_iff, opts1_eq bufs i hn]
  unfold maxFrame at hn
  split_ifs with h <;> omega

theorem frameLen_txDesc (hn : n ≤ maxFrame) : frameLen (txDesc bufs i n) = n := by
  have hmod := and_two_pow_sub_one_eq_mod (txDesc bufs i n).opts1 14
  rw [opts1_eq bufs i hn] at hmod
  rw [frameLen, opts1_eq bufs i hn]
  unfold maxFrame at hn
  refine Eq.trans hmod ?_
  split_ifs <;> omega

theorem own_clearOwn (d : RtlDesc) : (clearOwn d).opts1 &&& own = 0 := by
  rw [own, and_two_pow_eq_zero_iff]
  show d.opts1 % 2 ^ 31 / 2 ^ 31 % 2 = 0
  omega

end

def chip : Chip RtlDesc where
  busy d := d.opts1 &&& own ≠ 0
  pub := txDesc bufs
  mark := clearOwn
  busy_pub i _ hn := decide_eq_true (own_txDesc bufs i hn)
  busy_mark i n _ := decide_eq_false (not_not.mpr (own_clearOwn (txDesc bufs i n)))

variable {bufs} {t : Tx RtlDesc} {frame : List UInt8} {freed : Nat}

theorem busy_iff (d : RtlDesc) : (chip bufs).busy d = true ↔ d.opts1 &&& own ≠ 0 := decide_eq_true_iff

theorem consume_full (h : (t.desc t.tail).opts1 &&& own ≠ 0) (hframe : frame.length ≤ maxFrame) :
    consume bufs frame t = t.fill bufs t.tail frame := by
  rw [consume, if_pos h, take_min hframe]

theorem consume_free (h : (t.desc t.tail).opts1 &&& own = 0) (hframe : frame.length ≤ maxFrame) :
    consume bufs frame t = (t.fill bufs t.tail frame).publish t.tail ((chip bufs).pub t.tail frame.length) frame := by
  rw [consume, if_neg (not_not.mpr h), take_min hframe]
  rfl

theorem grows_step (bufs : Buffers) (t : Tx RtlDesc) (e : TxEvent) :
    t.wire <+: (step bufs t e).wire ∧ t.accepted <+: (step bufs t e).accepted := by
  cases e with
  | consume frame =>
    rw [step, consume]
    split_ifs
    · exact ⟨prefix_rfl, prefix_rfl⟩
    · exact ⟨prefix_rfl, prefix_append _ _⟩
  | send =>
    rw [step, send]
    split
    · exact ⟨prefix_rfl, prefix_rfl⟩
    · exact ⟨prefix_append _ _, prefix_rfl⟩
  | complete =>
    rw [step, Tx.finish]
    split <;> exact ⟨prefix_rfl, prefix_rfl⟩

def Ordered (bufs : Buffers) (t : Tx RtlDesc) : Prop := ∃ freed, Tracks (chip bufs) bufs t freed

theorem ordered_init (bufs : Buffers) (mem : Mem) : Ordered bufs (init bufs mem) := by
  refine ⟨0, Tracks.fresh fun i => decide_eq_false (not_not.mpr ?_)⟩
  show eorOf i &&& own = 0
  unfold eorOf
  split_ifs <;> decide

theorem oldest (h : Tracks (chip bufs) bufs t freed) (hfull : (t.desc t.tail).opts1 &&& own ≠ 0)
    (hsent : freed = t.wire.length) :
    ∃ g, t.accepted[t.wire.length]? = some g ∧ t.head = t.tail ∧ frameLen (t.desc t.tail) = g.length ∧
      t.mem.read (bufs.phys t.tail) g.length = g := by
  have hwhole := h.busy_tail.mp ((busy_iff _).mpr hfull)
  have hpos : 0 < txSlots := by decide
  have hlt : t.wire.length < t.accepted.length := by omega
  have hg := getElem?_eq_getElem hlt
  have hslot : t.wire.length % txSlots = t.tail := by
    rw [h.tail, hwhole, hsent, add_mod_right]
  have hdesc := h.published _ _ (by omega) hg
  have hstored := h.stored _ _ (Nat.le_refl _) hg
  rw [hslot] at hdesc hstored
  refine ⟨_, hg, h.head.trans hslot, ?_, hstored⟩
  rw [hdesc]
  exact frameLen_txDesc bufs t.tail (h.length_frame hg)

theorem tail_mem_inflight (h : Tracks (chip bufs) bufs t freed) (hfull : (t.desc t.tail).opts1 &&& own ≠ 0) :
    t.tail ∈ t.inflight ↔ freed < t.wire.length := by
  have hwhole := h.busy_tail.mp ((busy_iff _).mpr hfull)
  have htail : t.tail = freed % txSlots := by
    rw [h.tail, hwhole, add_mod_right]
  rw [htail, h.inflight]
  constructor
  · intro hmem
    obtain ⟨k, hk, -⟩ := mem_map.mp hmem
    obtain ⟨hlo, hhi⟩ := mem_range'_1.mp hk
    omega
  · intro hlt
    exact mem_map_of_mem (mem_range'_1.mpr ⟨Nat.le_refl freed, by omega⟩)

theorem ordered_consume (h : Ordered bufs t) (hframe : frame.length ≤ maxFrame) (hspares : Spares bufs frame t) :
    Ordered bufs (consume bufs frame t) := by
  obtain ⟨freed, htracks⟩ := h
  by_cases hfull : (t.desc t.tail).opts1 &&& own = 0
  · rw [consume_free hfull hframe]
    exact ⟨freed, htracks.publish (decide_eq_false (not_not.mpr hfull)) hframe⟩
  · rw [consume_full hfull hframe]
    refine ⟨freed, htracks.fill (htracks.tail ▸ Tracks.slot_lt _) hframe ?_⟩
    intro k g hk hg heq
    have hwhole := htracks.busy_tail.mp ((busy_iff _).mpr hfull)
    have hklt := Tracks.lt_of_getElem? hg
    have hfreed := htracks.freed_le
    -- Of all frames in the ring only the oldest has this slot.
    have hoff : k = freed := by
      rw [htracks.tail, hwhole, add_mod_right] at heq
      exact eq_of_mod_eq (by omega : freed ≤ k) (by omega) (Nat.le_refl freed) (by omega) heq
    have hsent : freed = t.wire.length := by omega
    obtain ⟨g', hg', -, hlen, hstored⟩ := oldest htracks hfull hsent
    have hgg : g' = g := by
      rw [hoff, hsent, hg'] at hg
      exact Option.some.inj hg
    rw [hgg] at hlen hstored
    have hagree := (hspares.resolve_left hfull).resolve_left (by
      rw [tail_mem_inflight htracks hfull]
      omega)
    rw [hlen] at hagree
    exact (Mem.read_write_eq_iff.mpr hagree).trans hstored

theorem send_next (h : Tracks (chip bufs) bufs t freed) (hlt : t.wire.length < t.accepted.length) :
    send t = t.emit (t.mem.read (bufs.phys t.head) t.accepted[t.wire.length].length) ((t.head + 1) % txSlots) := by
  have hf := getElem?_eq_getElem hlt
  have hlen := h.length_frame hf
  have hdesc := h.published _ _ h.freed_le hf
  rw [← h.head] at hdesc
  have hready : ¬ ((t.desc t.head).opts1 &&& own = 0 ∨ t.head ∈ t.inflight) := by
    rintro (hown | hmem)
    · rw [hdesc] at hown
      exact own_txDesc bufs t.head hlen hown
    · exact h.head_mem_inflight hlt hmem
  have hnext : (if (t.desc t.head).opts1 &&& eor = 0 then t.head + 1 else 0) = (t.head + 1) % txSlots := by
    have hhead : t.head < txSlots := h.head ▸ Tracks.slot_lt _
    have heor := eor_txDesc bufs t.head hlen
    rw [hdesc]
    unfold txSlots at hhead heor ⊢
    split_ifs with hzero
    · have := heor.mp hzero
      omega
    · have : t.head = 64 - 1 := not_not.mp (mt heor.mpr hzero)
      omega
  rw [send, if_neg hready, hnext, hdesc]
  show t.emit (t.mem.read (bufs.phys t.head) (frameLen (txDesc bufs t.head _))) _ = _
  rw [frameLen_txDesc bufs t.head hlen]

theorem ordered_send (h : Ordered bufs t) : Ordered bufs (send t) := by
  obtain ⟨freed, htracks⟩ := h
  by_cases hlt : t.wire.length < t.accepted.length
  · have hf := getElem?_eq_getElem hlt
    have hstored := htracks.stored _ _ (Nat.le_refl _) hf
    rw [← htracks.head] at hstored
    rw [send_next htracks hlt, hstored]
    exact ⟨freed, htracks.emit hlt⟩
  · have hle := htracks.length_le
    have hall : t.wire.length = t.accepted.length := by omega
    have htail : t.head = t.tail := by rw [htracks.head, htracks.tail, hall]
    have hwait : (t.desc t.head).opts1 &&& own = 0 ∨ t.head ∈ t.inflight := by
      by_cases hown : (t.desc t.tail).opts1 &&& own = 0
      · exact .inl (htail ▸ hown)
      · right
        have hwhole := htracks.busy_tail.mp ((busy_iff _).mpr hown)
        have hpos : 0 < txSlots := by decide
        rw [htail, tail_mem_inflight htracks hown]
        omega
    rw [send, if_pos hwait]
    exact ⟨freed, htracks⟩

theorem ordered_complete (h : Ordered bufs t) : Ordered bufs (t.finish clearOwn) := by
  obtain ⟨freed, htracks⟩ := h
  exact htracks.complete

def Admits (bufs : Buffers) (t : Tx RtlDesc) : TxEvent → Prop
  | .consume frame => frame.length ≤ maxFrame ∧ Spares bufs frame t
  | _ => True

theorem ordered_step (t : Tx RtlDesc) (e : TxEvent) (h : Ordered bufs t) (hadmits : Admits bufs t e) :
    Ordered bufs (step bufs t e) := by
  cases e with
  | consume frame => exact ordered_consume h hadmits.1 hadmits.2
  | send => exact ordered_send h
  | complete => exact ordered_complete h

theorem send_overwritten (h : Ordered bufs t) (hframe : frame.length ≤ maxFrame) (hspares : ¬ Spares bufs frame t) :
    ¬ (send (consume bufs frame t)).wire <+: (send (consume bufs frame t)).accepted := by
  obtain ⟨freed, htracks⟩ := h
  obtain ⟨hfull, hrest⟩ := not_or.mp hspares
  obtain ⟨hinflight, hagree⟩ := not_or.mp hrest
  have hsent : freed = t.wire.length := by
    rw [tail_mem_inflight htracks hfull] at hinflight
    have hfreed := htracks.freed_le
    omega
  obtain ⟨g, hg, hhead, hlen, hstored⟩ := oldest htracks hfull hsent
  rw [hlen] at hagree
  have hready : ¬ ((t.desc t.head).opts1 &&& own = 0 ∨ t.head ∈ t.inflight) := by
    rw [hhead]
    exact not_or.mpr ⟨hfull, hinflight⟩
  have haddr : (t.desc t.head).addr = bufs.phys t.tail := by
    have hslot := htracks.head.symm.trans hhead
    rw [hhead, ← hslot, htracks.published _ _ (by omega) hg]
    rfl
  rw [consume_full hfull hframe, send]
  rw [if_neg (by exact hready)]
  intro hinitial
  have hlast : t.wire ++ [(t.fill bufs t.tail frame).mem.read (t.desc t.head).addr (frameLen (t.desc t.head))] <+:
      t.accepted := hinitial
  rw [haddr, hhead, hlen] at hlast
  have hget := prefix_iff_getElem?.mp hlast t.wire.length (by simp)
  rw [hg] at hget
  apply hagree
  apply Mem.read_write_eq_iff.mp
  rw [hstored]
  simpa [Tx.fill] using hget.symm

end Ruos.Net.Rtl8169
