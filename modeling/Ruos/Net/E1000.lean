import Ruos.Net.TxRing

/-! The transmit queue of the e1000 (`net/nic/e1000.rs`): the device sends from its head register up to the tail. -/
namespace Ruos.Net.E1000

open Lib List

def txcmdEop : Nat := 1 <<< 0
def txcmdIfcs : Nat := 1 <<< 1
def txcmdRs : Nat := 1 <<< 3
def txstatusDd : Nat := 1 <<< 0

structure TxDesc where
  addr : Nat
  length : Nat
  cso : Nat
  cmd : Nat
  status : Nat
  css : Nat
  special : Nat
  deriving DecidableEq

variable (bufs : Buffers)

/-- The ring as `init` leaves it: all slots look complete. -/
def init (mem : Mem) : Tx TxDesc :=
  Tx.fresh mem fun i =>
    { addr := bufs.phys i, length := 0, cso := 0, cmd := 0, status := txstatusDd, css := 0, special := 0 }

def txDesc (tdt len : Nat) : TxDesc where
  addr := bufs.phys tdt
  length := min len bufSize % 2 ^ 16
  cso := 0
  cmd := txcmdEop ||| txcmdIfcs ||| txcmdRs
  status := 0
  css := 0
  special := 0

/-- A full queue drops the frame, whose bytes still go into the buffer of the slot. -/
def consume (frame : List UInt8) (t : Tx TxDesc) : Tx TxDesc :=
  if (t.desc t.tail).status &&& txstatusDd = 0 then t.fill bufs t.tail frame
  else (t.fill bufs t.tail (frame.take (min frame.length bufSize))).publish t.tail (txDesc bufs t.tail frame.length) frame

def send (t : Tx TxDesc) : Tx TxDesc :=
  if t.head = t.tail then t
  else t.emit (t.mem.read (t.desc t.head).addr (t.desc t.head).length) ((t.head + 1) % txSlots)

/-- The device reports the status of a descriptor that asks for it. -/
def setDone (d : TxDesc) : TxDesc :=
  if d.cmd &&& txcmdRs = 0 then d else { d with status := d.status ||| txstatusDd }

def step (t : Tx TxDesc) : TxEvent → Tx TxDesc
  | .consume frame => consume bufs frame t
  | .send => send t
  | .complete => t.finish setDone

/-- A token is not consumed when the slot before the head is the only one left. -/
def HasRoom (t : Tx TxDesc) : Prop :=
  ¬ ((t.tail + 1) % txSlots = t.head ∧ (t.desc t.tail).status &&& txstatusDd ≠ 0)

instance (t : Tx TxDesc) : Decidable (HasRoom t) := inferInstanceAs (Decidable (¬ _))

theorem status_setDone (i n : Nat) : (setDone (txDesc bufs i n)).status = 0 ||| txstatusDd := by
  have hrs : (txcmdEop ||| txcmdIfcs ||| txcmdRs) &&& txcmdRs ≠ 0 := by decide
  exact congrArg TxDesc.status (if_neg hrs)

def chip : Chip TxDesc where
  busy d := d.status &&& txstatusDd = 0
  pub := txDesc bufs
  mark := setDone
  busy_pub i n _ := by
    have hclear : 0 &&& txstatusDd = 0 := by decide
    exact decide_eq_true hclear
  busy_mark i n _ := by
    have hset : (0 ||| txstatusDd) &&& txstatusDd ≠ 0 := by decide
    rw [status_setDone]
    exact decide_eq_false hset

variable {bufs} {t : Tx TxDesc} {frame : List UInt8} {freed : Nat}

theorem busy_iff (d : TxDesc) : (chip bufs).busy d = true ↔ d.status &&& txstatusDd = 0 := decide_eq_true_iff

theorem consume_full (h : (t.desc t.tail).status &&& txstatusDd = 0) :
    consume bufs frame t = t.fill bufs t.tail frame := if_pos h

theorem consume_free (h : (t.desc t.tail).status &&& txstatusDd ≠ 0) (hframe : frame.length ≤ maxFrame) :
    consume bufs frame t = (t.fill bufs t.tail frame).publish t.tail ((chip bufs).pub t.tail frame.length) frame := by
  rw [consume, if_neg h, take_min hframe]
  rfl

theorem grows_step (bufs : Buffers) (t : Tx TxDesc) (e : TxEvent) :
    t.wire <+: (step bufs t e).wire ∧ t.accepted <+: (step bufs t e).accepted := by
  cases e with
  | consume frame =>
    rw [step, consume]
    split_ifs
    · exact ⟨prefix_rfl, prefix_rfl⟩
    · exact ⟨prefix_rfl, prefix_append _ _⟩
  | send =>
    rw [step, send]
    split_ifs
    · exact ⟨prefix_rfl, prefix_rfl⟩
    · exact ⟨prefix_append _ _, prefix_rfl⟩
  | complete =>
    rw [step, Tx.finish]
    split <;> exact ⟨prefix_rfl, prefix_rfl⟩

/-- The ring is in order, and the tail has not gone around up to the head. -/
def Ahead (bufs : Buffers) (t : Tx TxDesc) : Prop :=
  (∃ freed, Tracks (chip bufs) bufs t freed) ∧ t.accepted.length < t.wire.length + txSlots

theorem ahead_init (bufs : Buffers) (mem : Mem) : Ahead bufs (init bufs mem) := by
  have hset : txstatusDd &&& txstatusDd ≠ 0 := by decide
  have hpos : 0 < 0 + txSlots := by decide
  exact ⟨⟨0, Tracks.fresh fun i => decide_eq_false hset⟩, hpos⟩

theorem head_eq_tail_iff (h : Tracks (chip bufs) bufs t freed) (hlt : t.accepted.length < t.wire.length + txSlots) :
    t.head = t.tail ↔ t.accepted.length = t.wire.length := by
  rw [h.head, h.tail, mod_eq_iff h.length_le (by omega)]
  omega

theorem not_hasRoom_iff (h : Tracks (chip bufs) bufs t freed) (hlt : t.accepted.length < t.wire.length + txSlots) :
    ¬ HasRoom t ↔ t.accepted.length + 1 = t.wire.length + txSlots ∧ freed = t.wire.length := by
  have hbusy := h.busy_tail
  rw [busy_iff] at hbusy
  have hle := h.length_le
  have hroom := h.room
  have hfreed := h.freed_le
  have hnext : (t.tail + 1) % txSlots = t.head ↔ t.accepted.length + 1 = t.wire.length + txSlots := by
    rw [h.tail, h.head, succ_mod, eq_comm, mod_eq_iff (by omega) (by omega)]
    omega
  rw [HasRoom]
  omega

theorem ahead_consume (h : Ahead bufs t) (hframe : frame.length ≤ maxFrame) (hroom : HasRoom t) :
    Ahead bufs (consume bufs frame t) := by
  obtain ⟨⟨freed, htracks⟩, hlt⟩ := h
  have hle := htracks.length_le
  by_cases hfull : (t.desc t.tail).status &&& txstatusDd = 0
  · rw [consume_full hfull]
    refine ⟨⟨freed, htracks.fill (htracks.tail ▸ Tracks.slot_lt _) hframe ?_⟩, hlt⟩
    -- The oldest frame in the ring has the slot that is written, and it was sent.
    intro k g hk hg heq
    have hklt := Tracks.lt_of_getElem? hg
    rw [htracks.tail] at heq
    have := eq_of_mod_eq hk (by omega) hle (by omega) heq
    omega
  · rw [consume_free hfull hframe]
    refine ⟨⟨freed, htracks.publish (decide_eq_false hfull) hframe⟩, ?_⟩
    have hnot := mt (not_hasRoom_iff htracks hlt).mpr (not_not.mpr hroom)
    have hbusy := htracks.busy_tail
    rw [busy_iff] at hbusy
    have hroomy := htracks.room
    have hfreed := htracks.freed_le
    show (t.accepted ++ [frame]).length < t.wire.length + txSlots
    rw [length_append, length_singleton]
    omega

theorem send_eq (h : Tracks (chip bufs) bufs t freed) (hlt : t.wire.length < t.accepted.length)
    (hahead : t.accepted.length < t.wire.length + txSlots) :
    send t = t.emit t.accepted[t.wire.length] ((t.head + 1) % txSlots) := by
  have hne : t.head ≠ t.tail := by
    rw [Ne, head_eq_tail_iff h hahead]
    omega
  have hf := getElem?_eq_getElem hlt
  have hlen := h.length_frame hf
  have hdesc := h.published _ _ h.freed_le hf
  have hmin : min t.accepted[t.wire.length].length bufSize % 2 ^ 16 = t.accepted[t.wire.length].length := by
    have hle : maxFrame ≤ bufSize := by decide
    have hbuf : bufSize < 2 ^ 16 := by decide
    rw [Nat.min_eq_left (by omega), Nat.mod_eq_of_lt (by omega)]
  rw [send, if_neg hne, h.head, hdesc]
  show t.emit (t.mem.read (bufs.phys _) (min _ bufSize % 2 ^ 16)) _ = _
  rw [hmin, h.stored _ _ (Nat.le_refl _) hf]

theorem ahead_send (h : Ahead bufs t) : Ahead bufs (send t) := by
  obtain ⟨⟨freed, htracks⟩, hahead⟩ := h
  by_cases hlt : t.wire.length < t.accepted.length
  · rw [send_eq htracks hlt hahead]
    refine ⟨⟨freed, htracks.emit hlt⟩, ?_⟩
    show t.accepted.length < (t.wire ++ [t.accepted[t.wire.length]]).length + txSlots
    rw [length_append]
    omega
  · have hle := htracks.length_le
    rw [send, if_pos ((head_eq_tail_iff htracks hahead).mpr (by omega))]
    exact ⟨⟨freed, htracks⟩, hahead⟩

theorem ahead_complete (h : Ahead bufs t) : Ahead bufs (t.finish setDone) := by
  obtain ⟨⟨freed, htracks⟩, hahead⟩ := h
  refine ⟨htracks.complete, ?_⟩
  rw [Tx.finish]
  split <;> exact hahead

/-- All events but a token that finds no room. -/
def Admits (t : Tx TxDesc) : TxEvent → Prop
  | .consume frame => frame.length ≤ maxFrame ∧ HasRoom t
  | _ => True

theorem ahead_step (t : Tx TxDesc) (e : TxEvent) (h : Ahead bufs t) (hadmits : Admits t e) :
    Ahead bufs (step bufs t e) := by
  cases e with
  | consume frame => exact ahead_consume h hadmits.1 hadmits.2
  | send => exact ahead_send h
  | complete => exact ahead_complete h

/-- The device finds its head at the tail, and the driver finds no free slot: nothing is sent any more. -/
structure Stuck (t : Tx TxDesc) : Prop where
  idle : t.head = t.tail
  inflight : t.inflight = []
  full : (t.desc t.tail).status &&& txstatusDd = 0

theorem Stuck.step_eq (h : Stuck t) (e : TxEvent) :
    Stuck (step bufs t e) ∧ (step bufs t e).wire = t.wire := by
  cases e with
  | consume frame =>
    rw [step, consume_full h.full]
    exact ⟨{ h with }, rfl⟩
  | send =>
    rw [step, send, if_pos h.idle]
    exact ⟨h, rfl⟩
  | complete =>
    rw [step, Tx.finish_nil h.inflight]
    exact ⟨h, rfl⟩

theorem stuck_of_not_hasRoom (h : Ahead bufs t) (hframe : frame.length ≤ maxFrame) (hroom : ¬ HasRoom t) :
    Stuck (consume bufs frame t) ∧ (consume bufs frame t).wire.length < (consume bufs frame t).accepted.length := by
  obtain ⟨⟨freed, htracks⟩, hlt⟩ := h
  obtain ⟨hlen, hfreed⟩ := (not_hasRoom_iff htracks hlt).mp hroom
  have hle := htracks.length_le
  obtain ⟨hnext, hfree⟩ := not_not.mp hroom
  rw [consume_free hfree hframe]
  have hafter := htracks.publish (decide_eq_false hfree) hframe
  have hlen' : ((t.fill bufs t.tail frame).publish t.tail ((chip bufs).pub t.tail frame.length) frame).accepted.length =
      t.accepted.length + 1 := by
    show (t.accepted ++ [frame]).length = _
    rw [length_append, length_singleton]
  constructor
  · constructor
    · exact hnext.symm
    · show t.inflight = []
      rw [htracks.inflight, hfreed, Nat.sub_self]
      rfl
    · rw [← busy_iff, hafter.busy_tail, hlen', hlen, hfreed]
  · show t.wire.length < _
    omega

end Ruos.Net.E1000
