import Ruos.Lib.Forever
import Ruos.Lib.Memory
import Ruos.Lib.Window

/-! Transmit rings (`net/nic/ring.rs`): slots and buffers that a driver fills and a device sends in ring order. -/
namespace Ruos.Net

open Lib Function List Nat

def txSlots : Nat := 64

def bufSize : Nat := 2048

def maxFrame : Nat := 1514

theorem take_min {frame : List UInt8} (h : frame.length ≤ maxFrame) : frame.take (min frame.length bufSize) = frame := by
  apply take_of_length_le
  have hle : maxFrame ≤ bufSize := by decide
  omega

structure Buffers where
  phys : Nat → Nat
  apart : ∀ i j, i < txSlots → j < txSlots → i ≠ j → phys i + 4096 ≤ phys j ∨ phys j + 4096 ≤ phys i

/-- A transmit ring with descriptors `D`, and the device behind it. -/
structure Tx (D : Type) where
  mem : Mem
  desc : Nat → D
  /-- The slot that the driver fills next. -/
  tail : Nat
  /-- The slot that the device sends next. -/
  head : Nat
  /-- The slots that were sent and not handed back yet. -/
  inflight : List Nat
  wire : List (List UInt8)
  /-- All frames that were put in a slot. -/
  accepted : List (List UInt8)

namespace Tx

variable {D : Type}

def fresh (mem : Mem) (desc : Nat → D) : Tx D where
  mem := mem
  desc := desc
  tail := 0
  head := 0
  inflight := []
  wire := []
  accepted := []

/-- The closure of a token writes into the buffer of slot `i`. -/
def fill (bufs : Buffers) (i : Nat) (bytes : List UInt8) (t : Tx D) : Tx D :=
  { t with mem := t.mem.write (bufs.phys i) bytes }

def publish (i : Nat) (d : D) (frame : List UInt8) (t : Tx D) : Tx D :=
  { t with
    desc := Function.update t.desc i d
    tail := (i + 1) % txSlots
    accepted := t.accepted ++ [frame] }

/-- The device sends a frame and goes on to slot `next`. -/
def emit (frame : List UInt8) (next : Nat) (t : Tx D) : Tx D :=
  { t with
    wire := t.wire ++ [frame]
    head := next
    inflight := t.inflight ++ [t.head] }

def finish (mark : D → D) (t : Tx D) : Tx D :=
  match t.inflight with
  | [] => t
  | i :: rest => { t with desc := Function.update t.desc i (mark (t.desc i)), inflight := rest }

theorem finish_nil {mark : D → D} {t : Tx D} (h : t.inflight = []) : t.finish mark = t := by
  simp only [finish, h]

theorem finish_cons {mark : D → D} {t : Tx D} {i : Nat} {rest : List Nat} (h : t.inflight = i :: rest) :
    t.finish mark = { t with desc := update t.desc i (mark (t.desc i)), inflight := rest } := by
  simp only [finish, h]

end Tx

inductive TxEvent where
  | consume (frame : List UInt8)
  | send
  | complete
  deriving DecidableEq

/-- How a driver hands a slot over, and how the device hands it back. -/
structure Chip (D : Type) where
  busy : D → Bool
  pub : (i n : Nat) → D
  mark : D → D
  busy_pub : ∀ i n, n ≤ maxFrame → busy (pub i n) = true
  busy_mark : ∀ i n, n ≤ maxFrame → busy (mark (pub i n)) = false

section

variable {D : Type} (chip : Chip D) (bufs : Buffers)

/-- The slots hold the accepted frames from the first that was not handed back on, and the buffers those that were not
sent yet. -/
structure Tracks (t : Tx D) (freed : Nat) : Prop where
  tail : t.tail = t.accepted.length % txSlots
  head : t.head = t.wire.length % txSlots
  inflight : t.inflight = (List.range' freed (t.wire.length - freed)).map (· % txSlots)
  freed_le : freed ≤ t.wire.length
  room : t.accepted.length ≤ freed + txSlots
  wire : t.wire <+: t.accepted
  small : ∀ f ∈ t.accepted, f.length ≤ maxFrame
  published : ∀ k f, freed ≤ k → t.accepted[k]? = some f → t.desc (k % txSlots) = chip.pub (k % txSlots) f.length
  idle : ∀ i < txSlots, ¬ InWindow txSlots freed t.accepted.length i → chip.busy (t.desc i) = false
  stored : ∀ k f, t.wire.length ≤ k → t.accepted[k]? = some f →
    t.mem.read (bufs.phys (k % txSlots)) f.length = f

namespace Tracks

variable {chip bufs} {t : Tx D} {freed k : Nat} {f frame : List UInt8}

theorem fresh {mem : Mem} {desc : Nat → D} (hdesc : ∀ i, chip.busy (desc i) = false) :
    Tracks chip bufs (Tx.fresh mem desc) 0 where
  tail := rfl
  head := rfl
  inflight := rfl
  freed_le := le_refl 0
  room := zero_le _
  wire := prefix_rfl
  small _ hf := nomatch hf
  published _ _ _ hf := nomatch hf
  idle i _ _ := hdesc i
  stored _ _ _ hf := nomatch hf

theorem slot_lt (k : Nat) : k % txSlots < txSlots := mod_lt k (by decide)

theorem length_le (h : Tracks chip bufs t freed) : t.wire.length ≤ t.accepted.length := h.wire.length_le

theorem lt_of_getElem? (hk : t.accepted[k]? = some f) : k < t.accepted.length := (List.getElem?_eq_some_iff.mp hk).1

section

variable (h : Tracks chip bufs t freed)
include h

theorem length_frame (hk : t.accepted[k]? = some f) : f.length ≤ maxFrame :=
  h.small f (mem_of_getElem? hk)

theorem busy_slot (hk : freed ≤ k) (hlt : k < t.accepted.length) : chip.busy (t.desc (k % txSlots)) = true := by
  have hf := getElem?_eq_getElem hlt
  rw [h.published k _ hk hf]
  exact chip.busy_pub _ _ (h.length_frame hf)

theorem busy_tail : chip.busy (t.desc t.tail) = true ↔ t.accepted.length = freed + txSlots := by
  rw [h.tail]
  constructor
  · intro hbusy
    by_contra hne
    have hout : ¬ InWindow txSlots freed t.accepted.length (t.accepted.length % txSlots) := by
      rwa [InWindow.end_iff h.room (by decide)]
    rw [h.idle _ (slot_lt _) hout] at hbusy
    cases hbusy
  · intro hfull
    rw [hfull, add_mod_right]
    have hpos : 0 < txSlots := by decide
    exact h.busy_slot (le_refl freed) (by omega)

end

theorem read_fill {i j n : Nat} (hi : i < txSlots) (hj : j < txSlots) (hne : i ≠ j) (hf : f.length ≤ 4096)
    (hn : n ≤ 4096) : (t.fill bufs i f).mem.read (bufs.phys j) n = t.mem.read (bufs.phys j) n := by
  apply Mem.read_write_disjoint
  rcases bufs.apart i j hi hj hne with h | h <;> omega

section

variable (h : Tracks chip bufs t freed)
include h

/-- Bytes written on a slot are harmless if they keep the frame there, in case it still has to be sent. -/
theorem fill {i : Nat} (hi : i < txSlots) (hf : f.length ≤ maxFrame)
    (hkeep : ∀ k g, t.wire.length ≤ k → t.accepted[k]? = some g → k % txSlots = i →
      (t.fill bufs i f).mem.read (bufs.phys i) g.length = g) : Tracks chip bufs (t.fill bufs i f) freed where
  __ := h
  stored := by
    intro k g hk hg
    by_cases hslot : k % txSlots = i
    · rw [hslot]
      exact hkeep k g hk hg hslot
    · have hlen := h.length_frame hg
      unfold maxFrame at hf hlen
      rw [read_fill hi (slot_lt k) (fun heq => hslot heq.symm) (by omega) (by omega)]
      exact h.stored k g hk hg

theorem publish (hfree : chip.busy (t.desc t.tail) = false) (hframe : frame.length ≤ maxFrame) :
    Tracks chip bufs ((t.fill bufs t.tail frame).publish t.tail (chip.pub t.tail frame.length) frame) freed := by
  have hroom : t.accepted.length < freed + txSlots := by
    refine lt_of_le_of_ne h.room fun heq => ?_
    rw [h.busy_tail.mpr heq] at hfree
    cases hfree
  have hle := h.length_le
  have hfreed := h.freed_le
  have hother : ∀ {k : Nat}, freed ≤ k → k < t.accepted.length → k % txSlots ≠ t.tail := by
    intro k hk hlt heq
    rw [h.tail] at heq
    have := eq_of_mod_eq hk (by omega) (by omega : freed ≤ t.accepted.length) hroom heq
    omega
  have hcases : ∀ {k : Nat} {g : List UInt8}, (t.accepted ++ [frame])[k]? = some g →
      t.accepted[k]? = some g ∨ k = t.accepted.length ∧ g = frame := by
    intro k g hg
    rcases lt_or_ge k t.accepted.length with hlt | hge
    · rw [getElem?_append_left hlt] at hg
      exact .inl hg
    · rw [getElem?_append_right hge, getElem?_singleton] at hg
      split_ifs at hg with heq
      exact .inr ⟨by omega, (Option.some.inj hg).symm⟩
  have hlen : (t.accepted ++ [frame]).length = t.accepted.length + 1 := by simp
  constructor
  · show (t.tail + 1) % txSlots = (t.accepted ++ [frame]).length % txSlots
    rw [h.tail, hlen, succ_mod]
  · exact h.head
  · exact h.inflight
  · exact h.freed_le
  · show (t.accepted ++ [frame]).length ≤ _
    omega
  · exact h.wire.trans (prefix_append _ _)
  · intro g hg
    rcases mem_append.mp hg with hg | hg
    · exact h.small g hg
    · rw [mem_singleton.mp hg]
      exact hframe
  · intro k g hk hg
    show update t.desc t.tail _ (k % txSlots) = _
    rcases hcases hg with hg | ⟨rfl, rfl⟩
    · rw [update_of_ne (hother hk (lt_of_getElem? hg))]
      exact h.published k g hk hg
    · rw [← h.tail, update_self]
  · intro i hi hout
    show chip.busy (update t.desc t.tail _ i) = false
    have hout' : ¬ (InWindow txSlots freed t.accepted.length i ∨ t.accepted.length % txSlots = i) := by
      rw [← InWindow.succ_right (by omega), ← hlen]
      exact hout
    have hne : i ≠ t.tail := fun heq => hout' (.inr (by rw [heq, h.tail]))
    rw [update_of_ne hne]
    exact h.idle i hi fun hin => hout' (.inl hin)
  · intro k g hk hg
    show (t.fill bufs t.tail frame).mem.read _ _ = _
    have hk' : t.wire.length ≤ k := hk
    rcases hcases hg with hg | ⟨rfl, rfl⟩
    · have hlen := h.length_frame hg
      have htail : t.tail < txSlots := h.tail ▸ slot_lt _
      unfold maxFrame at hlen hframe
      rw [read_fill htail (slot_lt k) (hother (by omega) (lt_of_getElem? hg)).symm (by omega) (by omega)]
      exact h.stored k g hk hg
    · rw [← h.tail]
      exact Mem.read_write_same _ _ _

theorem emit (hlt : t.wire.length < t.accepted.length) :
    Tracks chip bufs (t.emit t.accepted[t.wire.length] ((t.head + 1) % txSlots)) freed := by
  have hfreed := h.freed_le
  have hlen : (t.wire ++ [t.accepted[t.wire.length]]).length = t.wire.length + 1 := by simp
  constructor
  · exact h.tail
  · show (t.head + 1) % txSlots = (t.wire ++ [t.accepted[t.wire.length]]).length % txSlots
    rw [hlen, h.head, succ_mod]
  · show t.inflight ++ [t.head] =
      (range' freed ((t.wire ++ [t.accepted[t.wire.length]]).length - freed)).map (· % txSlots)
    have hsub : t.wire.length + 1 - freed = (t.wire.length - freed) + 1 := by omega
    have hlast : freed + (t.wire.length - freed) = t.wire.length := by omega
    rw [hlen, hsub, range'_concat, map_append, h.inflight, h.head, one_mul, hlast]
    rfl
  · show freed ≤ (t.wire ++ [t.accepted[t.wire.length]]).length
    omega
  · exact h.room
  · show t.wire ++ [t.accepted[t.wire.length]] <+: t.accepted
    have htake := prefix_iff_eq_take.mp h.wire
    have hnext : t.wire ++ [t.accepted[t.wire.length]] = t.accepted.take (t.wire.length + 1) := by
      rw [take_add_one, getElem?_eq_getElem hlt, ← htake]
      rfl
    rw [hnext]
    exact take_prefix _ _
  · exact h.small
  · exact h.published
  · exact h.idle
  · intro k g hk hg
    have hk' : (t.wire ++ [t.accepted[t.wire.length]]).length ≤ k := hk
    exact h.stored k g (by omega) hg

theorem finish (hlt : freed < t.wire.length) : Tracks chip bufs (t.finish chip.mark) (freed + 1) := by
  have hle := h.length_le
  have hroom := h.room
  have hsub : t.wire.length - freed = (t.wire.length - (freed + 1)) + 1 := by omega
  have hinflight : t.inflight =
      freed % txSlots :: (range' (freed + 1) (t.wire.length - (freed + 1))).map (· % txSlots) := by
    rw [h.inflight, hsub, range'_succ, map_cons]
  rw [Tx.finish_cons hinflight]
  constructor
  · exact h.tail
  · exact h.head
  · rfl
  · exact hlt
  · show t.accepted.length ≤ _
    omega
  · exact h.wire
  · exact h.small
  · intro k g hk hg
    have hklt : k < t.accepted.length := lt_of_getElem? hg
    have hne : k % txSlots ≠ freed % txSlots := by
      intro heq
      have := eq_of_mod_eq (by omega : freed ≤ k) (by omega) (le_refl freed) (by omega) heq
      omega
    show update t.desc _ _ (k % txSlots) = _
    rw [update_of_ne hne]
    exact h.published k g (by omega) hg
  · intro i hi hout
    show chip.busy (update t.desc _ _ i) = false
    by_cases heq : freed % txSlots = i
    · have hf : t.accepted[freed]? = some t.accepted[freed] := getElem?_eq_getElem (by omega)
      rw [heq, update_self, ← heq, h.published freed _ (le_refl freed) hf]
      exact chip.busy_mark _ _ (h.length_frame hf)
    · rw [update_of_ne (fun h => heq h.symm)]
      exact h.idle i hi fun hin => hout (hin.of_succ_left heq)
  · exact h.stored

theorem complete : ∃ freed', Tracks chip bufs (t.finish chip.mark) freed' := by
  by_cases hlt : freed < t.wire.length
  · exact ⟨_, h.finish hlt⟩
  · have hnil : t.inflight = [] := by
      rw [h.inflight, Nat.sub_eq_zero_of_le (by omega)]
      rfl
    rw [Tx.finish_nil hnil]
    exact ⟨_, h⟩

theorem head_mem_inflight (hlt : t.wire.length < t.accepted.length) : t.head ∉ t.inflight := by
  rw [h.inflight, h.head]
  intro hmem
  obtain ⟨k, hk, heq⟩ := mem_map.mp hmem
  have hroom := h.room
  have hfreed := h.freed_le
  obtain ⟨hlo, hhi⟩ := mem_range'_1.mp hk
  have := eq_of_mod_eq hlo (by omega) hfreed (by omega) heq
  omega

end

end Tracks
end

section

variable {D : Type}

/-- What is on the wire are the accepted frames in their order, and all of them get there. -/
def Delivers (run : Nat → Tx D) : Prop :=
  (∀ n, (run n).wire <+: (run n).accepted) ∧ ∀ n, ∃ m, (run n).accepted <+: (run m).wire

variable {step : Tx D → TxEvent → Tx D} {t : Tx D} {es : Nat → TxEvent}

/-- A device that sends again and again, and one more frame each time as long as there is one, delivers all. -/
theorem delivers_of_send (hgrow : ∀ t e, t.wire <+: (step t e).wire ∧ t.accepted <+: (step t e).accepted)
    (hinitial : ∀ n, (forever step t es n).wire <+: (forever step t es n).accepted) (hrec : Recurs es .send)
    (hsend : ∀ n, (forever step t es n).wire.length < (forever step t es n).accepted.length →
      ∃ f i, step (forever step t es n) .send = (forever step t es n).emit f i) :
    Delivers (forever step t es) := by
  refine ⟨hinitial, fun n => ?_⟩
  have hmore : ∀ {k : Nat}, n ≤ k → (forever step t es n).accepted <+: (forever step t es k).accepted := by
    intro k hk
    have hstep : ∀ u e, (forever step t es n).accepted <+: u.accepted →
        (forever step t es n).accepted <+: (step u e).accepted :=
      fun u e h => h.trans (hgrow u e).2
    exact forever_preserves hstep hk prefix_rfl
  have hup : ∀ k, n ≤ k → es k = .send → (forever step t es k).wire.length < (forever step t es n).accepted.length →
      (forever step t es k).wire.length < (forever step t es (k + 1)).wire.length := by
    intro k hk he hlt
    have hle := (hmore hk).length_le
    obtain ⟨f, i, hemit⟩ := hsend k (by omega)
    simp [forever, he, hemit, Tx.emit]
  have hmono : ∀ k, (forever step t es k).wire.length ≤ (forever step t es (k + 1)).wire.length :=
    fun k => (hgrow _ (es k)).1.length_le
  obtain ⟨m, hm, hlen⟩ := forever_reaches (μ := fun u : Tx D => u.wire.length) hrec hmono hup
  exact ⟨m, prefix_of_prefix_length_le (hmore hm) (hinitial m) hlen⟩

end
end Ruos.Net
