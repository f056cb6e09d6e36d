import Ruos.Lib.Run
import Ruos.Lib.Window

/-! The kernel event bus: publishers overwrite the oldest of 64 slots, and a reader pulls by sequence number. -/
namespace Ruos.Kevent

def ringLen : Nat := 64

/-- What a publisher passes, with the tick of the timer at that moment. -/
structure Content where
  kind : UInt16
  severity : UInt8
  tsTicks : UInt32
  payload : Vector UInt32 4
  deriving DecidableEq

open Lib List Function

structure KEvent extends Content where
  seq : Nat
  deriving DecidableEq

/-- `BUS` and `SEQ`. -/
structure Bus where
  ring : Nat → KEvent
  seq : Nat

def Bus.publishInner (b : Bus) (c : Content) : Bus :=
  let seq := (b.seq + 1) % 2 ^ 64
  { ring := update b.ring (seq % ringLen) ⟨c, seq⟩, seq := seq }

/-- The loop of `read_since`: the events from `s` on, as long as there is room. -/
def Bus.copyFrom (b : Bus) (s : Nat) : (room : Nat) → List KEvent
  | 0 => []
  | room + 1 => if s ≤ b.seq then b.ring (s % ringLen) :: b.copyFrom ((s + 1) % 2 ^ 64) room else []

/-- The events copied to a buffer of `len` places, and the count of those that were lost. -/
def Bus.readSince (b : Bus) (lastSeq len : Nat) : List KEvent × Nat :=
  if len = 0 then ([], 0) else
  if b.seq ≤ lastSeq then ([], 0) else
    let oldest := max (b.seq - (ringLen - 1)) 1
    let lost := if lastSeq + 1 < oldest then oldest - lastSeq - 1 else 0
    (b.copyFrom (max (lastSeq + 1) oldest) len, lost)

/-- The bus, what was published on it, and one reader with what it was given. -/
structure Feed where
  bus : Bus
  published : List KEvent
  cursor : Nat
  returned : List KEvent
  lost : Nat

inductive Event where
  | publish (c : Content)
  | read (len : Nat)

def Feed.step (s : Feed) : Event → Option Feed
  | .publish c =>
    let bus := s.bus.publishInner c
    some { s with bus := bus, published := s.published ++ [⟨c, bus.seq⟩] }
  | .read len =>
    let r := s.bus.readSince s.cursor len
    some { s with
      cursor := (r.1.getLast?.map (·.seq)).getD s.cursor
      returned := s.returned ++ r.1
      lost := s.lost + r.2 }

def empty : KEvent := ⟨⟨0, 0, 0, .replicate 4 0⟩, 0⟩

def Feed.start : Feed := ⟨⟨fun _ => empty, 0⟩, [], 0, [], 0⟩

/-- The number that the next event gets, and the one after it, are numbers of 64 bits. -/
def Feed.Numbered (s : Feed) : Event → Prop
  | .publish _ => s.bus.seq + 2 < 2 ^ 64
  | .read _ => True

instance (s : Feed) (e : Event) : Decidable (s.Numbered e) := by
  cases e <;> unfold Feed.Numbered <;> infer_instance

structure Feed.Inv (s : Feed) : Prop where
  seq_lt : s.bus.seq + 1 < 2 ^ 64
  numbered : s.published.map (·.seq) = range' 1 s.bus.seq
  ring : ∀ i e, s.published[i]? = some e → s.bus.seq ≤ i + ringLen → s.bus.ring ((i + 1) % ringLen) = e
  cursor_le : s.cursor ≤ s.bus.seq
  returned : s.returned <+ s.published.take s.cursor
  balance : s.returned.length + s.lost = s.cursor

namespace Feed.Inv

variable {s : Feed}

theorem start : Feed.start.Inv where
  seq_lt := by decide
  numbered := rfl
  ring := by simp [Feed.start]
  cursor_le := Nat.le_refl 0
  returned := .slnil
  balance := rfl

section

variable (h : s.Inv)
include h

theorem length_published : s.published.length = s.bus.seq := by
  have hlen := congrArg List.length h.numbered
  rwa [length_map, length_range'] at hlen

theorem seq_eq {i : Nat} {e : KEvent} (he : s.published[i]? = some e) : e.seq = i + 1 := by
  have hi := (List.getElem?_eq_some_iff.mp he).1
  have hmap : (s.published.map (·.seq))[i]? = some e.seq := by rw [getElem?_map, he]; rfl
  rw [h.numbered, getElem?_range' (h.length_published ▸ hi)] at hmap
  have hnth := Option.some.inj hmap
  omega

theorem publish {c : Content} (hok : s.bus.seq + 2 < 2 ^ 64) {s' : Feed} (hstep : s.step (.publish c) = some s') :
    s'.Inv := by
  have hlen := h.length_published
  have hseq : (s.bus.seq + 1) % 2 ^ 64 = s.bus.seq + 1 := Nat.mod_eq_of_lt (by omega)
  simp only [step, Bus.publishInner, hseq, Option.some.injEq] at hstep
  subst hstep
  refine ⟨hok, ?_, ?_, h.cursor_le.trans (Nat.le_succ _), ?_, h.balance⟩
  · simp only [map_append, h.numbered, map_cons, map_nil]
    rw [range'_1_concat, Nat.add_comm]
  · intro i e he hle
    dsimp only at hle ⊢
    have hi := (List.getElem?_eq_some_iff.mp he).1
    rw [length_append, length_singleton] at hi
    by_cases hlast : i = s.bus.seq
    · rw [hlast, update_self]
      rw [hlast, ← hlen, getElem?_concat_length] at he
      rw [← Option.some.inj he, hlen]
    · have hne : (i + 1) % ringLen ≠ (s.bus.seq + 1) % ringLen := fun heq =>
        hlast (Nat.succ.inj (eq_of_mod_eq (Nat.le_refl (i + 1)) (Nat.lt_add_of_pos_right (by decide)) (by omega)
          (by omega) heq))
      rw [update_of_ne hne]
      rw [getElem?_append_left (by omega)] at he
      exact h.ring i e he (by omega)
  · rw [take_append_of_le_length (hlen ▸ h.cursor_le)]
    exact h.returned

theorem copyFrom_eq (room : Nat) {i : Nat} (hi : s.bus.seq ≤ i + ringLen) :
    s.bus.copyFrom (i + 1) room = (s.published.drop i).take room := by
  have hlt := h.seq_lt
  have hlen := h.length_published
  induction room generalizing i with
  | zero => rfl
  | succ room ih =>
    rw [Bus.copyFrom]
    split_ifs with hle
    · have hget : s.published[i]? = some s.published[i] := getElem?_eq_getElem (by omega)
      have hmod : (i + 1 + 1) % 2 ^ 64 = i + 1 + 1 := Nat.mod_eq_of_lt (by omega)
      rw [hmod, ih (by omega), h.ring i _ hget hi, drop_eq_getElem_cons (i := i) (by omega),
        take_succ_cons]
    · rw [drop_of_length_le (by omega), take_nil]

theorem read {len : Nat} {s' : Feed} (hstep : s.step (.read len) = some s') : s'.Inv := by
  by_cases hnone : len = 0 ∨ s.bus.seq ≤ s.cursor
  · have hread : s.bus.readSince s.cursor len = ([], 0) := by
      rw [Bus.readSince]
      split_ifs <;> simp_all
    simp only [step, hread, append_nil, Nat.add_zero, getLast?_nil, Option.map_none, Option.getD_none] at hstep
    cases hstep
    exact h
  · obtain ⟨hlen, hcur⟩ := not_or.mp hnone
    have hlength := h.length_published
    have hring : ringLen - 1 = 63 ∧ ringLen = 64 := ⟨rfl, rfl⟩
    -- The first event that is handed out has index `n`: those between the cursor and it are lost.
    obtain ⟨n, hn⟩ := Nat.exists_eq_add_one_of_ne_zero
      (n := max (s.cursor + 1) (max (s.bus.seq - (ringLen - 1)) 1)) (by omega)
    obtain ⟨k, hk⟩ := Nat.exists_eq_add_one_of_ne_zero (n := min len (s.bus.seq - n)) (by omega)
    have hlost : (if s.cursor + 1 < max (s.bus.seq - (ringLen - 1)) 1 then
        max (s.bus.seq - (ringLen - 1)) 1 - s.cursor - 1 else 0) = n - s.cursor := by
      split_ifs <;> omega
    have hcount : ((s.published.drop n).take len).length = k + 1 := by
      rw [length_take, length_drop, hlength, hk]
    have hlast : (((s.published.drop n).take len).getLast?.map (·.seq)).getD s.cursor = n + k + 1 := by
      have hget : s.published[n + k]? = some s.published[n + k] := getElem?_eq_getElem (by omega)
      rw [getLast?_eq_getElem?, hcount, Nat.add_sub_cancel, getElem?_take_of_lt (by omega), getElem?_drop, hget,
        Option.map_some, Option.getD_some, h.seq_eq hget]
    simp only [step, Bus.readSince, if_neg hlen, if_neg hcur, hlost, hn, h.copyFrom_eq len (i := n) (by omega),
      hlast] at hstep
    cases hstep
    refine ⟨h.seq_lt, h.numbered, h.ring, by dsimp only; omega, ?_, ?_⟩
    · have hsplit : s.published.take (n + k + 1) = s.published.take n ++ (s.published.drop n).take len := by
        rw [Nat.add_assoc, take_add, take_eq_take_min (i := len), length_drop, hlength, hk]
      rw [hsplit]
      exact (h.returned.trans (take_sublist_take_left (by omega))).append (Sublist.refl _)
    · have hbalance := h.balance
      simp only [length_append, hcount]
      omega

end

end Feed.Inv

open Feed

end Ruos.Kevent
