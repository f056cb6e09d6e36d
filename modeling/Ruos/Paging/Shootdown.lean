import Mathlib
import Ruos.Lib.Caching
import Ruos.Lib.Run

/-! Page table entries and the calls that change them (`memory/mapper.rs`), and cross-core TLB shootdown
(`memory/tlb.rs`): the cores, their TLBs, the one call that holds the mapper lock, and which TLB entries may be stale
meanwhile. -/
namespace Ruos.Paging

structure Entry where
  frame : Nat
  flags : Nat
  deriving DecidableEq, Repr

namespace Entry

def present (e : Entry) : Bool := e.flags.testBit 0
def hugePage (e : Entry) : Bool := e.flags.testBit 7
def isGlobal (e : Entry) : Bool := e.flags.testBit 8

def isUnused (e : Entry) : Bool := e.frame = 0 ∧ e.flags = 0

def unused : Entry := ⟨0, 0⟩

end Entry

/-- What a walk for a 4 KiB page finds: an entry of the last level, where a missing table counts as unused entries, or a
parent that maps a huge page, which translates this page to `e`. -/
inductive Slot where
  | table (e : Entry)
  | huge (e : Entry)
  deriving DecidableEq, Repr

namespace Slot

def entry : Slot → Entry
  | .table e => e
  | .huge e => e

def translate (s : Slot) : Option Entry := if s.entry.present then some s.entry else none

def Uses (s : Slot) (f : Nat) : Prop := s.entry.isUnused = false ∧ s.entry.frame = f

end Slot

inductive UnmapError where
  | notInitialized
  | notMapped
  | parentHugePage
  | invalidFrame
  deriving DecidableEq, Repr

inductive MapError where
  | notInitialized
  | alreadyMapped
  | noFrame
  | parentHugePage
  deriving DecidableEq, Repr

/-- `Mapper::unmap`: the slot afterwards and the frame that was mapped. -/
def Slot.unmap : Slot → Except UnmapError (Slot × Nat)
  | .huge _ => .error .parentHugePage
  | .table e =>
    if e.present then
      if e.hugePage then .error .parentHugePage else .ok (.table Entry.unused, e.frame)
    else .error .notMapped

/-- `Mapper::update_flags`. -/
def Slot.updateFlags (flags : Nat) : Slot → Except UnmapError Slot
  | .huge _ => .error .parentHugePage
  | .table e => if e.isUnused then .error .notMapped else .ok (.table ⟨e.frame, flags⟩)

/-- `Mapper::map_to`, when there are frames for the tables. -/
def Slot.mapTo (frame flags : Nat) : Slot → Except MapError Slot
  | .huge _ => .error .parentHugePage
  | .table e => if e.isUnused then .ok (.table ⟨frame, flags⟩) else .error .alreadyMapped

def pageOf (virt : Nat) : Nat := virt / 4096

/-- A call that changes `pages` pages from `first` on. -/
structure Op where
  /-- The address that is published for the other cores. -/
  addr : Nat
  first : Nat
  pages : Nat
  /-- The slot afterwards, and the frames to be given back. -/
  apply : Slot → Except UnmapError (Slot × List Nat)
  /-- Errors that end the call. -/
  stops : UnmapError → Bool

inductive Call where
  | unmapPage (virt : Nat)
  | setFlags (virt flags : Nat)
  | setFlagsRange (base pages flags : Nat)
  | unmapRange (base pages : Nat)
  deriving DecidableEq, Repr

def unmapPage (virt : Nat) : Op where
  addr := virt
  first := pageOf virt
  pages := 1
  apply s := s.unmap.map fun x => (x.1, [])
  stops _ := true

def setFlags (virt flags : Nat) : Op where
  addr := virt
  first := pageOf virt
  pages := 1
  apply s := (s.updateFlags flags).map fun x => (x, [])
  stops _ := true

def setFlagsRange (base pages flags : Nat) : Op where
  addr := pageOf base * 4096
  first := pageOf base
  pages := pages
  apply s := (s.updateFlags flags).map fun x => (x, [])
  stops e := e = .parentHugePage

def unmapRange (base pages : Nat) : Op where
  addr := pageOf base * 4096
  first := pageOf base
  pages := pages
  apply s := s.unmap.map fun x => (x.1, [x.2])
  stops _ := false

namespace Call

def op : Call → Op
  | .unmapPage virt => Paging.unmapPage virt
  | .setFlags virt flags => Paging.setFlags virt flags
  | .setFlagsRange base pages flags => Paging.setFlagsRange base pages flags
  | .unmapRange base pages => Paging.unmapRange base pages

/-- The call sets no global flag. -/
def NonGlobal : Call → Prop
  | .setFlags _ flags | .setFlagsRange _ _ flags => flags.testBit 8 = false
  | _ => True

instance (c : Call) : Decidable c.NonGlobal :=
  match c with
  | .unmapPage _ | .unmapRange _ _ => isTrue trivial
  | .setFlags _ flags | .setFlagsRange _ _ flags => inferInstanceAs (Decidable (flags.testBit 8 = false))

theorem addr_page (c : Call) : pageOf c.op.addr = c.op.first := by
  cases c with
  | unmapPage | setFlags => rfl
  | setFlagsRange | unmapRange => exact Nat.mul_div_cancel _ (by decide)

end Call

section

variable {s s' : Slot} {frames : List Nat} {f : Nat}

theorem Slot.translate_eq_some {e : Entry} (h : s.translate = some e) : s.entry = e ∧ e.present = true := by
  unfold translate at h
  split_ifs at h with hp
  cases h
  exact ⟨rfl, hp⟩

theorem Slot.uses_of_translate {e : Entry} (h : s.translate = some e) : s.Uses e.frame := by
  obtain ⟨rfl, hp⟩ := translate_eq_some h
  refine ⟨?_, rfl⟩
  rw [Entry.isUnused, decide_eq_false_iff_not]
  rintro ⟨-, hflags⟩
  rw [Entry.present, hflags] at hp
  cases hp

theorem not_uses_unused (f : Nat) : ¬ (Slot.table Entry.unused).Uses f := by
  rintro ⟨h, -⟩
  cases h

theorem Slot.unmap_ok {x : Slot × Nat} (h : s.unmap = .ok x) : x.1 = .table Entry.unused ∧ s.Uses x.2 := by
  cases s with
  | huge e => cases h
  | table e =>
    rw [unmap] at h
    split_ifs at h with hp
    cases h
    refine ⟨rfl, ?_⟩
    exact uses_of_translate (by rw [translate, entry, if_pos hp])

theorem Slot.updateFlags_ok {flags : Nat} (h : s.updateFlags flags = .ok s') :
    s.Uses s.entry.frame ∧ s' = .table ⟨s.entry.frame, flags⟩ := by
  cases s with
  | huge e => cases h
  | table e =>
    rw [updateFlags] at h
    split_ifs at h with hu
    cases h
    exact ⟨⟨Bool.eq_false_iff.mpr hu, rfl⟩, rfl⟩

/-- No call puts a frame into a slot, and what it is to give back has left its slot. -/
structure Takes (s s' : Slot) (frames : List Nat) : Prop where
  uses : ∀ f, s'.Uses f → s.Uses f
  taken : ∀ f ∈ frames, s.Uses f ∧ ∀ g, ¬ s'.Uses g

theorem takes_unmap {x : Slot × Nat} (h : s.unmap = .ok x) (hframes : ∀ f ∈ frames, f = x.2) : Takes s x.1 frames := by
  obtain ⟨hslot, huses⟩ := Slot.unmap_ok h
  rw [hslot]
  constructor
  · intro f hf
    exact absurd hf (not_uses_unused f)
  · intro f hf
    rw [hframes f hf]
    exact ⟨huses, not_uses_unused⟩

theorem takes_updateFlags {flags : Nat} (h : s.updateFlags flags = .ok s') : Takes s s' [] := by
  obtain ⟨huses, rfl⟩ := Slot.updateFlags_ok h
  constructor
  · rintro f ⟨-, rfl⟩
    exact huses
  · intro f hf
    cases hf

theorem map_eq_ok {ε α β : Type} {x : Except ε α} {g : α → β} {b : β} (h : x.map g = .ok b) :
    ∃ a, x = .ok a ∧ g a = b := by
  cases x with
  | error e => cases h
  | ok a => exact ⟨a, rfl, Except.ok.inj h⟩

theorem Call.takes {c : Call} (h : c.op.apply s = .ok (s', frames)) : Takes s s' frames := by
  cases c <;> obtain ⟨x, hx, heq⟩ := map_eq_ok h <;> obtain ⟨rfl, rfl⟩ := Prod.mk.inj heq
  case unmapPage => exact takes_unmap hx (by rintro f ⟨⟩)
  case setFlags | setFlagsRange => exact takes_updateFlags hx
  case unmapRange => exact takes_unmap hx fun f hf => List.mem_singleton.mp hf

theorem Call.nonGlobal_apply {c : Call} (hc : c.NonGlobal) (h : c.op.apply s = .ok (s', frames)) :
    s'.entry.isGlobal = false := by
  have hunused : Entry.unused.isGlobal = false := by decide
  cases c <;> obtain ⟨x, hx, heq⟩ := map_eq_ok h <;> obtain ⟨rfl, -⟩ := Prod.mk.inj heq
  case unmapPage | unmapRange =>
    rw [(Slot.unmap_ok hx).1]
    exact hunused
  case setFlags | setFlagsRange =>
    rw [(Slot.updateFlags_ok hx).2]
    exact hc

theorem Slot.mapTo_ok {frame flags : Nat} (h : s.mapTo frame flags = .ok s') :
    s.translate = none ∧ s' = .table ⟨frame, flags⟩ := by
  cases s with
  | huge e => cases h
  | table e =>
    rw [mapTo] at h
    split_ifs at h with hu
    refine ⟨?_, (Except.ok.inj h).symm⟩
    rw [Entry.isUnused, decide_eq_true_iff] at hu
    rw [translate, entry, Entry.present, hu.2, Nat.zero_testBit, if_neg Bool.false_ne_true]
end

open Lib

def flushThreshold : Nat := 32

/-- Where `on_ipi` is on a core. -/
inductive Handler where
  | loadAddr
  | loadLen (addr : Nat)
  | invlpg (addr len i : Nat)
  | reload
  | ack
  deriving DecidableEq, Repr

/-- Where the call that holds the mapper lock is: in its loop over the pages, or in `shootdown_range`. -/
inductive Phase where
  | page
  | flush (page : Nat)
  | storeAddr
  | storeLen
  | storeAck
  | storeNeed
  | send
  | wait
  | ret
  deriving DecidableEq, Repr

structure Active where
  core : Nat
  call : Call
  /-- Pages that the loop is done with. -/
  i : Nat
  changed : Nat
  /-- Frames to be given back after the lock is released. -/
  freed : List Nat
  error : Option UnmapError
  phase : Phase
  deriving DecidableEq, Repr

structure Machine where
  table : Nat → Slot
  tlb : (core page : Nat) → Option Entry
  shootAddr : Nat
  shootLen : Nat
  shootAck : Nat
  shootNeed : Nat
  /-- The shootdown interrupt is pending at a core. -/
  ipi : Nat → Bool
  handler : Nat → Option Handler
  active : Option Active
  /-- Frames that finished calls have still to give back. -/
  held : List Nat

inductive Event where
  | begin (core : Nat) (call : Call)
  | mapPage (core virt frame flags : Nat)
  /-- The next step of the call that holds the lock. -/
  | work
  /-- The call releases the lock and returns, or goes on to give its frames back. -/
  | ret
  | free (frame : Nat)
  | fill (core page : Nat)
  | evict (core page : Nat)
  | deliver (core : Nat)
  /-- The next step of the interrupt handler of a core. -/
  | handle (core : Nat)
  deriving DecidableEq, Repr

namespace Machine

variable (cores : Nat) (m : Machine)

def setActive (a : Active) : Machine := { m with active := some a }

def setTlb (c : Nat) (t : Nat → Option Entry) : Machine := { m with tlb := Function.update m.tlb c t }

def setHandler (c : Nat) (h : Option Handler) : Machine := { m with handler := Function.update m.handler c h }

def invlpg (c page : Nat) : Machine := m.setTlb c (Function.update (m.tlb c) page none)

/-- After the loop, the other cores are told if a page was changed. -/
def afterLoop (a : Active) : Phase := if a.changed = 0 then .ret else .storeAddr

/-- One page of the loop; adding to a page number past the address space panics. -/
def onPage (a : Active) : Option Machine :=
  if a.i < a.call.op.pages then
    if a.call.op.first + a.i < 2 ^ 52 then
      match a.call.op.apply (m.table (a.call.op.first + a.i)) with
      | .ok (slot, frames) =>
        some ({ m with table := Function.update m.table (a.call.op.first + a.i) slot }.setActive
          { a with i := a.i + 1, changed := a.changed + 1, freed := a.freed ++ frames,
                   phase := .flush (a.call.op.first + a.i) })
      | .error e =>
        some (m.setActive (if a.call.op.stops e then { a with error := some e, phase := afterLoop a }
          else { a with i := a.i + 1 }))
    else none
  else some (m.setActive { a with phase := afterLoop a })

/-- A step of the call; the wait ends when all other cores have acknowledged. -/
def work (a : Active) : Option Machine :=
  match a.phase with
  | .page => m.onPage a
  | .flush page => some ((m.invlpg a.core page).setActive { a with phase := .page })
  | .storeAddr =>
    if cores < 2 then some (m.setActive { a with phase := .ret })
    else some ({ m with shootAddr := a.call.op.addr }.setActive { a with phase := .storeLen })
  | .storeLen => some ({ m with shootLen := a.call.op.pages }.setActive { a with phase := .storeAck })
  | .storeAck => some ({ m with shootAck := 0 }.setActive { a with phase := .storeNeed })
  | .storeNeed => some ({ m with shootNeed := cores - 1 }.setActive { a with phase := .send })
  | .send =>
    some ({ m with ipi := fun c => m.ipi c || (decide (c < cores) && decide (c ≠ a.core)) }.setActive
      { a with phase := .wait })
  | .wait => if m.shootAck < cores - 1 then none else some (m.setActive { a with phase := .ret })
  | .ret => none

def handle (c : Nat) : Handler → Machine
  | .loadAddr => m.setHandler c (some (.loadLen m.shootAddr))
  | .loadLen addr =>
    m.setHandler c (some (if m.shootLen ≤ flushThreshold then .invlpg addr m.shootLen 0 else .reload))
  | .invlpg addr len i =>
    if i < len then (m.invlpg c (pageOf ((addr + i * 4096) % 2 ^ 64))).setHandler c (some (.invlpg addr len (i + 1)))
    else m.setHandler c (some .ack)
  | .reload => (m.setTlb c fun p => (m.tlb c p).filter (·.isGlobal)).setHandler c (some .ack)
  | .ack => { m with shootAck := m.shootAck + 1 }.setHandler c none

def step (m : Machine) : Event → Option Machine
  | .begin core call =>
    if core < cores ∧ m.active = none then
      some (m.setActive { core, call, i := 0, changed := 0, freed := [], error := none, phase := .page })
    else none
  | .mapPage core virt frame flags =>
    if core < cores ∧ m.active = none then
      match (m.table (pageOf virt)).mapTo frame flags with
      | .ok slot => some ({ m with table := Function.update m.table (pageOf virt) slot }.invlpg core (pageOf virt))
      | .error _ => some m
    else none
  | .work => m.active.bind fun a => m.work cores a
  | .ret =>
    m.active.bind fun a =>
      if a.phase = .ret then some { m with active := none, held := m.held ++ a.freed } else none
  | .free frame => if frame ∈ m.held then some { m with held := m.held.erase frame } else none
  | .fill core page =>
    if core < cores then some (m.setTlb core (Function.update (m.tlb core) page (m.table page).translate)) else none
  | .evict core page => if core < cores then some (m.invlpg core page) else none
  | .deliver core =>
    if m.ipi core = true ∧ m.handler core = none then
      some ({ m with ipi := Function.update m.ipi core false }.setHandler core (some .loadAddr))
    else none
  | .handle core => (m.handler core).map fun h => m.handle core h

end Machine

open Function

def Active.Touched (a : Active) (p : Nat) : Prop := a.call.op.first ≤ p ∧ p < a.call.op.first + a.i

def Handler.Remains (first p : Nat) : Handler → Prop
  | .invlpg _ _ i => first + i ≤ p
  | .ack => False
  | _ => True

def Handler.Reads (op : Op) : Handler → Prop
  | .loadLen addr => addr = op.addr
  | .invlpg addr len _ => addr = op.addr ∧ len = op.pages
  | _ => True

/-- The pages for which core `c` may hold a stale translation, given its pending interrupt and its handler. -/
def Active.Stale (a : Active) (ipi : Bool) (h : Option Handler) (c p : Nat) : Prop :=
  match a.phase with
  | .page => c ≠ a.core ∧ a.changed ≠ 0 ∧ a.Touched p
  | .flush page => c ≠ a.core ∧ a.Touched p ∨ c = a.core ∧ p = page
  | .wait => c ≠ a.core ∧ a.Touched p ∧ (ipi = true ∨ ∃ x ∈ h, x.Remains a.call.op.first p)
  | .ret => False
  | _ => c ≠ a.core ∧ a.Touched p

structure Active.Sane (cores : Nat) (a : Active) : Prop where
  core_lt : a.core < cores
  nonGlobal : a.call.NonGlobal
  i_le : a.i ≤ a.call.op.pages
  touched_lt : ∀ p, a.Touched p → p < 2 ^ 52

namespace Machine

def Stale (m : Machine) (c p : Nat) : Prop := ∃ a ∈ m.active, a.Stale (m.ipi c) (m.handler c) c p

def answered (cores : Nat) (m : Machine) (core : Nat) : Finset Nat :=
  (Finset.range cores).filter fun c => c ≠ core ∧ m.ipi c = false ∧ m.handler c = none

def Published (cores : Nat) (m : Machine) (a : Active) : Prop :=
  match a.phase with
  | .flush _ => a.changed ≠ 0
  | .storeLen => m.shootAddr = a.call.op.addr
  | .storeAck => m.shootAddr = a.call.op.addr ∧ m.shootLen = a.call.op.pages
  | .storeNeed | .send => m.shootAddr = a.call.op.addr ∧ m.shootLen = a.call.op.pages ∧ m.shootAck = 0
  | .wait => m.shootAddr = a.call.op.addr ∧ m.shootLen = a.call.op.pages ∧
      m.shootAck = (m.answered cores a.core).card ∧ (∀ c, m.ipi c = true → c < cores ∧ c ≠ a.core) ∧
      ∀ c, ∀ h ∈ m.handler c, c < cores ∧ c ≠ a.core ∧ m.ipi c = false ∧ h.Reads a.call.op
  | _ => True

structure Coherent (cores : Nat) (m : Machine) : Prop where
  fresh : ∀ c < cores, FreshOff (m.Stale c) (m.tlb c) fun p => (m.table p).translate
  quiet : (∀ a ∈ m.active, a.phase ≠ .wait) → ∀ c, m.ipi c = false ∧ m.handler c = none
  sane : ∀ a ∈ m.active, a.Sane cores
  published : ∀ a ∈ m.active, m.Published cores a
  table_nonGlobal : ∀ p, (m.table p).entry.isGlobal = false
  tlb_nonGlobal : ∀ c < cores, ∀ p, ∀ e ∈ m.tlb c p, e.isGlobal = false

variable {cores : Nat} {m : Machine} {a a' : Active} {c p : Nat}

theorem stale_iff (ha : m.active = some a) : m.Stale c p ↔ a.Stale (m.ipi c) (m.handler c) c p := by
  unfold Stale
  rw [ha]
  simp

theorem of_setActive {P : Active → Prop} (h : P a) : ∀ x ∈ (m.setActive a).active, P x := by
  intro x hx
  obtain rfl := Option.mem_some_iff.mp hx
  exact h

theorem not_stale (ha : m.active = none) : ¬ m.Stale c p := by
  rintro ⟨a, hmem, -⟩
  rw [ha] at hmem
  cases hmem

namespace Coherent

section

variable (h : m.Coherent cores)
include h

theorem agrees (hidle : m.active = none) (hc : c < cores) {e : Entry} (he : m.tlb c p = some e) :
    (m.table p).translate = some e := h.fresh c hc p (not_stale hidle) e he

theorem quiet_of_phase (ha : m.active = some a) (hphase : a.phase ≠ .wait) (c : Nat) :
    m.ipi c = false ∧ m.handler c = none := by
  apply h.quiet
  intro x hx
  rw [ha] at hx
  obtain rfl := Option.mem_some_iff.mp hx
  exact hphase

/-- A step that changes only the call and the shared variables, while no interrupt is under way. -/
theorem move (ha : m.active = some a) (hphase : a.phase ≠ .wait) {addr len ack need : Nat}
    (hstale : ∀ c < cores, ∀ p, a.Stale false none c p → a'.Stale false none c p) (hsane : a'.Sane cores)
    (hpub : Published cores { m with shootAddr := addr, shootLen := len, shootAck := ack, shootNeed := need } a') :
    Coherent cores
      ({ m with shootAddr := addr, shootLen := len, shootAck := ack, shootNeed := need }.setActive a') := by
  have hquiet := h.quiet_of_phase ha hphase
  constructor
  case fresh =>
    intro c hc
    refine (h.fresh c hc).mono fun p hp => ?_
    rw [stale_iff ha, (hquiet c).1, (hquiet c).2] at hp
    refine ⟨a', rfl, ?_⟩
    show a'.Stale (m.ipi c) (m.handler c) c p
    rw [(hquiet c).1, (hquiet c).2]
    exact hstale c hc p hp
  case quiet => exact fun _ => hquiet
  case sane => exact of_setActive hsane
  case published => exact of_setActive hpub
  case table_nonGlobal => exact h.table_nonGlobal
  case tlb_nonGlobal => exact h.tlb_nonGlobal

theorem change (ha : m.active = some a) (hphase : a.phase = .page) (hi : a.i < a.call.op.pages)
    (hlt : a.call.op.first + a.i < 2 ^ 52) {slot : Slot} {frames : List Nat}
    (happly : a.call.op.apply (m.table (a.call.op.first + a.i)) = .ok (slot, frames)) :
    Coherent cores ({ m with table := update m.table (a.call.op.first + a.i) slot }.setActive
      { a with i := a.i + 1, changed := a.changed + 1, freed := a.freed ++ frames,
               phase := .flush (a.call.op.first + a.i) }) := by
  have hquiet := h.quiet_of_phase ha (by rw [hphase]; exact Phase.noConfusion)
  have hsane := h.sane a ha
  constructor
  case fresh =>
    intro c hc
    refine (h.fresh c hc).change (fun p hp => ⟨_, rfl, ?_⟩) fun p hp b hb => ?_
    · rw [stale_iff ha, Active.Stale, hphase] at hp
      obtain ⟨hne, -, hlo, hhi⟩ := hp
      exact .inl ⟨hne, hlo, Nat.lt_succ_of_lt hhi⟩
    · have hne : p ≠ a.call.op.first + a.i := by
        rintro rfl
        apply hp
        refine ⟨_, rfl, ?_⟩
        by_cases hcore : c = a.core
        · exact .inr ⟨hcore, rfl⟩
        · exact .inl ⟨hcore, Nat.le_add_right _ _, Nat.lt_succ_self _⟩
      show (update m.table _ slot p).translate = some b
      rw [update_of_ne hne]
      exact hb
  case quiet => exact fun _ => hquiet
  case sane =>
    refine of_setActive ⟨hsane.core_lt, hsane.nonGlobal, hi, fun p hp => ?_⟩
    have hhi : p < a.call.op.first + (a.i + 1) := hp.2
    omega
  case published => exact of_setActive (Nat.succ_ne_zero _)
  case table_nonGlobal =>
    intro p
    show (update m.table _ slot p).entry.isGlobal = false
    by_cases hp : p = a.call.op.first + a.i
    · rw [hp, update_self]
      exact Call.nonGlobal_apply hsane.nonGlobal happly
    · rw [update_of_ne hp]
      exact h.table_nonGlobal p
  case tlb_nonGlobal => exact h.tlb_nonGlobal

end

theorem setTlb_self (m : Machine) (c : Nat) (t : Nat → Option Entry) : (m.setTlb c t).tlb c = t :=
  update_self ..

theorem setTlb_of_ne (m : Machine) {c d : Nat} (t : Nat → Option Entry) (h : d ≠ c) :
    (m.setTlb c t).tlb d = m.tlb d := update_of_ne h _ _

section

variable (h : m.Coherent cores)
include h

theorem setTlb {t : Nat → Option Entry} (hfresh : FreshOff (m.Stale c) t fun p => (m.table p).translate)
    (hglobal : ∀ p, ∀ e ∈ t p, e.isGlobal = false) : Coherent cores (m.setTlb c t) where
  fresh := by
    intro d hd
    by_cases hdc : d = c
    · rw [hdc, setTlb_self]
      exact hfresh
    · rw [setTlb_of_ne m t hdc]
      exact h.fresh d hd
  __ := h
  tlb_nonGlobal := by
    intro d hd p e he
    by_cases hdc : d = c
    · rw [hdc, setTlb_self] at he
      exact hglobal p e he
    · rw [setTlb_of_ne m t hdc] at he
      exact h.tlb_nonGlobal d hd p e he

theorem fill (hc : c < cores) (page : Nat) :
    Coherent cores (m.setTlb c (update (m.tlb c) page (m.table page).translate)) := by
  apply h.setTlb
  · exact (h.fresh c hc).fill page
  · intro p e he
    by_cases hp : p = page
    · rw [hp, update_self] at he
      rw [← (Slot.translate_eq_some he).1]
      exact h.table_nonGlobal page
    · rw [update_of_ne hp] at he
      exact h.tlb_nonGlobal c hc p e he

theorem nonGlobal_drop (hc : c < cores) (page : Nat) :
    ∀ p, ∀ e ∈ update (m.tlb c) page none p, e.isGlobal = false := by
  intro p e he
  by_cases hp : p = page
  · rw [hp, update_self] at he
    cases he
  · rw [update_of_ne hp] at he
    exact h.tlb_nonGlobal c hc p e he

theorem invlpg (hc : c < cores) (page : Nat) : Coherent cores (m.invlpg c page) :=
  h.setTlb ((h.fresh c hc).drop fun _ _ hp => hp) (h.nonGlobal_drop hc page)

theorem flush (ha : m.active = some a) {page : Nat} (hphase : a.phase = .flush page) :
    Coherent cores ((m.invlpg a.core page).setActive { a with phase := .page }) := by
  have hquiet := h.quiet_of_phase ha (by rw [hphase]; exact Phase.noConfusion)
  have hchanged : a.changed ≠ 0 := by
    have hpub := h.published a ha
    rwa [Published, hphase] at hpub
  have hinv := h.invlpg (h.sane a ha).core_lt page
  constructor
  case fresh =>
    intro c hc
    have hstale : ∀ p, m.Stale c p → c ≠ a.core ∧ a.Touched p ∨ c = a.core ∧ p = page := by
      intro p hp
      rwa [stale_iff ha, Active.Stale, hphase] at hp
    by_cases hcore : c = a.core
    · show FreshOff _ ((m.invlpg a.core page).tlb c) _
      rw [hcore, Machine.invlpg, setTlb_self, ← hcore]
      refine (h.fresh c hc).drop fun p hp hs => ?_
      rcases hstale p hs with ⟨hne, -⟩ | ⟨-, heq⟩
      · exact absurd hcore hne
      · exact absurd heq hp
    · refine (hinv.fresh c hc).mono fun p hp => ⟨_, rfl, ?_⟩
      rcases hstale p hp with ⟨hne, ht⟩ | ⟨heq, -⟩
      · exact ⟨hne, hchanged, ht⟩
      · exact absurd heq hcore
  case quiet => exact fun _ => hquiet
  case sane =>
    have hsane := h.sane a ha
    exact of_setActive { hsane with }
  case published => exact of_setActive trivial
  case table_nonGlobal => exact h.table_nonGlobal
  case tlb_nonGlobal => exact hinv.tlb_nonGlobal

end

end Coherent
end Machine
end Ruos.Paging
