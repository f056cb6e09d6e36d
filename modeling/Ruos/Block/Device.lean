import Ruos.Lib.Memory
import Ruos.Lib.Refine

/-! Block devices and partition views of them (`blockdev.rs`). -/
namespace Ruos.Block

open Lib

inductive BlockError where
  | io
  | outOfRange
  | badAlignment
  | timeout
  deriving DecidableEq, Repr

/-- `readBlocks lba len` fills a buffer of `len` bytes. -/
class BlockDevice (D : Type) where
  blockSize : D → Nat
  blockCount : D → Nat
  readBlocks : (lba len : Nat) → EStateM BlockError D (List UInt8)
  writeBlocks : (lba : Nat) → (buf : List UInt8) → EStateM BlockError D Unit

open BlockDevice

/-- A device of 512-byte blocks that fails only outside its first `blocks` blocks. `mem` is
what it stores; `frame d d'` says that a device has only changed inside its store. -/
class ErrorFree (D : Type) [BlockDevice D] where
  mem : D → Mem
  blocks : D → Nat
  frame : D → D → Prop
  frame_refl : ∀ d, frame d d
  frame_trans : ∀ {d d' d'' : D}, frame d d' → frame d' d'' → frame d d''
  blocks_lt : ∀ d, blocks d < 2 ^ 64
  frame_blocks : ∀ {d d' : D}, frame d d' → blocks d' = blocks d
  frame_count : ∀ {d d' : D}, frame d d' → blockCount d' = blockCount d
  blockSize_eq : ∀ d : D, blockSize d = 512
  read_ok : ∀ {d : D} {lba n : Nat}, 0 < n → lba + n ≤ blocks d →
    readBlocks lba (512 * n) d = .ok ((mem d).read (512 * lba) (512 * n)) d
  read_error : ∀ {d : D} {lba n : Nat}, 0 < n → blocks d < lba + n → ∃ e, readBlocks lba (512 * n) d = .error e d
  write_ok : ∀ {d : D} {lba n : Nat} {buf : List UInt8}, 0 < n → buf.length = 512 * n → lba + n ≤ blocks d →
    ∃ d', writeBlocks lba buf d = .ok () d' ∧ mem d' = (mem d).write (512 * lba) buf ∧ frame d d'
  write_error : ∀ {d : D} {lba n : Nat} {buf : List UInt8}, 0 < n → buf.length = 512 * n → blocks d < lba + n →
    ∃ e, writeBlocks lba buf d = .error e d

section

variable {D : Type} [BlockDevice D] [ErrorFree D] {d₀ : D} {m : Mem} {lba n : Nat}

open ErrorFree

/-- A device that differs from `d₀` in its store only, which is `m`. -/
def Stored (d₀ d : D) (m : Mem) : Prop := frame d₀ d ∧ mem d = m

theorem stored_self (d : D) : Stored d d (mem d) := ⟨frame_refl d, rfl⟩

theorem runs_read (hn : 0 < n) (h : lba + n ≤ blocks d₀) :
    Runs (Stored d₀) (readBlocks lba (512 * n)) m (.ok (m.read (512 * lba) (512 * n))) m := by
  rintro d ⟨hf, rfl⟩
  exact ⟨d, read_ok hn (by rwa [frame_blocks hf]), hf, rfl⟩

theorem runs_write {buf : List UInt8} (hn : 0 < n) (hlen : buf.length = 512 * n) (h : lba + n ≤ blocks d₀) :
    Runs (Stored d₀) (writeBlocks lba buf) m (.ok ()) (m.write (512 * lba) buf) := by
  rintro d ⟨hf, rfl⟩
  obtain ⟨d', hw, hmem, hf'⟩ := write_ok hn hlen (by rwa [frame_blocks hf])
  exact ⟨d', hw, frame_trans hf hf', hmem⟩

theorem runs_read_error {ε : Type} {e : ε} (hn : 0 < n) (h : blocks d₀ < lba + n) :
    Runs (Stored d₀) (mapErr (fun _ => e) (readBlocks lba (512 * n))) m (.error e) m := by
  rintro d ⟨hf, rfl⟩
  obtain ⟨e', he⟩ := read_error hn (by rwa [frame_blocks hf] : blocks d < lba + n)
  exact ⟨d, by simp only [mapErr, he, outcome_error], hf, rfl⟩

end

/-! A disk in memory -/

structure MemDisk where
  count : Nat
  count_lt : count < 2 ^ 64
  bytes : Mem

namespace MemDisk

def check (d : MemDisk) (lba len : Nat) : Except BlockError Unit :=
  if len % 512 ≠ 0 then .error .badAlignment
  else if d.count < lba + len / 512 then .error .outOfRange
  else .ok ()

instance : BlockDevice MemDisk where
  blockSize _ := 512
  blockCount d := d.count
  readBlocks lba len d :=
    match d.check lba len with
    | .error e => .error e d
    | .ok () => .ok (d.bytes.read (512 * lba) len) d
  writeBlocks lba buf d :=
    match d.check lba buf.length with
    | .error e => .error e d
    | .ok () => .ok () { d with bytes := d.bytes.write (512 * lba) buf }

theorem check_ok {d : MemDisk} {lba n : Nat} (h : lba + n ≤ d.count) : d.check lba (512 * n) = .ok () := by
  rw [check, if_neg (by omega), if_neg (by omega)]

theorem check_error {d : MemDisk} {lba n : Nat} (h : d.count < lba + n) :
    d.check lba (512 * n) = .error .outOfRange := by
  have hdiv : 512 * n / 512 = n := by omega
  rw [check, if_neg (by omega), hdiv, if_pos h]

instance : ErrorFree MemDisk where
  mem d := d.bytes
  blocks d := d.count
  frame d d' := d'.count = d.count
  frame_refl _ := rfl
  frame_trans h h' := h'.trans h
  blocks_lt d := d.count_lt
  frame_blocks h := h
  frame_count h := h
  blockSize_eq _ := rfl
  read_ok _ h := by simp [readBlocks, check_ok h]
  read_error _ h := ⟨.outOfRange, by simp [readBlocks, check_error h]⟩
  write_ok {d lba n buf} _ hlen h :=
    ⟨{ d with bytes := d.bytes.write (512 * lba) buf }, by simp only [writeBlocks, hlen, check_ok h], rfl, rfl⟩
  write_error _ hlen h := ⟨.outOfRange, by simp only [writeBlocks, hlen, check_error h]⟩

end MemDisk

/-- A view of `count` blocks from `base` on; `PartitionDevice` computes the same. -/
structure PartBorrow (D : Type) where
  inner : D
  base : Nat
  count : Nat

namespace PartBorrow

variable {D : Type} {α : Type}

def onInner (x : EStateM BlockError D α) : EStateM BlockError (PartBorrow D) α := fun p =>
  match x p.inner with
  | .ok a d => .ok a { p with inner := d }
  | .error e d => .error e { p with inner := d }

variable {x : EStateM BlockError D α} {p : PartBorrow D}

theorem onInner_ok {a : α} {d : D} (h : x p.inner = .ok a d) : onInner x p = .ok a { p with inner := d } := by
  simp only [onInner, h]

theorem onInner_error {e : BlockError} {d : D} (h : x p.inner = .error e d) :
    onInner x p = .error e { p with inner := d } := by
  simp only [onInner, h]

variable [BlockDevice D]

/-- The block of the underlying device, if the request stays inside the view. -/
def phys (p : PartBorrow D) (lba len : Nat) : Except BlockError Nat :=
  let n := len / blockSize p.inner
  if 2 ^ 64 ≤ lba + n ∨ p.count < lba + n then .error .outOfRange
  else if 2 ^ 64 ≤ p.base + lba then .error .outOfRange
  else .ok (p.base + lba)

instance : BlockDevice (PartBorrow D) where
  blockSize p := blockSize p.inner
  blockCount p := p.count
  readBlocks lba len p :=
    match p.phys lba len with
    | .error e => .error e p
    | .ok lba' => onInner (readBlocks lba' len) p
  writeBlocks lba buf p :=
    match p.phys lba buf.length with
    | .error e => .error e p
    | .ok lba' => onInner (writeBlocks lba' buf) p

variable [ErrorFree D]

open ErrorFree

def visible (p : PartBorrow D) : Nat :=
  min p.count (blocks p.inner - p.base)

theorem phys_ok {lba n : Nat} (hn : 0 < n) (h : lba + n ≤ p.visible) :
    p.phys lba (512 * n) = .ok (p.base + lba) ∧ p.base + lba + n ≤ blocks p.inner := by
  have hlt := blocks_lt p.inner
  simp only [visible] at h
  rw [phys, blockSize_eq, if_neg (by omega), if_neg (by omega)]
  exact ⟨rfl, by omega⟩

theorem phys_error {lba n : Nat} (hn : 0 < n) (h : p.visible < lba + n) : (∃ e, p.phys lba (512 * n) = .error e) ∨
      p.phys lba (512 * n) = .ok (p.base + lba) ∧ blocks p.inner < p.base + lba + n := by
  simp only [visible] at h
  rw [phys, blockSize_eq]
  split_ifs with hcount hbase
  · exact .inl ⟨_, rfl⟩
  · exact .inl ⟨_, rfl⟩
  · exact .inr ⟨rfl, by omega⟩

/-- A view changes only the store behind it, and there nothing outside its own blocks. -/
def Frame (p p' : PartBorrow D) : Prop :=
  p'.base = p.base ∧ p'.count = p.count ∧ frame p.inner p'.inner ∧
    ∀ a, ¬ (512 * p.base ≤ a ∧ a < 512 * (p.base + p.count)) → mem p'.inner a = mem p.inner a

instance : ErrorFree (PartBorrow D) where
  mem p := (mem p.inner).shift (512 * p.base)
  blocks := visible
  frame := Frame
  frame_refl p := ⟨rfl, rfl, frame_refl _, fun _ _ => rfl⟩
  frame_trans := by
    rintro p p' p'' ⟨hb, hc, hf, hm⟩ ⟨hb', hc', hf', hm'⟩
    refine ⟨hb'.trans hb, hc'.trans hc, frame_trans hf hf', fun a ha => ?_⟩
    rw [hm' a (by rwa [hb, hc]), hm a ha]
  blocks_lt p := by
    have hlt := blocks_lt p.inner
    simp only [visible]
    omega
  frame_blocks := by
    rintro p p' ⟨hb, hc, hf, -⟩
    rw [visible, visible, hb, hc, frame_blocks hf]
  frame_count h := h.2.1
  blockSize_eq p := blockSize_eq p.inner
  read_ok {p lba n} hn h := by
    obtain ⟨hphys, hin⟩ := phys_ok hn h
    have haddr : 512 * (p.base + lba) = 512 * p.base + 512 * lba := by ring
    simp only [readBlocks, hphys]
    rw [onInner_ok (read_ok hn hin), haddr, Mem.read_shift]
  read_error {p lba n} hn h := by
    rcases phys_error hn h with ⟨e, hphys⟩ | ⟨hphys, hout⟩
    · exact ⟨e, by simp only [readBlocks, hphys]⟩
    · obtain ⟨e, he⟩ := read_error hn hout
      refine ⟨e, ?_⟩
      simp only [readBlocks, hphys]
      rw [onInner_error he]
  write_ok {p lba n buf} hn hlen h := by
    obtain ⟨hphys, hin⟩ := phys_ok hn h
    have haddr : 512 * (p.base + lba) = 512 * p.base + 512 * lba := by ring
    obtain ⟨d', hw, hmem, hf⟩ := write_ok hn hlen hin
    refine ⟨{ p with inner := d' }, ?_, ?_, rfl, rfl, hf, fun a ha => ?_⟩
    · simp only [writeBlocks, hlen, hphys]
      rw [onInner_ok hw]
    · rw [hmem, haddr, Mem.shift_write]
    · have hcount : lba + n ≤ p.count := by
        simp only [visible] at h
        omega
      rw [hmem, Mem.write_of_outside]
      omega
  write_error {p lba n buf} hn hlen h := by
    rcases phys_error hn h with ⟨e, hphys⟩ | ⟨hphys, hout⟩
    · exact ⟨e, by simp only [writeBlocks, hlen, hphys]⟩
    · obtain ⟨e, he⟩ := write_error hn hlen hout
      refine ⟨e, ?_⟩
      simp only [writeBlocks, hlen, hphys]
      rw [onInner_error he]

end PartBorrow

/-! Recording the writes -/

/-- A device that records the first block and the number of blocks of every write it does. -/
structure Traced (D : Type) where
  dev : D
  log : List (Nat × Nat)

namespace Traced

variable {D : Type} [BlockDevice D]

/-- A request on the device, with what is added to the record if it is done. -/
def request {α : Type} (x : EStateM BlockError D α) (entries : List (Nat × Nat)) : EStateM BlockError (Traced D) α :=
  fun t =>
    match x t.dev with
    | .ok a d => .ok a { dev := d, log := t.log ++ entries }
    | .error e d => .error e { t with dev := d }

instance : BlockDevice (Traced D) where
  blockSize t := blockSize t.dev
  blockCount t := blockCount t.dev
  readBlocks lba len := request (readBlocks lba len) []
  writeBlocks lba buf := request (writeBlocks lba buf) [(lba, buf.length / 512)]

variable [ErrorFree D]

open ErrorFree

/-- Since `t`, only blocks of the device were written. -/
def Inside (t t' : Traced D) : Prop :=
  frame t.dev t'.dev ∧ ∀ w ∈ t'.log, w ∈ t.log ∨ w.1 + w.2 ≤ blocks t.dev

theorem Inside.trans {t t' t'' : Traced D} (h : Inside t t') (h' : Inside t' t'') : Inside t t'' := by
  refine ⟨frame_trans h.1 h'.1, fun w hw => ?_⟩
  rcases h'.2 w hw with hold | hin
  · exact h.2 w hold
  · rw [frame_blocks h.1] at hin
    exact .inr hin

instance : ErrorFree (Traced D) where
  mem t := mem t.dev
  blocks t := blocks t.dev
  frame := Inside
  frame_refl t := ⟨frame_refl t.dev, fun _ hw => Or.inl hw⟩
  frame_trans := Inside.trans
  blocks_lt t := blocks_lt t.dev
  frame_blocks h := frame_blocks h.1
  frame_count {t t'} h := by
    have hcount := frame_count h.1
    exact hcount
  blockSize_eq t := blockSize_eq t.dev
  read_ok {t lba n} hn h := by
    simp [readBlocks, request, read_ok hn h]
  read_error {t lba n} hn h := by
    obtain ⟨e, he⟩ := read_error hn h
    exact ⟨e, by simp only [readBlocks, request, he]⟩
  write_ok {t lba n buf} hn hlen h := by
    obtain ⟨d', hw, hmem, hf⟩ := write_ok hn hlen h
    refine ⟨{ dev := d', log := t.log ++ [(lba, buf.length / 512)] }, ?_, hmem, hf, fun w hw => ?_⟩
    · simp only [writeBlocks, request, hw]
    · have hdiv : 512 * n / 512 = n := by omega
      rcases List.mem_append.mp hw with hold | hnew
      · exact Or.inl hold
      · rw [List.mem_singleton.mp hnew, hlen, hdiv]
        exact Or.inr h
  write_error {t lba n buf} hn hlen h := by
    obtain ⟨e, he⟩ := write_error hn hlen h
    exact ⟨e, by simp only [writeBlocks, request, he]⟩

end Traced
end Ruos.Block
