import Mathlib

/-! Demand paging of the Wasmtime window: the registry of `wasm/wt/demand.rs`, the calls of `wasm/wt/platform.rs`
and the page-table updates of `memory/mapper.rs`, split into the steps that other cores can come between. -/
namespace Ruos.Wasm

def page : Nat := 0x1000

def protWrite : Nat := 2

def protExec : Nat := 4

def protRwx : Nat := 7

def wtVmBase : Nat := 0xFFFFD00000000000

structure WtRange where
  base : Nat
  stop : Nat
  prot : Nat
deriving DecidableEq

structure PageTableFlags where
  present : Bool
  writable : Bool
  noExecute : Bool
deriving DecidableEq

structure Entry where
  frame : Nat
  flags : PageTableFlags
deriving DecidableEq

def protToFlags (prot : Nat) : PageTableFlags where
  present := true
  writable := prot &&& protWrite ≠ 0
  noExecute := prot &&& protExec = 0

/-- What is left of a range outside `[base, stop)`. -/
def carve (base stop : Nat) (r : WtRange) : List WtRange :=
  if r.stop ≤ base ∨ stop ≤ r.base then [r]
  else
    (if r.base < base then [⟨r.base, base, r.prot⟩] else []) ++
      (if stop < r.stop then [⟨stop, r.stop, r.prot⟩] else [])

def remove (ranges : List WtRange) (base stop : Nat) : List WtRange :=
  if stop ≤ base then ranges else ranges.flatMap (carve base stop)

def setProt (ranges : List WtRange) (base stop prot : Nat) : List WtRange :=
  if stop ≤ base then ranges else ranges.flatMap (carve base stop) ++ [⟨base, stop, prot⟩]

def lookup (ranges : List WtRange) (addr : Nat) : Option Nat :=
  (ranges.find? fun r => r.base ≤ addr ∧ addr < r.stop).map WtRange.prot

abbrev PageTable := Nat → Option Entry

/-- `set_flags_range`: pages that are not mapped are skipped. -/
def setFlagsRange (pt : PageTable) (first pages : Nat) (flags : PageTableFlags) : PageTable := fun q =>
  if first ≤ q ∧ q < first + pages then (pt q).map fun e => { e with flags := flags } else pt q

def unmapRange (pt : PageTable) (first pages : Nat) : PageTable := fun q =>
  if first ≤ q ∧ q < first + pages then none else pt q

/-- `map_page`, which leaves a page alone that is mapped already. -/
def mapPage (pt : PageTable) (q frame : Nat) (flags : PageTableFlags) : PageTable :=
  match pt q with
  | none => Function.update pt q (some ⟨frame, flags⟩)
  | some _ => pt

inductive Pending
  | idle
  /-- `commit_fault` has looked the protection up. -/
  | found (q prot : Nat)
  /-- `commit_fault` has a zeroed frame and is about to map it. -/
  | framed (q prot frame : Nat)
  /-- `wasmtime_mprotect` has recorded the protection. -/
  | protecting (base pages prot : Nat)
  /-- `wasmtime_mmap_remap` has unmapped the range. -/
  | remapping (base pages prot : Nat)
  /-- `wasmtime_munmap` has unmapped the range. -/
  | unmapping (base pages : Nat)
deriving DecidableEq

/-- `protection` is not kept by the kernel: it is the protection last set for each address. -/
structure Demand where
  next : Nat
  ranges : List WtRange
  table : PageTable
  cores : Nat → Pending
  protection : Nat → Option Nat

def Demand.new : Demand := ⟨wtVmBase, [], fun _ => none, fun _ => .idle, fun _ => none⟩

inductive DemandStep
  | mmapNew (core size prot : Nat)
  | commitFault (core cr2 : Nat)
  | mprotect (core base size prot : Nat)
  | mmapRemap (core base size prot : Nat)
  | munmap (core base size : Nat)
  /-- `commit_fault` gets a frame. -/
  | allocateFrame (core frame : Nat)
  /-- `commit_fault` cannot map its page, for want of a frame for the page table itself. -/
  | mapFails (core : Nat)
  /-- The last step of the call that the core is in. -/
  | finish (core : Nat)

def pagesOf (size : Nat) : Nat := (size + page - 1) % 2 ^ 64 / page

def stopOf (base pages : Nat) : Nat := (base + pages * page) % 2 ^ 64

namespace Demand

def inWindow (s : Demand) (addr : Nat) : Prop := wtVmBase ≤ addr ∧ addr < s.next

instance (s : Demand) (addr : Nat) : Decidable (s.inWindow addr) :=
  inferInstanceAs (Decidable (wtVmBase ≤ addr ∧ addr < s.next))

def goto (s : Demand) (core : Nat) (p : Pending) : Demand := { s with cores := Function.update s.cores core p }

def record (s : Demand) (base pages prot : Nat) : Demand :=
  { s with
    ranges := setProt s.ranges base (stopOf base pages) prot
    protection := fun a => if base ≤ a ∧ a < stopOf base pages then some prot else s.protection a }

def forget (s : Demand) (base pages : Nat) : Demand :=
  { s with
    ranges := remove s.ranges base (stopOf base pages)
    protection := fun a => if base ≤ a ∧ a < stopOf base pages then none else s.protection a }

/-- A call begins on an idle core. The reservation of addresses is part of the registry update that follows it, since
nobody knows the addresses before. -/
def start (s : Demand) (core : Nat) : DemandStep → Option Demand
  | .mmapNew _ size prot =>
    let s' := s.record s.next (pagesOf size) prot
    some { s' with next := stopOf s.next (pagesOf size) }
  | .commitFault _ cr2 =>
    if s.inWindow cr2 then
      match lookup s.ranges cr2 with
      | some prot => if prot &&& protRwx ≠ 0 then some (s.goto core (.found (cr2 / page) prot)) else some s
      | none => some s
    else some s
  | .mprotect _ base size prot =>
    some ((s.record base (pagesOf size) prot).goto core (.protecting base (pagesOf size) prot))
  | .mmapRemap _ base size prot =>
    some ({ s with table := unmapRange s.table (base / page) (pagesOf size) }.goto core
      (.remapping base (pagesOf size) prot))
  | .munmap _ base size =>
    some ({ s with table := unmapRange s.table (base / page) (pagesOf size) }.goto core
      (.unmapping base (pagesOf size)))
  | _ => none

def finish (s : Demand) (core : Nat) : Option Demand :=
  match s.cores core with
  | .framed q prot frame => some ({ s with table := mapPage s.table q frame (protToFlags prot) }.goto core .idle)
  | .protecting base pages prot =>
    some ({ s with table := setFlagsRange s.table (base / page) pages (protToFlags prot) }.goto core .idle)
  | .remapping base pages prot => some ((s.record base pages prot).goto core .idle)
  | .unmapping base pages => some ((s.forget base pages).goto core .idle)
  | _ => none

/-- `none` if the core is not at that point. -/
def step (s : Demand) (e : DemandStep) : Option Demand :=
  match e with
  | .mmapNew core _ _ | .commitFault core _ | .mprotect core _ _ _ | .mmapRemap core _ _ _ | .munmap core _ _ =>
    if s.cores core = .idle then s.start core e else none
  | .allocateFrame core frame =>
    match s.cores core with
    | .found q prot => some (s.goto core (.framed q prot frame))
    | _ => none
  | .mapFails core =>
    match s.cores core with
    | .framed _ _ _ => some (s.goto core .idle)
    | _ => none
  | .finish core => s.finish core

end Demand

end Ruos.Wasm
