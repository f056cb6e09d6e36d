import Ruos.Lib.Bitmap

/-! The bitmap allocator of physical frames, `memory/frames.rs`, the part of `memory/heap.rs` that says which range of
physical memory the kernel heap owns, and what each operation does to the set of free frames and to the counter. -/
namespace Ruos.Memory

open Lib

def pageSize : Nat := 4096

def heapSize : Nat := 768 * 1024 * 1024

def memmapUsable : Nat := 0

/-- An entry of the boot memory map: a range of addresses, its end also one, and its type. -/
structure MemmapEntry where
  base : Nat
  length : Nat
  type : Nat
  fits : base + length < 2 ^ 64

structure HeapInfo where
  physBase : Nat
  size : Nat

/-- A frame given by its number. `PhysAddr::new` panics on an address of more than 52 bits. -/
structure PhysFrame where
  number : Nat
  fits : pageSize * number < 2 ^ 52
deriving DecidableEq

structure FrameCounts where
  total : Nat
  used : Nat
  free : Nat
deriving DecidableEq

inductive FrameInitError
  | noMemoryMap
  | noUsableRegion
deriving DecidableEq

/-- One bit for each frame below `total`, set if the frame is in use. -/
structure Frames where
  bitmap : List (BitVec 64)
  total : Nat
  used : Nat
  sized : bitmap.length = (total + 63) / 64
  bounded : total < 2 ^ 52

namespace Frames

def new (total : Nat) (bounded : total < 2 ^ 52) : Frames where
  bitmap := List.replicate ((total + 63) / 64) (BitVec.allOnes 64)
  total := total
  used := total
  sized := List.length_replicate
  bounded := bounded

def isFree (fs : Frames) (frame : Nat) : Bool := !Bitmap.bit fs.bitmap frame

/-- Set the bits of `n` frames from `start` on and count them. -/
def take (fs : Frames) (start n : Nat) : Frames where
  bitmap := Bitmap.setRange fs.bitmap start n
  total := fs.total
  used := fs.used + n
  sized := by rw [Bitmap.length_setRange, fs.sized]
  bounded := fs.bounded

def markUsed (fs : Frames) (frame : Nat) : Frames :=
  if fs.total ≤ frame then fs
  else if fs.isFree frame then fs.take frame 1
  else fs

def markFree (fs : Frames) (frame : Nat) : Frames :=
  if fs.total ≤ frame then fs
  else if fs.isFree frame then fs
  else
    { bitmap := Bitmap.clear fs.bitmap frame
      total := fs.total
      used := fs.used - 1
      sized := by rw [Bitmap.length_clear, fs.sized]
      bounded := fs.bounded }

def counts (fs : Frames) : FrameCounts := ⟨fs.total, fs.used, fs.total - fs.used⟩

/-- `none` where the kernel panics. -/
def containing (frame : Nat) : Option PhysFrame :=
  if h : pageSize * frame < 2 ^ 52 then some ⟨frame, h⟩ else none

/-- The scan of `allocate_contiguous` over the `rest` frames from `f` on, of which the last `run` before `f` are
free and start at `start`. -/
def scanRun (fs : Frames) (n : Nat) : (rest f start run : Nat) → Option Nat
  | 0, _, _, _ => none
  | rest + 1, f, start, run =>
    if fs.isFree f then
      let start := if run = 0 then f else start
      if run + 1 = n then some start else scanRun fs n rest (f + 1) start (run + 1)
    else scanRun fs n rest (f + 1) start 0

/-- `none` where the kernel panics, `some (none, _)` where the source returns `None`. -/
def allocateContiguous (fs : Frames) (n : Nat) : Option (Option PhysFrame × Frames) :=
  if n = 0 then some (none, fs)
  else
    match fs.scanRun n fs.total 0 0 0 with
    | none => some (none, fs)
    | some start => (containing start).map fun first => (some first, fs.take start n)

def allocateFrame (fs : Frames) : Option (Option PhysFrame × Frames) :=
  match Bitmap.firstClear fs.bitmap with
  | none => some (none, fs)
  | some frame =>
    if fs.total ≤ frame then some (none, fs)
    else (containing frame).map fun p => (some p, fs.take frame 1)

/-- The frames `first..last` in order. -/
def each (f : Frames → Nat → Frames) (fs : Frames) (first last : Nat) : Frames :=
  (List.range' first (last - first)).foldl f fs

def freeContiguous (fs : Frames) (first : PhysFrame) (n : Nat) : Frames :=
  fs.each markFree first.number ((first.number + n) % 2 ^ 64)

def deallocateFrame (fs : Frames) (frame : PhysFrame) : Frames := fs.markFree frame.number

end Frames

/-- The region that `init_heap` records: the base of the first usable entry that is large enough. `claimed` says
whether the heap could be set up there at all. -/
def heapRegion (memmap : List MemmapEntry) (claimed : Bool) : Option HeapInfo :=
  if claimed then
    (memmap.find? fun e => e.type = memmapUsable ∧ heapSize ≤ e.length).map fun e => ⟨e.base, heapSize⟩
  else none

def usableEntries (memmap : List MemmapEntry) : List MemmapEntry := memmap.filter fun e => e.type = memmapUsable

def maxPhys (memmap : List MemmapEntry) : Nat :=
  (usableEntries memmap).foldl (fun top e => max top (e.base + e.length)) 0

def totalFrames (memmap : List MemmapEntry) : Nat := (maxPhys memmap + pageSize - 1) % 2 ^ 64 / pageSize

theorem totalFrames_lt (memmap : List MemmapEntry) : totalFrames memmap < 2 ^ 52 := by
  unfold totalFrames pageSize
  omega

def freeEntry (fs : Frames) (e : MemmapEntry) : Frames :=
  fs.each Frames.markFree ((e.base + pageSize - 1) % 2 ^ 64 / pageSize) ((e.base + e.length) / pageSize)

def reserveHeap (fs : Frames) (info : HeapInfo) : Frames :=
  fs.each Frames.markUsed (info.physBase / pageSize) ((info.physBase + info.size + pageSize - 1) % 2 ^ 64 / pageSize)

def init (memmap : Option (List MemmapEntry)) (heap : Option HeapInfo) :
    Except FrameInitError (FrameCounts × Frames) :=
  match memmap with
  | none => .error .noMemoryMap
  | some memmap =>
    if usableEntries memmap = [] then .error .noUsableRegion
    else
      let fs := (usableEntries memmap).foldl freeEntry (Frames.new (totalFrames memmap) (totalFrames_lt memmap))
      let fs := match heap with
        | some info => reserveHeap fs info
        | none => fs
      .ok (fs.counts, fs)

open Bitmap Nat

def FreeRun (fs : Frames) (n : Nat) : Prop :=
  ∃ start, start + n ≤ fs.total ∧ ∀ f, start ≤ f → f < start + n → fs.isFree f = true

/-- The counter is right, and the bits past the last frame are all set. -/
structure Frames.Counted (fs : Frames) : Prop where
  used : fs.used = Bitmap.count fs.bitmap fs.total
  tail : ∀ f, fs.total ≤ f → fs.isFree f = false

namespace Frames

variable {fs : Frames} {f : Nat}

theorem isFree_eq_true : fs.isFree f = true ↔ Bitmap.bit fs.bitmap f = false := by
  simp [isFree]

theorem isFree_eq_false : fs.isFree f = false ↔ Bitmap.bit fs.bitmap f = true := by
  simp [isFree]

theorem Counted.lt_of_free (hc : fs.Counted) (hf : fs.isFree f = true) : f < fs.total := by
  by_contra h
  have := hc.tail f (by omega)
  simp [hf] at this

theorem word_lt (fs : Frames) (hf : f < fs.total) : f / 64 < fs.bitmap.length := by
  have := fs.sized
  omega

theorem isFree_new (total : Nat) (h : total < 2 ^ 52) (f : Nat) : (new total h).isFree f = false :=
  isFree_eq_false.mpr (Bitmap.bit_replicate_allOnes _ f (by decide))

theorem counted_new (total : Nat) (h : total < 2 ^ 52) : (new total h).Counted where
  used := by
    refine (count_of_all fun f _ => ?_).symm
    exact isFree_eq_false.mp (isFree_new total h f)
  tail := fun f _ => isFree_new total h f

theorem isFree_take (fs : Frames) (start n f : Nat) :
    (fs.take start n).isFree f = true ↔ fs.isFree f = true ∧ ¬ (start ≤ f ∧ f < start + n) := by
  simp [isFree_eq_true, take, bit_setRange fs.bitmap (show 0 < 64 by decide)]

theorem Counted.take (hc : fs.Counted) {start n : Nat} (hn : start + n ≤ fs.total)
    (hfree : ∀ f, start ≤ f → f < start + n → fs.isFree f = true) : (fs.take start n).Counted where
  used := by
    have hset := count_setRange (show 0 < 64 by decide) hn fun f hlo hhi =>
      isFree_eq_true.mp (hfree f hlo hhi)
    change fs.used + n = count (setRange fs.bitmap start n) fs.total
    rw [hset, hc.used]
  tail := by
    intro f hf
    by_contra h
    have := ((isFree_take fs start n f).mp (by simpa using h)).1
    rw [hc.tail f hf] at this
    cases this

theorem isFree_markUsed (hc : fs.Counted) (frame f : Nat) :
    (fs.markUsed frame).isFree f = true ↔ fs.isFree f = true ∧ f ≠ frame := by
  unfold markUsed
  by_cases hlt : fs.total ≤ frame
  · have := hc.tail frame hlt
    grind
  · rw [if_neg hlt]
    by_cases hfree : fs.isFree frame = true
    · rw [if_pos hfree, isFree_take]
      constructor
      · intro h
        exact ⟨h.1, by omega⟩
      · intro h
        exact ⟨h.1, by omega⟩
    · grind

@[simp] theorem total_markUsed (fs : Frames) (frame : Nat) : (fs.markUsed frame).total = fs.total := by
  unfold markUsed
  split
  · rfl
  · split <;> rfl

theorem Counted.markUsed (hc : fs.Counted) (frame : Nat) : (fs.markUsed frame).Counted := by
  unfold Frames.markUsed
  split
  · exact hc
  · split
    · rename_i hfree
      apply hc.take (by omega)
      intro f hlo hhi
      have : f = frame := by omega
      exact this ▸ hfree
    · exact hc

theorem isFree_markFree (fs : Frames) (frame f : Nat) :
    (fs.markFree frame).isFree f = true ↔ fs.isFree f = true ∨ (f = frame ∧ frame < fs.total) := by
  unfold markFree
  by_cases hlt : fs.total ≤ frame
  · rw [if_pos hlt]
    have : ¬ (f = frame ∧ frame < fs.total) := by omega
    simp [this]
  · rw [if_neg hlt]
    by_cases hfree : fs.isFree frame = true
    · grind
    · rw [if_neg hfree]
      have hlt : frame < fs.total := by omega
      simp only [isFree, bit_clear (show 0 < 64 by decide) (fs.word_lt hlt)]
      simp [hlt]

@[simp] theorem total_markFree (fs : Frames) (frame : Nat) : (fs.markFree frame).total = fs.total := by
  unfold markFree
  split
  · rfl
  · split <;> rfl

theorem Counted.markFree (hc : fs.Counted) (frame : Nat) : (fs.markFree frame).Counted := by
  refine ⟨?_, ?_⟩
  · unfold Frames.markFree
    split
    · exact hc.used
    · split
      · exact hc.used
      · rename_i hfree
        have hset : bit fs.bitmap frame = true := by simpa [isFree] using hfree
        have hclear := count_clear (show 0 < 64 by decide) (show frame < fs.total by omega)
          (fs.word_lt (by omega)) hset
        rw [hc.used, hclear, Nat.add_sub_cancel]
  · intro f hf
    rw [total_markFree] at hf
    by_contra h
    rcases (isFree_markFree fs frame f).mp (by simpa using h) with hold | ⟨rfl, hlt⟩
    · rw [hc.tail f hf] at hold
      cases hold
    · omega

theorem each_of_le (g : Frames → Nat → Frames) (fs : Frames) {first last : Nat} (h : last ≤ first) :
    fs.each g first last = fs := by
  unfold each
  rw [Nat.sub_eq_zero_of_le h]
  rfl

theorem each_succ (g : Frames → Nat → Frames) (fs : Frames) {first last : Nat} (h : first ≤ last) :
    fs.each g first (last + 1) = g (fs.each g first last) last := by
  unfold each
  rw [Nat.succ_sub h, List.range'_concat, List.foldl_append, Nat.one_mul, Nat.add_sub_cancel' h]
  rfl

theorem each_induction {g : Frames → Nat → Frames} {P : Nat → Frames → Prop} {first : Nat}
    (h0 : ∀ k ≤ first, P k fs) (hstep : ∀ f fs', first ≤ f → P f fs' → P (f + 1) (g fs' f)) (last : Nat) :
    P last (fs.each g first last) := by
  rcases le_total last first with hle | hle
  · rw [each_of_le g fs hle]
    exact h0 last hle
  · induction last, hle using le_induction with
    | base =>
      rw [each_of_le g fs (le_refl first)]
      exact h0 first (le_refl first)
    | succ last hle ih =>
      rw [each_succ g fs hle]
      exact hstep last _ hle ih

theorem each_markFree (hc : fs.Counted) (first last : Nat) :
    (fs.each markFree first last).Counted ∧ (fs.each markFree first last).total = fs.total ∧
      ∀ f, (fs.each markFree first last).isFree f = true ↔
        fs.isFree f = true ∨ (first ≤ f ∧ f < last ∧ f < fs.total) := by
  refine each_induction (P := fun k fs' => fs'.Counted ∧ fs'.total = fs.total ∧
    ∀ f, fs'.isFree f = true ↔ fs.isFree f = true ∨ (first ≤ f ∧ f < k ∧ f < fs.total)) ?_ ?_ last
  · refine fun k hk => ⟨hc, rfl, fun f => ?_⟩
    have : ¬ (first ≤ f ∧ f < k ∧ f < fs.total) := by omega
    simp [this]
  · intro k fs' hk hP
    obtain ⟨hc', htot, hfree⟩ := hP
    refine ⟨hc'.markFree k, by rw [total_markFree, htot], fun f => ?_⟩
    rw [isFree_markFree, hfree f, or_assoc]
    apply or_congr_right
    omega

theorem each_markUsed (hc : fs.Counted) (first last : Nat) :
    (fs.each markUsed first last).Counted ∧ (fs.each markUsed first last).total = fs.total ∧
      ∀ f, (fs.each markUsed first last).isFree f = true ↔ fs.isFree f = true ∧ ¬ (first ≤ f ∧ f < last) := by
  refine each_induction (P := fun k fs' => fs'.Counted ∧ fs'.total = fs.total ∧
    ∀ f, fs'.isFree f = true ↔ fs.isFree f = true ∧ ¬ (first ≤ f ∧ f < k)) ?_ ?_ last
  · refine fun k hk => ⟨hc, rfl, fun f => ?_⟩
    have : ¬ (first ≤ f ∧ f < k) := by omega
    simp [this]
  · intro k fs' hk hP
    obtain ⟨hc', htot, hfree⟩ := hP
    refine ⟨hc'.markUsed k, by rw [total_markUsed, htot], fun f => ?_⟩
    rw [isFree_markUsed hc', hfree f, and_assoc]
    apply and_congr_right'
    omega

/-- The loop invariant of `allocate_contiguous`: no run of `n` free frames ends at `f` or before, and exactly the
last `run` frames before `f` are free. -/
structure Scanned (fs : Frames) (n f start run : Nat) : Prop where
  short : run < n
  le : run ≤ f
  start_eq : 0 < run → start + run = f
  free : ∀ g, f ≤ g + run → g < f → fs.isFree g = true
  stop : run < f → fs.isFree (f - run - 1) = false
  none_before : ∀ s, s + n ≤ f → ¬ ∀ g, s ≤ g → g < s + n → fs.isFree g = true

theorem Scanned.step_free {n f start run : Nat} (h : Scanned fs n f start run) (hf : fs.isFree f = true)
    (hne : run + 1 ≠ n) : Scanned fs n (f + 1) (if run = 0 then f else start) (run + 1) where
  short := by
    have := h.short
    omega
  le := by
    have := h.le
    omega
  start_eq := by
    split
    · omega
    · have := h.start_eq (by omega)
      omega
  free := by
    intro g hlo hhi
    by_cases hg : g = f
    · exact hg ▸ hf
    · exact h.free g (by omega) (by omega)
  stop := by
    intro hlt
    have hstop := h.stop (by omega)
    rwa [show f + 1 - (run + 1) - 1 = f - run - 1 by omega]
  none_before := by
    intro s hs hall
    by_cases hlt : s + n ≤ f
    · exact h.none_before s hlt hall
    · have hshort := h.short
      have := h.stop (by omega)
      rw [hall (f - run - 1) (by omega) (by omega)] at this
      cases this

theorem Scanned.step_used {n f start run : Nat} (h : Scanned fs n f start run) (hf : fs.isFree f = false) :
    Scanned fs n (f + 1) start 0 where
  short := by
    have := h.short
    omega
  le := zero_le _
  start_eq := fun h => absurd h (lt_irrefl 0)
  free := by
    omega
  stop := fun _ => hf
  none_before := by
    intro s hs hall
    by_cases hlt : s + n ≤ f
    · exact h.none_before s hlt hall
    · have hshort := h.short
      rw [hall f (by omega) (by omega)] at hf
      cases hf

theorem scanRun_spec {n rest f start run : Nat} (h : Scanned fs n f start run) :
    match fs.scanRun n rest f start run with
    | some first => first + n ≤ f + rest ∧ ∀ g, first ≤ g → g < first + n → fs.isFree g = true
    | none => ∀ s, s + n ≤ f + rest → ¬ ∀ g, s ≤ g → g < s + n → fs.isFree g = true := by
  induction rest generalizing f start run with
  | zero => exact h.none_before
  | succ rest ih =>
    unfold scanRun
    by_cases hf : fs.isFree f = true
    · rw [if_pos hf]
      by_cases hn : run + 1 = n
      · have hstart : (if run = 0 then f else start) + run = f := by
          split
          · omega
          · exact h.start_eq (by omega)
        simp only [hn, if_true]
        refine ⟨by omega, fun g hlo hhi => ?_⟩
        by_cases hg : g = f
        · exact hg ▸ hf
        · exact h.free g (by omega) (by omega)
      · have := ih (h.step_free hf hn)
        rw [Nat.add_right_comm, Nat.add_assoc] at this
        simpa only [hn, if_false] using this
    · have := ih (h.step_used (by simpa using hf))
      rw [Nat.add_right_comm] at this
      rwa [if_neg hf]

variable {n : Nat}

theorem scanRun_total (hn : 0 < n) : match fs.scanRun n fs.total 0 0 0 with
    | some first => first + n ≤ fs.total ∧ ∀ g, first ≤ g → g < first + n → fs.isFree g = true
    | none => ¬ FreeRun fs n := by
  have hscan : Scanned fs n 0 0 0 :=
    ⟨hn, le_refl 0, fun h => absurd h (lt_irrefl 0), fun g _ hg => absurd hg (not_lt_zero g),
      fun h => absurd h (lt_irrefl 0), fun s hs => absurd hs (by omega)⟩
  have hspec := @scanRun_spec fs n fs.total 0 0 0 hscan
  rw [zero_add] at hspec
  split
  · rename_i first hfirst
    rwa [hfirst] at hspec
  · rename_i hnone
    rw [hnone] at hspec
    intro hrun
    obtain ⟨start, hle, hfree⟩ := hrun
    exact hspec start hle hfree

theorem containing_eq_some {frame : Nat} {p : PhysFrame} (h : containing frame = some p) : p.number = frame := by
  unfold containing at h
  split at h <;> cases h
  rfl

/-- What an allocation of `n` frames can do: hand out `n` free frames, or leave everything as it was. -/
inductive Allocates (fs : Frames) (n : Nat) : Option PhysFrame → Frames → Prop
  | given (first : PhysFrame) (hn : 0 < n) (hle : first.number + n ≤ fs.total)
      (hfree : ∀ f, first.number ≤ f → f < first.number + n → fs.isFree f = true) :
      Allocates fs n (some first) (fs.take first.number n)
  | refused (h : n = 0 ∨ ¬ FreeRun fs n) : Allocates fs n none fs

variable {fs fs' : Frames} {r : Option PhysFrame}

theorem allocates_contiguous (h : fs.allocateContiguous n = some (r, fs')) : Allocates fs n r fs' := by
  unfold allocateContiguous at h
  by_cases hn : n = 0
  · rw [if_pos hn] at h
    cases h
    exact .refused (.inl hn)
  · rw [if_neg hn] at h
    have hspec := @scanRun_total fs n (Nat.pos_of_ne_zero hn)
    split at h
    · rename_i hnone
      rw [hnone] at hspec
      cases h
      exact .refused (.inr hspec)
    · rename_i start hsome
      rw [hsome] at hspec
      obtain ⟨first, hfirst, heq⟩ := Option.map_eq_some_iff.mp h
      cases heq
      have hnum := containing_eq_some hfirst
      rw [← hnum] at hspec ⊢
      exact .given first (by omega) hspec.1 hspec.2

theorem allocateContiguous_refused (h : n = 0 ∨ ¬ FreeRun fs n) : fs.allocateContiguous n = some (none, fs) := by
  unfold allocateContiguous
  by_cases hn : n = 0
  · rw [if_pos hn]
  · rw [if_neg hn]
    have hspec := @scanRun_total fs n (Nat.pos_of_ne_zero hn)
    split
    · rfl
    · rename_i start hsome
      rw [hsome] at hspec
      exact absurd ⟨start, hspec.1, hspec.2⟩ (h.resolve_left hn)

theorem allocates_frame (hc : fs.Counted) (h : fs.allocateFrame = some (r, fs')) : Allocates fs 1 r fs' := by
  unfold allocateFrame at h
  split at h
  · rename_i hnone
    cases h
    refine .refused (.inr ?_)
    intro hrun
    obtain ⟨start, hle, hfree⟩ := hrun
    have := isFree_eq_true.mp (hfree start (le_refl _) (by omega))
    rw [firstClear_none (by decide) hnone] at this
    cases this
  · rename_i frame hsome
    have hfree := isFree_eq_true.mpr (firstClear_some (by decide) hsome)
    have hlt := hc.lt_of_free hfree
    rw [if_neg (by omega)] at h
    obtain ⟨p, hp, heq⟩ := Option.map_eq_some_iff.mp h
    cases heq
    have hnum := containing_eq_some hp
    rw [← hnum] at hfree hlt ⊢
    refine .given p (by decide) (by omega) ?_
    intro f hlo hhi
    have : f = p.number := by omega
    exact this ▸ hfree

end Frames

end Ruos.Memory
