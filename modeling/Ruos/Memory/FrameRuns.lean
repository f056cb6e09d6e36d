import Mathlib.Order.Interval.Finset.Nat
import Ruos.Lib.Run
import Ruos.Memory.Frames

/-! The frame allocator over whole runs: from any memory map, whatever is allocated, marked and given back. -/
namespace Ruos.Memory

open Lib List Option Frames Finset

def Usable (memmap : List MemmapEntry) (f : Nat) : Prop :=
  ∃ e ∈ memmap, e.type = memmapUsable ∧ e.base ≤ pageSize * f ∧ pageSize * (f + 1) ≤ e.base + e.length

/-- The frame shares no address with the heap. -/
def OutsideHeap (heap : Option HeapInfo) (f : Nat) : Prop :=
  ∀ info ∈ heap, pageSize * (f + 1) ≤ info.physBase ∨ info.physBase + info.size ≤ pageSize * f

def Offered (memmap : List MemmapEntry) (heap : Option HeapInfo) (f : Nat) : Prop :=
  Usable memmap f ∧ OutsideHeap heap f

theorem le_foldl_max {α : Type*} (g : α → Nat) (l : List α) (top : Nat) :
    top ≤ l.foldl (fun t x => max t (g x)) top ∧ ∀ x ∈ l, g x ≤ l.foldl (fun t x => max t (g x)) top := by
  induction l generalizing top with
  | nil => exact ⟨le_refl top, fun x hx => absurd hx not_mem_nil⟩
  | cons y l ih =>
    obtain ⟨htop, hmem⟩ := ih (max top (g y))
    rw [foldl_cons]
    refine ⟨by omega, fun x hx => ?_⟩
    rcases mem_cons.mp hx with rfl | hx
    · omega
    · exact hmem x hx

variable {memmap : List MemmapEntry}

variable {e : MemmapEntry}

theorem mem_usableEntries : e ∈ usableEntries memmap ↔ e ∈ memmap ∧ e.type = memmapUsable := by
  simp [usableEntries]

theorem end_lt (he : e ∈ usableEntries memmap) {f : Nat} (htot : f < totalFrames memmap) :
    e.base + e.length + pageSize - 1 < 2 ^ 64 := by
  have htop : e.base + e.length ≤ maxPhys memmap :=
      (le_foldl_max (fun e : MemmapEntry => e.base + e.length) (usableEntries memmap) 0).2 e he
  have hlt : maxPhys memmap < 2 ^ 64 := by
    refine foldlRecOn (motive := fun top => top < 2 ^ 64) _ _ (by decide) ?_
    intro top htop e _
    have := e.fits
    omega
  unfold totalFrames at htot
  unfold pageSize at htot ⊢
  omega

theorem usable_of_freed (he : e ∈ usableEntries memmap) {f : Nat}
    (hlo : (e.base + pageSize - 1) % 2 ^ 64 / pageSize ≤ f) (hhi : f < (e.base + e.length) / pageSize)
    (htot : f < totalFrames memmap) : Usable memmap f := by
  obtain ⟨hmem, htype⟩ := mem_usableEntries.mp he
  have hend := end_lt he htot
  refine ⟨e, hmem, htype, ?_, ?_⟩
  · unfold pageSize at *
    omega
  · unfold pageSize at *
    omega

variable {fs : Frames}

theorem foldl_freeEntry {es : List MemmapEntry} (hes : ∀ e ∈ es, e ∈ usableEntries memmap) (hc : fs.Counted)
    (htot : fs.total = totalFrames memmap) (hfree : ∀ f, fs.isFree f = true → Usable memmap f) :
    (es.foldl freeEntry fs).Counted ∧ (es.foldl freeEntry fs).total = totalFrames memmap ∧
      ∀ f, (es.foldl freeEntry fs).isFree f = true → Usable memmap f := by
  induction es generalizing fs with
  | nil => exact ⟨hc, htot, hfree⟩
  | cons e es ih =>
    obtain ⟨hc', htot', hfree'⟩ := each_markFree hc ((e.base + pageSize - 1) % 2 ^ 64 / pageSize)
      ((e.base + e.length) / pageSize)
    refine ih (fun e' he' => hes e' (mem_cons_of_mem e he')) hc' (htot'.trans htot) ?_
    intro f hf
    rcases (hfree' f).mp hf with hold | ⟨hlo, hhi, hlt⟩
    · exact hfree f hold
    · exact usable_of_freed (hes e mem_cons_self) hlo hhi (htot ▸ hlt)

theorem heapRegion_spec {claimed : Bool} {info : HeapInfo} (h : heapRegion memmap claimed = some info) :
    ∃ e ∈ usableEntries memmap, info = ⟨e.base, heapSize⟩ ∧ heapSize ≤ e.length := by
  unfold heapRegion at h
  split at h
  · obtain ⟨e, he, rfl⟩ := map_eq_some_iff.mp h
    have hp := find?_some he
    simp only [decide_eq_true_eq] at hp
    exact ⟨e, mem_usableEntries.mpr ⟨mem_of_find?_eq_some he, hp.1⟩, rfl, hp.2⟩
  · cases h

theorem outside_of_not_reserved {info : HeapInfo} {f : Nat} (hend : info.physBase + info.size + pageSize - 1 < 2 ^ 64)
    (hout : ¬ (info.physBase / pageSize ≤ f ∧ f < (info.physBase + info.size + pageSize - 1) % 2 ^ 64 / pageSize)) :
    pageSize * (f + 1) ≤ info.physBase ∨ info.physBase + info.size ≤ pageSize * f := by
  unfold pageSize at *
  omega

theorem init_offered {claimed : Bool} {c : FrameCounts}
    (h : init (some memmap) (heapRegion memmap claimed) = .ok (c, fs)) :
    fs.Counted ∧ ∀ f, fs.isFree f = true → Offered memmap (heapRegion memmap claimed) f := by
  unfold init at h
  simp only at h
  split at h
  · cases h
  · obtain ⟨hc, htot, husable⟩ := foldl_freeEntry (fun e he => he)
      (counted_new (totalFrames memmap) (totalFrames_lt memmap)) rfl
      (fun f hf => by rw [isFree_new] at hf; cases hf)
    cases hheap : heapRegion memmap claimed with
    | none =>
      rw [hheap] at h
      cases h
      refine ⟨hc, fun f hf => ⟨husable f hf, fun info hinfo => ?_⟩⟩
      cases hinfo
    | some info =>
      rw [hheap] at h
      cases h
      obtain ⟨e, he, rfl, hlen⟩ := heapRegion_spec hheap
      obtain ⟨hc', htot', hfree'⟩ := each_markUsed hc (e.base / pageSize)
        ((e.base + heapSize + pageSize - 1) % 2 ^ 64 / pageSize)
      refine ⟨hc', fun f hf => ?_⟩
      obtain ⟨hold, hout⟩ := (hfree' f).mp hf
      refine ⟨husable f hold, fun info' hinfo => ?_⟩
      cases hinfo
      have hend := end_lt he (htot ▸ hc.lt_of_free hold)
      exact @outside_of_not_reserved ⟨e.base, heapSize⟩ f (by simp only; omega) hout

inductive FrameOp
  | allocateFrame
  | allocateContiguous (n : Nat)
  | markUsed (frame : Nat)
  | freeContiguous (first : PhysFrame) (n : Nat)
  | deallocateFrame (frame : PhysFrame)

/-- `none` where the kernel panics. -/
def Frames.call (fs : Frames) : FrameOp → Option (Option PhysFrame × Frames)
  | .allocateFrame => fs.allocateFrame
  | .allocateContiguous n => fs.allocateContiguous n
  | .markUsed frame => some (none, fs.markUsed frame)
  | .freeContiguous first n => some (none, fs.freeContiguous first n)
  | .deallocateFrame frame => some (none, fs.deallocateFrame frame)

def handed : FrameOp → Option PhysFrame → Finset Nat
  | .allocateFrame, some p => {p.number}
  | .allocateContiguous n, some p => Finset.Ico p.number (p.number + n)
  | _, _ => ∅

/-- The frames that a call takes out of the free ones: those handed out, or the free frame that `mark_used` marks. -/
def taken (fs : Frames) (op : FrameOp) (r : Option PhysFrame) : Finset Nat :=
  match op with
  | .markUsed frame => if fs.isFree frame then {frame} else ∅
  | op => handed op r

def released : FrameOp → Finset Nat
  | .freeContiguous first n => Finset.Ico first.number (first.number + n)
  | .deallocateFrame frame => {frame.number}
  | _ => ∅

/-- The allocator together with the frames that were taken and not given back since. -/
structure Pool where
  frames : Frames
  held : Finset Nat

def Pool.call (s : Pool) (op : FrameOp) : Option (Option PhysFrame × Pool) :=
  (s.frames.call op).map fun x => (x.1, ⟨x.2, (s.held ∪ taken s.frames op x.1) \ released op⟩)

def Pool.step (s : Pool) (op : FrameOp) : Option Pool := (s.call op).map Prod.snd

def Pool.Legal (s : Pool) (op : FrameOp) : Prop := released op ⊆ s.held

instance (s : Pool) (op : FrameOp) : Decidable (s.Legal op) := inferInstanceAs (Decidable (released op ⊆ s.held))

structure Pool.Sound (memmap : List MemmapEntry) (heap : Option HeapInfo) (s : Pool) : Prop where
  counted : s.frames.Counted
  owned : ∀ f ∈ s.held, f < s.frames.total ∧ s.frames.isFree f = false
  offered : ∀ f, s.frames.isFree f = true ∨ f ∈ s.held → Offered memmap heap f

section

variable {memmap : List MemmapEntry} {heap : Option HeapInfo} {s : Pool}

theorem Pool.Sound.take (h : s.Sound memmap heap) {out : Finset Nat} (hc : fs.Counted)
    (htot : fs.total = s.frames.total) (hfree : ∀ f, fs.isFree f = true ↔ s.frames.isFree f = true ∧ f ∉ out)
    (hout : ∀ f ∈ out, s.frames.isFree f = true) : Pool.Sound memmap heap ⟨fs, s.held ∪ out⟩ where
  counted := hc
  owned := by
    intro f hf
    rw [htot]
    rcases mem_union.mp hf with hf | hf
    · obtain ⟨hlt, hused⟩ := h.owned f hf
      refine ⟨hlt, ?_⟩
      rw [Bool.eq_false_iff, ne_eq, hfree f, hused]
      simp
    · refine ⟨h.counted.lt_of_free (hout f hf), ?_⟩
      rw [Bool.eq_false_iff, ne_eq, hfree f]
      simp [hf]
  offered := by
    intro f hf
    rcases hf with hf | hf
    · exact h.offered f (.inl ((hfree f).mp hf).1)
    · rcases mem_union.mp hf with hf | hf
      · exact h.offered f (.inr hf)
      · exact h.offered f (.inl (hout f hf))

theorem Pool.Sound.release (h : s.Sound memmap heap) {back : Finset Nat} (hc : fs.Counted)
    (htot : fs.total = s.frames.total) (hback : back ⊆ s.held)
    (hfree : ∀ f, fs.isFree f = true ↔ s.frames.isFree f = true ∨ f ∈ back) :
    Pool.Sound memmap heap ⟨fs, s.held \ back⟩ where
  counted := hc
  owned := by
    intro f hf
    obtain ⟨hheld, hnot⟩ := mem_sdiff.mp hf
    obtain ⟨hlt, hused⟩ := h.owned f hheld
    refine ⟨htot ▸ hlt, ?_⟩
    rw [Bool.eq_false_iff, ne_eq, hfree f, hused]
    simp [hnot]
  offered := by
    intro f hf
    rcases hf with hf | hf
    · rcases (hfree f).mp hf with hf | hf
      · exact h.offered f (.inl hf)
      · exact h.offered f (.inr (hback hf))
    · exact h.offered f (.inr (mem_sdiff.mp hf).1)

theorem Frames.Allocates.free_of_handed {fs fs' : Frames} {n : Nat} {r : Option PhysFrame}
    (ha : fs.Allocates n r fs') {f : Nat} (hf : f ∈ handed (.allocateContiguous n) r) : fs.isFree f = true := by
  cases ha with
  | given first hn hle hfree =>
    rw [handed, mem_Ico] at hf
    exact hfree f hf.1 hf.2
  | refused _ => exact absurd hf (notMem_empty f)

theorem Pool.Sound.allocates (h : s.Sound memmap heap) {n : Nat} {r : Option PhysFrame}
    (ha : s.frames.Allocates n r fs) : Pool.Sound memmap heap ⟨fs, s.held ∪ handed (.allocateContiguous n) r⟩ := by
  cases ha with
  | given first hn hle hfree =>
    refine h.take (h.counted.take hle hfree) rfl ?_ ?_
    · intro f
      rw [isFree_take, handed, mem_Ico]
    · intro f hf
      exact (Frames.Allocates.given first hn hle hfree).free_of_handed hf
  | refused _ =>
    have hnone : handed (.allocateContiguous n) none = ∅ := rfl
    rw [hnone, union_empty]
    exact h

theorem handed_allocateFrame (r : Option PhysFrame) : handed .allocateFrame r = handed (.allocateContiguous 1) r := by
  cases r with
  | none => rfl
  | some p => simp [handed]

theorem Pool.Sound.step (h : s.Sound memmap heap) {op : FrameOp} {s' : Pool} (hlegal : s.Legal op)
    (hs : s.step op = some s') : s'.Sound memmap heap := by
  obtain ⟨⟨r, t⟩, ht, rfl⟩ := map_eq_some_iff.mp hs
  obtain ⟨⟨r', fs⟩, hcall, heq⟩ := map_eq_some_iff.mp ht
  cases heq
  cases op with
  | allocateFrame =>
    have := h.allocates (allocates_frame h.counted hcall)
    simpa only [taken, handed_allocateFrame, released, Finset.sdiff_empty] using this
  | allocateContiguous n =>
    have := h.allocates (allocates_contiguous hcall)
    simpa only [taken, released, Finset.sdiff_empty] using this
  | markUsed frame =>
    cases hcall
    simp only [released, Finset.sdiff_empty]
    refine h.take (h.counted.markUsed frame) (total_markUsed _ _) ?_ ?_
    · intro f
      rw [isFree_markUsed h.counted, taken]
      grind
    · intro f hf
      rw [taken] at hf
      grind
  | freeContiguous first n =>
    cases hcall
    simp only [taken, handed, Finset.union_empty]
    have hheld (f : Nat) hlo hhi : f < s.frames.total :=
      (h.owned f (hlegal (Finset.mem_Ico.mpr ⟨hlo, hhi⟩))).1
    have hlast : first.number + n < 2 ^ 64 := by
      have hbound := s.frames.bounded
      have hfits := first.fits
      unfold pageSize at hfits
      by_cases hn : n = 0
      · omega
      · have := hheld (first.number + n - 1) (by omega) (by omega)
        omega
    obtain ⟨hc, htot, hfree⟩ := each_markFree h.counted first.number ((first.number + n) % 2 ^ 64)
    refine h.release hc htot hlegal ?_
    intro f
    rw [freeContiguous, hfree f, Nat.mod_eq_of_lt hlast, released, Finset.mem_Ico]
    apply or_congr_right
    constructor
    · intro hf
      exact ⟨hf.1, hf.2.1⟩
    · intro hf
      exact ⟨hf.1, hf.2, hheld f hf.1 hf.2⟩
  | deallocateFrame frame =>
    cases hcall
    simp only [taken, handed, Finset.union_empty]
    have hlt := (h.owned frame.number (hlegal (Finset.mem_singleton_self _))).1
    refine h.release (h.counted.markFree frame.number) (total_markFree _ _) hlegal ?_
    intro f
    rw [deallocateFrame, isFree_markFree, released]
    simp [hlt]

end

theorem Pool.Sound.handed_fresh {heap : Option HeapInfo} {s s' : Pool} (h : s.Sound memmap heap) {op : FrameOp}
    {r : Option PhysFrame} (hs : s.call op = some (r, s')) {f : Nat} (hf : f ∈ handed op r) :
    f ∉ s.held ∧ Usable memmap f ∧ OutsideHeap heap f := by
  obtain ⟨⟨r', fs⟩, hcall, heq⟩ := map_eq_some_iff.mp hs
  cases heq
  have hfree : s.frames.isFree f = true := by
    cases op with
    | allocateFrame =>
      rw [handed_allocateFrame] at hf
      exact (allocates_frame h.counted hcall).free_of_handed hf
    | allocateContiguous n => exact (allocates_contiguous hcall).free_of_handed hf
    | markUsed | freeContiguous | deallocateFrame => simp [handed] at hf
  refine ⟨fun hheld => ?_, h.offered f (.inl hfree)⟩
  have := (h.owned f hheld).2
  rw [hfree] at this
  cases this

theorem contiguous_none_iff (s : Pool) (n : Nat) :
    (∃ s', s.call (.allocateContiguous n) = some (none, s')) ↔ n = 0 ∨ ¬ FreeRun s.frames n := by
  constructor
  · rintro ⟨s', hs⟩
    obtain ⟨⟨r, fs⟩, hcall, heq⟩ := map_eq_some_iff.mp hs
    cases heq
    cases allocates_contiguous hcall with
    | refused h => exact h
  · intro h
    unfold Pool.call call
    simp only [allocateContiguous_refused h, map_some]
    simp [taken, handed, released]

/-- From any memory map and over any run that gives back only what is allocated: the counter is the number of set
bits, what is handed out is free, usable and outside the heap, and a contiguous allocation fails only for `n = 0`
or where no `n` consecutive frames are free. -/
theorem frames_sound {memmap : List MemmapEntry} {claimed : Bool} {c : FrameCounts} {fs : Frames}
    (hinit : init (some memmap) (heapRegion memmap claimed) = .ok (c, fs)) {ops : List FrameOp} {s : Pool}
    (hlegal : Guarded Pool.step Pool.Legal ⟨fs, ∅⟩ ops) (hrun : exec Pool.step ⟨fs, ∅⟩ ops = some s) :
    s.frames.used = Bitmap.count s.frames.bitmap s.frames.total ∧
      (∀ op r s', s.call op = some (r, s') → ∀ f ∈ handed op r,
        f ∉ s.held ∧ Usable memmap f ∧ OutsideHeap (heapRegion memmap claimed) f) ∧
      ∀ n, (∃ s', s.call (.allocateContiguous n) = some (none, s')) ↔ n = 0 ∨ ¬ FreeRun s.frames n := by
  obtain ⟨hcounted, hoffered⟩ := init_offered hinit
  have hstart : Pool.Sound memmap (heapRegion memmap claimed) ⟨fs, ∅⟩ :=
    ⟨hcounted, fun f hf => absurd hf (notMem_empty f),
      fun f hf => hoffered f (hf.resolve_right (notMem_empty f))⟩
  have hs := exec_invariant (fun s op s' hs hg hstep => hs.step hg hstep) hstart hlegal hrun
  exact ⟨hs.counted.used, fun op r s' hcall f hf => hs.handed_fresh hcall hf, contiguous_none_iff s⟩

def twoFrames : List MemmapEntry := [⟨0, 2 * pageSize, memmapUsable, by decide⟩]

def twoFree : Frames := ⟨[0xFFFFFFFFFFFFFFFC#64], 2, 0, rfl, by decide⟩

def secondHeld : Frames := ⟨[0xFFFFFFFFFFFFFFFE#64], 2, 1, rfl, by decide⟩

theorem init_twoFrames : init (some twoFrames) (heapRegion twoFrames true) = .ok (⟨2, 0, 2⟩, twoFree) := by
  rfl

theorem frames_sound_two :
    ∃ ops s, Guarded Pool.step Pool.Legal ⟨twoFree, ∅⟩ ops ∧ exec Pool.step ⟨twoFree, ∅⟩ ops = some s ∧
      s.frames.used = 1 ∧ Bitmap.count s.frames.bitmap s.frames.total = 1 := by
  let ops : List FrameOp := [.allocateFrame, .allocateContiguous 1, .freeContiguous ⟨0, by decide⟩ 1]
  have hlegal : Guarded Pool.step Pool.Legal ⟨twoFree, ∅⟩ ops := by
    refine ⟨by decide, fun s hs => ?_⟩
    cases hs
    refine ⟨by decide, fun s hs => ?_⟩
    cases hs
    exact ⟨by decide, fun s _ => trivial⟩
  have hrun : exec Pool.step ⟨twoFree, ∅⟩ ops = some ⟨secondHeld, {1}⟩ := rfl
  exact ⟨ops, _, hlegal, hrun, rfl, (frames_sound init_twoFrames hlegal hrun).1.symm⟩

/-- No frames are asked for, none are missing, and still `None` is returned. -/
theorem allocateContiguous_zero_refused :
    init (some twoFrames) (heapRegion twoFrames true) = .ok (⟨2, 0, 2⟩, twoFree) ∧ FreeRun twoFree 0 ∧
      twoFree.allocateContiguous 0 = some (none, twoFree) :=
  ⟨init_twoFrames, ⟨0, Nat.zero_le _, fun f _ hf => absurd hf (Nat.not_lt_zero f)⟩, rfl⟩

end Ruos.Memory
