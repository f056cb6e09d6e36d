import Mathlib.Data.Fintype.Prod
import Ruos.Lib.Ownership
import Ruos.Lib.Walk
import Ruos.Memory.Magazine
import Ruos.Lib.Run

/-! Who has which block: callers, the magazines of all cores, or talc; how one block moves between them, and what holds
over whole runs of calls. -/
namespace Ruos.Memory

open Lib Function MagazineAlloc List Multiset

structure Block where
  ptr : Nat
  layout : Layout
deriving DecidableEq

namespace Block

def Has (b : Block) (x : Nat) : Prop := b.ptr ≤ x ∧ x < b.ptr + b.layout.size

def Disjoint (a b : Block) : Prop := ∀ x, ¬ (a.Has x ∧ b.Has x)

/-- The block is at an address of its alignment and inside the address space. -/
structure Valid (b : Block) : Prop where
  aligned : b.layout.align ∣ b.ptr
  nonnull : b.ptr ≠ 0
  addressed : b.ptr + b.layout.size ≤ 2 ^ 64

def storage (b : Block) : Block := ⟨b.ptr, canonical b.layout⟩

theorem Disjoint.symm {a b : Block} (h : a.Disjoint b) : b.Disjoint a := fun x hx => h x ⟨hx.2, hx.1⟩

theorem Has.storage {b : Block} {x : Nat} (h : b.Has x) : b.storage.Has x := by
  have hsize := size_le_canonical b.layout
  obtain ⟨hlo, hhi⟩ := h
  refine ⟨hlo, ?_⟩
  change x < b.ptr + (canonical b.layout).size
  omega

end Block

/-- The allocator with two records of who has what: the blocks that callers have, with the layout they asked for,
and the blocks obtained from talc and not given back, with the layout they were obtained with. -/
structure Heap where
  cache : MagazineAlloc
  live : Multiset Block
  owned : Multiset Block

inductive HeapEvent
  /-- `answer` is what talc returns if it is asked, 0 if it has no memory. -/
  | alloc (cpu : Fin maxCpus) (layout : Layout) (answer : Nat)
  | dealloc (cpu : Fin maxCpus) (p : Nat) (layout : Layout)
  /-- Somebody writes to memory. -/
  | store (a : Nat) (bs : List UInt8)

namespace Heap

def new (mem : Mem) : Heap := ⟨.new mem, 0, 0⟩

/-- The pointer that `alloc` returns, and the heap after it. -/
def alloc (h : Heap) (cpu : Fin maxCpus) (layout : Layout) (answer : Nat) : Nat × Heap :=
  match h.cache.alloc cpu layout with
  | (.inl p, cache) => (p, ⟨cache, ⟨p, layout⟩ ::ₘ h.live, h.owned⟩)
  | (.inr l, cache) =>
    if answer = 0 then (0, ⟨cache, h.live, h.owned⟩)
    else (answer, ⟨cache, ⟨answer, layout⟩ ::ₘ h.live, ⟨answer, l⟩ ::ₘ h.owned⟩)

/-- The block that `dealloc` gives back to talc, if any, and the heap after it. -/
def dealloc (h : Heap) (cpu : Fin maxCpus) (p : Nat) (layout : Layout) : Option Block × Heap :=
  match h.cache.dealloc cpu p layout with
  | (none, cache) => (none, ⟨cache, h.live.erase ⟨p, layout⟩, h.owned⟩)
  | (some l, cache) => (some ⟨p, l⟩, ⟨cache, h.live.erase ⟨p, layout⟩, h.owned.erase ⟨p, l⟩⟩)

def step (h : Heap) : HeapEvent → Option Heap
  | .alloc cpu layout answer => some (h.alloc cpu layout answer).2
  | .dealloc cpu p layout => some (h.dealloc cpu p layout).2
  | .store a bs => some { h with cache := { h.cache with mem := h.cache.mem.write a bs } }

/-- What is assumed: talc answers with a block that fits the layout it is asked for and that shares no address with
a block it has given out, only live blocks are deallocated, with their layout, and a store goes to a live block, or
is talc's own and stays off the blocks that it has given out. -/
def Legal (h : Heap) : HeapEvent → Prop
  | .alloc cpu layout answer => ∀ l, (h.cache.alloc cpu layout).1 = .inr l → answer ≠ 0 →
      Block.Valid ⟨answer, l⟩ ∧ ∀ b ∈ h.owned, Block.Disjoint ⟨answer, l⟩ b
  | .dealloc _ p layout => ⟨p, layout⟩ ∈ h.live
  | .store a bs => (∃ b ∈ h.live, ∀ x, a ≤ x → x < a + bs.length → b.Has x) ∨
      ∀ b ∈ h.owned, ∀ x, a ≤ x → x < a + bs.length → ¬ b.Has x

end Heap

abbrev Slot := Fin maxCpus × Fin numClasses

namespace MagazineAlloc

def head (s : MagazineAlloc) (k : Slot) : Nat := (s.mags k.1).heads k.2

def count (s : MagazineAlloc) (k : Slot) : Nat := (s.mags k.1).depth k.2

theorem head_setList (s : MagazineAlloc) (cpu : Fin maxCpus) (cls : Fin numClasses) (a d : Nat) :
    (s.setList cpu cls a d).head = update s.head (cpu, cls) a := by
  funext k
  obtain ⟨c, i⟩ := k
  simp only [head, setList, update_apply, Prod.mk.injEq]
  by_cases hc : c = cpu
  · subst hc
    simp [update_apply]
  · simp [hc]

theorem count_setList (s : MagazineAlloc) (cpu : Fin maxCpus) (cls : Fin numClasses) (a d : Nat) :
    (s.setList cpu cls a d).count = update s.count (cpu, cls) d := by
  funext k
  obtain ⟨c, i⟩ := k
  simp only [count, setList, update_apply, Prod.mk.injEq]
  by_cases hc : c = cpu
  · subst hc
    simp [update_apply]
  · simp [hc]

@[simp] theorem next_setList (s : MagazineAlloc) (cpu : Fin maxCpus) (cls : Fin numClasses) (a d : Nat) :
    (s.setList cpu cls a d).next = s.next := rfl

end MagazineAlloc

def cachedBlock (k : Slot) (p : Nat) : Block := ⟨p, classLayout (classSize k.2)⟩

/-- `nodes` are the free lists, and every block obtained from talc is either with a caller or in one of them. -/
structure Described (h : Heap) (nodes : Slot → List Nat) : Prop where
  walk : ∀ k, Walk (· ≠ 0) h.cache.next (h.cache.head k) (nodes k)
  count : ∀ k, h.cache.count k = (nodes k).length
  capped : ∀ k, (nodes k).length ≤ cacheDepth
  owned : h.owned = h.live.map Block.storage + pooled cachedBlock nodes
  apart : Apart Block.Disjoint h.owned
  valid : ∀ b ∈ h.owned, b.Valid

theorem described_new (mem : Mem) : Described (Heap.new mem) (fun _ => []) where
  walk := fun k hk => hk rfl
  count := fun _ => rfl
  capped := fun _ => Nat.zero_le _
  owned := by simp [Heap.new]
  apart := Apart.zero
  valid := fun b hb => absurd hb (notMem_zero b)

namespace Described

variable {h : Heap} {nodes : Slot → List Nat}

theorem storage_mem (hd : Described h nodes) {b : Block} (hb : b ∈ h.live) : b.storage ∈ h.owned := by
  rw [hd.owned]
  exact mem_add.mpr (.inl (mem_map_of_mem _ hb))

variable {p : Nat}

theorem cached_mem (hd : Described h nodes) {k : Slot} (hp : p ∈ nodes k) : cachedBlock k p ∈ h.owned := by
  have hpool : cachedBlock k p ∈ pooled cachedBlock nodes := mem_pooled_of_mem hp
  rw [hd.owned]
  exact mem_add.mpr (.inr hpool)

theorem live_disjoint_cached (hd : Described h nodes) {b : Block} (hb : b ∈ h.live) {k : Slot} (hp : p ∈ nodes k) :
    b.storage.Disjoint (cachedBlock k p) := by
  have hpool : cachedBlock k p ∈ pooled cachedBlock nodes := mem_pooled_of_mem hp
  have hle : b.storage ::ₘ {cachedBlock k p} ≤ h.owned := by
    rw [hd.owned]
    exact add_le_add (singleton_le.mpr (mem_map_of_mem _ hb)) (singleton_le.mpr hpool)
  exact hd.apart _ _ hle

theorem head_lt (hd : Described h nodes) (k : Slot) : h.cache.head k < 256 ^ 8 := by
  have hwalk := hd.walk k
  by_cases hz : h.cache.head k = 0
  · rw [hz]
    decide
  · have hv := hd.valid _ (hd.cached_mem (hwalk.head_mem hz))
    have hle := hv.addressed
    have hpos := le_classSize k.2
    change h.cache.head k + classSize k.2 ≤ 2 ^ 64 at hle
    omega

theorem has_word (k : Slot) {p x : Nat} (hlo : p ≤ x) (hhi : x < p + 8) : (cachedBlock k p).Has x := by
  have := le_classSize k.2
  refine ⟨hlo, ?_⟩
  change x < p + classSize k.2
  omega

section

variable (hd : Described h nodes)
include hd

theorem next_of_mem {mem : Mem}
    (hmem : ∀ k, ∀ p ∈ nodes k, ∀ x, (cachedBlock k p).Has x → mem x = h.cache.mem x) (k : Slot) :
    Walk (· ≠ 0) ({ h.cache with mem := mem } : MagazineAlloc).next (h.cache.head k) (nodes k) := by
  refine (hd.walk k).congr fun p hp => ?_
  unfold MagazineAlloc.next
  congr 1
  exact Mem.read_congr fun x hlo hhi => hmem k p hp x (has_word k hlo hhi)

theorem store {a : Nat} {bs : List UInt8} (hl : h.Legal (.store a bs)) :
    Described { h with cache := { h.cache with mem := h.cache.mem.write a bs } } nodes := by
  refine { hd with walk := hd.next_of_mem ?_ }
  intro k p hp x hx
  apply Mem.write_of_outside
  by_contra hin
  rcases hl with ⟨b, hb, hinside⟩ | hout
  · exact hd.live_disjoint_cached hb hp x ⟨(hinside x (by omega) (by omega)).storage, hx⟩
  · exact hout _ (hd.cached_mem hp) x (by omega) (by omega) hx

theorem grant {layout : Layout} (hv : Block.Valid ⟨p, canonical layout⟩)
    (hfresh : ∀ b ∈ h.owned, Block.Disjoint ⟨p, canonical layout⟩ b) :
    Described ⟨h.cache, ⟨p, layout⟩ ::ₘ h.live, ⟨p, canonical layout⟩ ::ₘ h.owned⟩ nodes where
  __ := hd
  owned := by
    rw [Multiset.map_cons, Multiset.cons_add, ← hd.owned]
    rfl
  apart := hd.apart.cons (fun _ _ => Block.Disjoint.symm) hfresh
  valid := by
    intro b hb
    rcases Multiset.mem_cons.mp hb with rfl | hb
    · exact hv
    · exact hd.valid b hb

variable {layout clsLayout : Layout}

theorem pop {cpu : Fin maxCpus} {cls : Fin numClasses}
    (hcls : sizeClass layout = some (cls, clsLayout)) {l : List Nat} (hp : nodes (cpu, cls) = p :: l) :
    Described ⟨h.cache.setList cpu cls (h.cache.next p) (h.cache.count (cpu, cls) - 1), ⟨p, layout⟩ ::ₘ h.live,
      h.owned⟩ (update nodes (cpu, cls) l) where
  walk := by
    intro k
    have hwalk := hd.walk (cpu, cls)
    rw [hp] at hwalk
    obtain ⟨rfl, -, hrest⟩ := hwalk
    rw [head_setList]
    by_cases hk : k = (cpu, cls)
    · subst hk
      rw [update_self, update_self]
      exact hrest
    · rw [update_of_ne hk, update_of_ne hk]
      exact hd.walk k
  count := by
    intro k
    have hcount := hd.count (cpu, cls)
    rw [hp, length_cons] at hcount
    rw [count_setList]
    by_cases hk : k = (cpu, cls)
    · subst hk
      rw [update_self, update_self, hcount, Nat.add_sub_cancel]
    · rw [update_of_ne hk, update_of_ne hk]
      exact hd.count k
  capped := by
    intro k
    by_cases hk : k = (cpu, cls)
    · subst hk
      have := hd.capped (cpu, cls)
      rw [hp, length_cons] at this
      rw [update_self]
      omega
    · rw [update_of_ne hk]
      exact hd.capped k
  owned := by
    have hblock : cachedBlock (cpu, cls) p = Block.storage ⟨p, layout⟩ := by
      unfold cachedBlock Block.storage
      rw [canonical_of_class hcls]
    rw [Multiset.map_cons, hd.owned, pooled_update cachedBlock nodes (cpu, cls) p l hp, hblock, Multiset.add_cons,
      Multiset.cons_add]
  __ := hd

theorem push {cpu : Fin maxCpus} {cls : Fin numClasses}
    (hcls : sizeClass layout = some (cls, clsLayout)) (hp : ⟨p, layout⟩ ∈ h.live)
    (hroom : h.cache.count (cpu, cls) < cacheDepth) :
    Described ⟨({ h.cache with mem := h.cache.mem.write p (leBytes 8 (h.cache.head (cpu, cls))) } :
        MagazineAlloc).setList cpu cls p (h.cache.count (cpu, cls) + 1), h.live.erase ⟨p, layout⟩, h.owned⟩
      (update nodes (cpu, cls) (p :: nodes (cpu, cls))) := by
  have hblock : Block.storage ⟨p, layout⟩ = cachedBlock (cpu, cls) p := by
    unfold cachedBlock Block.storage
    rw [canonical_of_class hcls]
  have hnonnull : p ≠ 0 := (hd.valid _ (hd.storage_mem hp)).nonnull
  have houtside (k : Slot) q (hq : q ∈ nodes k) x (hx : (cachedBlock k q).Has x) :
      h.cache.mem.write p (leBytes 8 (h.cache.head (cpu, cls))) x = h.cache.mem x := by
    apply Mem.write_of_outside
    by_contra hin
    rw [length_leBytes] at hin
    have hdis := hd.live_disjoint_cached hp hq
    rw [hblock] at hdis
    exact hdis x ⟨has_word (cpu, cls) (by omega) (by omega), hx⟩
  have hlinks := hd.next_of_mem houtside
  have hnext : ({ h.cache with mem := h.cache.mem.write p (leBytes 8 (h.cache.head (cpu, cls))) } :
      MagazineAlloc).next p = h.cache.head (cpu, cls) := by
    unfold MagazineAlloc.next
    rw [Mem.read_write_of_length (length_leBytes 8 _), leVal_leBytes_of_lt (hd.head_lt (cpu, cls))]
  refine ⟨?_, ?_, ?_, ?_, hd.apart, hd.valid⟩
  · intro k
    rw [head_setList]
    by_cases hk : k = (cpu, cls)
    · subst hk
      rw [update_self, update_self]
      refine ⟨rfl, hnonnull, ?_⟩
      rw [next_setList, hnext]
      exact hlinks (cpu, cls)
    · rw [update_of_ne hk, update_of_ne hk]
      exact hlinks k
  · intro k
    rw [count_setList]
    by_cases hk : k = (cpu, cls)
    · subst hk
      rw [update_self, update_self, length_cons, hd.count (cpu, cls)]
    · rw [update_of_ne hk, update_of_ne hk]
      exact hd.count k
  · intro k
    by_cases hk : k = (cpu, cls)
    · subst hk
      rw [hd.count (cpu, cls)] at hroom
      rw [update_self, length_cons]
      omega
    · rw [update_of_ne hk]
      exact hd.capped k
  · conv_lhs => rw [hd.owned, ← Multiset.cons_erase hp, Multiset.map_cons, hblock]
    rw [pooled_push, Multiset.add_cons, Multiset.cons_add]

theorem giveBack {layout : Layout} (hp : ⟨p, layout⟩ ∈ h.live) :
    Described ⟨h.cache, h.live.erase ⟨p, layout⟩, h.owned.erase ⟨p, canonical layout⟩⟩ nodes where
  __ := hd
  owned := by
    conv_lhs => rw [hd.owned, ← Multiset.cons_erase hp, Multiset.map_cons, Multiset.cons_add]
    exact Multiset.erase_cons_head _ _
  apart := hd.apart.mono (Multiset.erase_le _ _)
  valid := fun b hb => hd.valid b (Multiset.mem_of_mem_erase hb)
end
end Described

open Heap

namespace Described

variable {h : Heap} {nodes : Slot → List Nat}

section

variable (hd : Described h nodes)
include hd

theorem alloc {cpu : Fin maxCpus} {layout : Layout} {answer : Nat} (hl : h.Legal (.alloc cpu layout answer)) :
    (∃ nodes', Described (h.alloc cpu layout answer).2 nodes') ∧ ((h.alloc cpu layout answer).1 ≠ 0 →
        (h.alloc cpu layout answer).2.live = ⟨(h.alloc cpu layout answer).1, layout⟩ ::ₘ h.live) := by
  by_cases hask : h.cache.alloc cpu layout = (.inr (canonical layout), h.cache)
  · unfold Heap.alloc
    simp only [hask]
    by_cases hz : answer = 0
    · rw [if_pos hz]
      exact ⟨⟨nodes, hd⟩, fun hne => absurd rfl hne⟩
    · rw [if_neg hz]
      obtain ⟨hv, hfresh⟩ := hl _ (by rw [hask]) hz
      exact ⟨⟨nodes, hd.grant hv hfresh⟩, fun _ => rfl⟩
  cases hcls : sizeClass layout with
  | none =>
    refine absurd ?_ hask
    unfold MagazineAlloc.alloc
    simp only [hcls, canonical_of_none hcls]
  | some x =>
    obtain ⟨cls, clsLayout⟩ := x
    by_cases hz : h.cache.head (cpu, cls) = 0
    · refine absurd ?_ hask
      unfold MagazineAlloc.alloc
      rw [canonical_of_class hcls, ← (sizeClass_spec hcls).1]
      simp only [hcls]
      exact if_neg (fun hne => hne hz)
    · have hwalk := hd.walk (cpu, cls)
      cases hnodes : nodes (cpu, cls) with
      | nil =>
        rw [hnodes] at hwalk
        exact absurd hz hwalk
      | cons p l =>
        rw [hnodes] at hwalk
        have hhead : h.cache.head (cpu, cls) = p := hwalk.1
        have hhit : h.cache.alloc cpu layout =
            (.inl p, h.cache.setList cpu cls (h.cache.next p) (h.cache.count (cpu, cls) - 1)) := by
          unfold MagazineAlloc.alloc
          simp only [hcls]
          rw [← hhead]
          exact if_pos hz
        unfold Heap.alloc
        rw [hhit]
        exact ⟨⟨_, hd.pop hcls hnodes⟩, fun _ => rfl⟩

theorem dealloc {cpu : Fin maxCpus} {p : Nat} {layout : Layout} (hl : h.Legal (.dealloc cpu p layout)) :
    (∃ nodes', Described (h.dealloc cpu p layout).2 nodes') ∧
      ∀ b, (h.dealloc cpu p layout).1 = some b → b = ⟨p, canonical layout⟩ := by
  by_cases hask : h.cache.dealloc cpu p layout = (some (canonical layout), h.cache)
  · unfold Heap.dealloc
    simp only [hask]
    exact ⟨⟨nodes, hd.giveBack hl⟩, fun b hb => (Option.some.inj hb).symm⟩
  cases hcls : sizeClass layout with
  | none =>
    refine absurd ?_ hask
    unfold MagazineAlloc.dealloc
    simp only [hcls, canonical_of_none hcls]
  | some x =>
    obtain ⟨cls, clsLayout⟩ := x
    by_cases hroom : h.cache.count (cpu, cls) < cacheDepth
    · have hpush : h.cache.dealloc cpu p layout =
          (none, ({ h.cache with mem := h.cache.mem.write p (leBytes 8 (h.cache.head (cpu, cls))) } :
            MagazineAlloc).setList cpu cls p (h.cache.count (cpu, cls) + 1)) := by
        unfold MagazineAlloc.dealloc
        simp only [hcls]
        exact if_pos hroom
      unfold Heap.dealloc
      simp only [hpush]
      exact ⟨⟨_, hd.push hcls hl hroom⟩, fun b hb => by cases hb⟩
    · refine absurd ?_ hask
      unfold MagazineAlloc.dealloc
      rw [canonical_of_class hcls, ← (sizeClass_spec hcls).1]
      simp only [hcls]
      exact if_neg hroom

theorem step {e : HeapEvent} {h' : Heap} (hl : h.Legal e) (hs : h.step e = some h') :
    ∃ nodes', Described h' nodes' := by
  cases e with
  | alloc cpu layout answer =>
    cases hs
    exact (hd.alloc hl).1
  | dealloc cpu p layout =>
    cases hs
    exact (hd.dealloc hl).1
  | store a bs =>
    cases hs
    exact ⟨nodes, hd.store hl⟩

theorem live_apart : Apart Block.Disjoint h.live := by
  intro a b hab x hx
  have hle : a.storage ::ₘ {b.storage} ≤ h.owned := by
    rw [hd.owned]
    have hmap := map_le_map (f := Block.storage) hab
    exact le_trans hmap (le_add_right _ _)
  exact hd.apart _ _ hle x ⟨hx.1.storage, hx.2.storage⟩

end

end Described

/-- From empty magazines, whatever the cores allocate and free and whatever is written to the blocks: live blocks
never overlap, a returned block is aligned and large enough and off every live block, each free list has as many
nodes as its counter says and at most the cap, and talc gets back only blocks that it has given out, with their
layout. -/
theorem magazine_sound {mem : Mem} {es : List HeapEvent} {h : Heap}
    (hlegal : Guarded Heap.step Heap.Legal (Heap.new mem) es) (hrun : exec Heap.step (Heap.new mem) es = some h) :
    Apart Block.Disjoint h.live ∧
      (∀ cpu layout answer p h', h.Legal (.alloc cpu layout answer) → h.alloc cpu layout answer = (p, h') → p ≠ 0 →
        (∀ b ∈ h.live, Block.Disjoint ⟨p, layout⟩ b) ∧ layout.align ∣ p ∧
          ∃ l, ⟨p, l⟩ ∈ h'.owned ∧ layout.size ≤ l.size) ∧
      (∀ k, ∃ nodes, Walk (· ≠ 0) h.cache.next (h.cache.head k) nodes ∧ nodes.length = h.cache.count k ∧
        h.cache.count k ≤ cacheDepth) ∧
      ∀ cpu p layout b h', h.Legal (.dealloc cpu p layout) → h.dealloc cpu p layout = (some b, h') → b ∈ h.owned := by
  obtain ⟨nodes, hd⟩ := exec_invariant (I := fun h => ∃ nodes, Described h nodes)
    (fun h e h' hI hg hs => hI.elim fun nodes hd => hd.step hg hs) ⟨_, described_new mem⟩ hlegal hrun
  refine ⟨hd.live_apart, ?_, ?_, ?_⟩
  · intro cpu layout answer p h' hl heq hp
    obtain ⟨⟨nodes', hd'⟩, hlive⟩ := hd.alloc hl
    rw [heq] at hd' hlive
    have hlive' := hlive hp
    have hmem : ⟨p, layout⟩ ∈ h'.live := hlive' ▸ mem_cons_self _ _
    have howned := hd'.storage_mem hmem
    have hapart := hd'.live_apart
    rw [hlive'] at hapart
    refine ⟨fun b hb => hapart.of_cons hb, ?_, canonical layout, howned, size_le_canonical layout⟩
    exact dvd_trans (align_dvd_canonical layout) (hd'.valid _ howned).aligned
  · intro k
    refine ⟨nodes k, hd.walk k, (hd.count k).symm, ?_⟩
    rw [hd.count k]
    exact hd.capped k
  · intro cpu p layout b h' hl heq
    have hb := (hd.dealloc hl).2 b (by rw [heq])
    rw [hb]
    exact hd.storage_mem hl

def word : Layout := ⟨8, 8, 3, rfl⟩

/-- A block is obtained from talc, freed on another core and allocated again there. -/
theorem magazine_sound_recycled : ∃ es h, Guarded Heap.step Heap.Legal (Heap.new fun _ => 0) es ∧
      exec Heap.step (Heap.new fun _ => 0) es = some h ∧ h.live = {⟨4096, word⟩} ∧ Apart Block.Disjoint h.live := by
  let es : List HeapEvent := [.alloc ⟨0, by decide⟩ word 4096, .dealloc ⟨1, by decide⟩ 4096 word,
    .alloc ⟨1, by decide⟩ word 0]
  have hlegal : Guarded step Heap.Legal (new fun _ => 0) es := by
    refine ⟨?_, fun h hs => ?_⟩
    · intro l hl _
      cases hl
      exact ⟨⟨by decide, by decide, by decide⟩, fun b hb => absurd hb (notMem_zero b)⟩
    · cases hs
      have hlive : (⟨4096, word⟩ : Block) ∈ ⟨4096, word⟩ ::ₘ 0 := mem_cons_self _ _
      refine ⟨hlive, fun h hs => ?_⟩
      cases hs
      exact ⟨fun l _ hne => absurd rfl hne, fun _ _ => trivial⟩
  have hrun : exec step (new fun _ => 0) es = some _ := rfl
  exact ⟨es, _, hlegal, hrun, by decide, (magazine_sound hlegal hrun).1⟩

end Ruos.Memory
