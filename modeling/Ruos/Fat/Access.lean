import Ruos.Fat.View

/-! The calls of `Ruos.Fat.Volume` on a device that does not fail, in terms of the volume it holds. -/
namespace Ruos.Fat

open Lib Vfs Block ErrorFree List Runs Nat

variable {S : Type} [BlockDevice S] [ErrorFree S] {s₀ : S} {b : Bpb} {m : Mem} {v : Vol} {n k : Nat}

section

theorem runs_readSector (h : k + 1 ≤ blocks s₀) : Runs (Stored s₀) (readSector k) m (.ok (m.read (512 * k) 512)) m :=
  Runs.mapErr (runs_read one_pos h)

theorem runs_writeSector {buf : List UInt8} (hn : 0 < n) (hlen : buf.length = 512 * n) (h : k + n ≤ blocks s₀) :
    Runs (Stored s₀) (writeSector k buf) m (.ok ()) (m.write (512 * k) buf) :=
  Runs.mapErr (runs_write hn hlen h)

theorem runs_readSectors {sec : Nat} (h : sec + k ≤ blocks s₀) :
    Runs (Stored s₀) (readSectors sec k) m (.ok (m.read (512 * sec) (512 * k))) m := by
  induction k generalizing sec with
  | zero => exact pure [] m
  | succ k ih =>
    have hsplit : m.read (512 * sec) (512 * (k + 1)) = m.read (512 * sec) 512 ++ m.read (512 * (sec + 1)) (512 * k) := by
      rw [mul_succ, add_comm (512 * k), Mem.read_add, mul_succ]
    rw [hsplit]
    exact (runs_readSector (by omega)).bind ((ih (by omega)).bind (pure _ m))

theorem runs_writeSectors {sec : Nat} {data : List UInt8} (h : sec + k ≤ blocks s₀) (hlen : data.length = 512 * k) :
    Runs (Stored s₀) (writeSectors sec data k) m (.ok ()) (m.write (512 * sec) data) := by
  induction k generalizing sec data m with
  | zero =>
    have hnil : data = [] := length_eq_zero_iff.mp (by omega)
    rw [hnil, Mem.write_nil]
    exact pure () m
  | succ k ih =>
    have htake : (data.take 512).length = 512 * 1 := by
      rw [length_take]
      omega
    have hsplit : m.write (512 * sec) data =
        (m.write (512 * sec) (data.take 512)).write (512 * (sec + 1)) (data.drop 512) := by
      have happ := Mem.write_append m (512 * sec) (data.take 512) (data.drop 512)
      rw [take_append_drop, htake, mul_one] at happ
      rw [happ, mul_succ]
    rw [hsplit]
    refine (runs_writeSector one_pos htake (by omega)).bind (ih (by omega) ?_)
    rw [length_drop]
    omega

theorem runs_writeFatCopies {stride off value sec : Nat} (hoff : off + 4 ≤ 512)
    (h : ∀ i < k, sec + i * stride + 1 ≤ blocks s₀) :
    Runs (Stored s₀) (writeFatCopies stride off value sec k) m (.ok ()) (setCopies stride off value sec k m) := by
  induction k generalizing sec m with
  | zero => exact pure () m
  | succ k ih =>
    have hfirst := h 0 (by omega)
    rw [zero_mul] at hfirst
    have hlen : (setFatEntry (m.read (512 * sec) 512) off value).length = 512 * 1 := by
      rw [setFatEntry, length_splice (by simpa using hoff), Mem.length_read]
    refine (runs_readSector hfirst).bind ((runs_writeSector one_pos hlen hfirst).bind (ih fun i hi => ?_))
    have hnext := h (i + 1) (by omega)
    rw [succ_mul] at hnext
    omega

end

theorem onChain_iff {c : Nat} : onChain c = true ↔ 2 ≤ c ∧ c % 2 ^ 28 < eoc := by
  rw [onChain, decide_eq_true_iff]

/-- The clusters of a chain that starts at `c`: it stays inside the volume and ends. -/
structure Chained (b : Bpb) (fat : Nat → Nat) (c : Nat) (l : List Nat) : Prop where
  walk : Walk (onChain · = true) fat c l
  mem : ∀ x ∈ l, x < b.maxCluster ∧ fat x ≠ 0

namespace Chained

variable {fat fat' : Nat → Nat} {c x : Nat} {l l' : List Nat}

section

variable (h : Chained b fat c l)
include h

theorem isCluster (hx : x ∈ l) : b.IsCluster x := by
  have hlive := onChain_iff.mp (h.walk.live_of_mem hx)
  exact ⟨hlive.1, (h.mem x hx).1⟩

theorem unique (h' : Chained b fat c l') : l = l' := h.walk.unique h'.walk

theorem nodup : l.Nodup := h.walk.nodup

theorem length_le : l.length ≤ b.maxCluster := by
  have hsub : l ⊆ range b.maxCluster := fun x hx => mem_range.mpr (h.mem x hx).1
  have hle := (h.nodup.subperm hsub).length_le
  rwa [length_range] at hle

theorem congr (hagree : ∀ x ∈ l, fat' x = fat x) : Chained b fat' c l :=
  ⟨h.walk.congr hagree, fun x hx => ⟨(h.mem x hx).1, by rw [hagree x hx]; exact (h.mem x hx).2⟩⟩

end

theorem single (hc : b.IsCluster c) (hlive : onChain c = true) (hend : fat c = 0x0FFFFFFF) : Chained b fat c [c] := by
  have hstop : ¬ onChain 0x0FFFFFFF = true := by decide
  refine ⟨⟨rfl, hlive, hend ▸ hstop⟩, fun x hx => ?_⟩
  rw [mem_singleton.mp hx, hend]
  exact ⟨hc.2, by decide⟩

end Chained

theorem onChain_of_isCluster {blocks : Nat} (hw : b.WellSized blocks) (hn : b.IsCluster n) : onChain n = true := by
  have hle := hw.max_le
  unfold Bpb.IsCluster at hn
  rw [onChain_iff]
  omega

def Cached (m : Mem) (cached : Option (Nat × List UInt8)) : Prop :=
  ∀ p ∈ cached, p.2 = m.read (512 * p.1) 512

theorem cached_read (m : Mem) (k : Nat) : Cached m (some (k, m.read (512 * k) 512)) := by
  intro p hp
  rw [← Option.mem_some_iff.mp hp]

variable {cached : Option (Nat × List UInt8)}

theorem runs_cachedSector (hc : Cached m cached) (h : k + 1 ≤ blocks s₀) :
    Runs (Stored s₀) (cachedSector cached k) m (.ok (m.read (512 * k) 512)) m := by
  cases cached with
  | none => exact runs_readSector h
  | some p =>
    obtain ⟨sec, buf⟩ := p
    unfold cachedSector
    by_cases heq : sec = k
    · have hbuf : buf = m.read (512 * k) 512 := heq ▸ hc (sec, buf) rfl
      simp only [heq, if_true]
      rw [hbuf]
      exact pure _ m
    · simp only [heq, if_false]
      exact runs_readSector h

theorem fatEntry_read (b : Bpb) (m : Mem) (n : Nat) :
    fatEntry (m.read (512 * (b.fatEntryLoc n).1) 512) (b.fatEntryLoc n).2 = leVal (m.read (b.fatAddr n) 4) % 2 ^ 28 := by
  have haddr := entryAddr b n 0
  rw [zero_mul, add_zero, add_zero] at haddr
  rw [fatEntry, field, Mem.slice_read (entryOff_le b n), haddr, Bpb.fatAddr]

theorem runs_chainFrom (hw : b.WellSized (blocks s₀)) (hm : Mounted b m v) {left c : Nat} {l : List Nat}
    (hc : Cached m cached) (h : Chained b v.fat c l) (hleft : l.length ≤ left) :
    Runs (Stored s₀) (chainFrom b left c cached) m (.ok l) m := by
  induction l generalizing left c cached with
  | nil =>
    have hend : onChain c = false := Bool.eq_false_iff.mpr h.walk
    cases left <;> simp only [chainFrom, hend] <;> exact pure [] m
  | cons x l ih =>
    obtain ⟨rfl, hlive, hrest⟩ := h.walk
    cases left with
    | zero => simp at hleft
    | succ left =>
      have hcl := h.isCluster (mem_cons_self : c ∈ c :: l)
      have hsec := hw.fatSector_lt hcl hw.fats_pos
      have hdata := hw.dataStart_le
      have hentry : fatEntry (m.read (512 * (b.fatEntryLoc c).1) 512) (b.fatEntryLoc c).2 = v.fat c := by
        rw [fatEntry_read, hm.fat c (hw.entry_lt hcl)]
      have hne := (h.mem c mem_cons_self).2
      simp only [chainFrom, hlive, if_true]
      refine (runs_cachedSector hc (by omega)).bind ?_
      rw [hentry]
      refine (failIf_false hne _ m).bind ((ih (cached_read m _) ?_ ?_).bind (pure _ m))
      · exact ⟨hrest, fun y hy => h.mem y (mem_cons_of_mem _ hy)⟩
      · simpa using hleft

theorem length_zeroCluster (b : Bpb) : (zeroCluster b).length = b.clusterBytes := length_replicate

/-- A state that holds the volume `v` on the device of `s₀`. -/
def Holds (b : Bpb) (s₀ s : S) (v : Vol) : Prop := frame s₀ s ∧ Mounted b (mem s) v

variable {ε α : Type} {x : EStateM ε S α}

theorem Holds.of_stored {v' : Vol} {r : Except ε α}
    (h : ∀ m, Mounted b m v → ∃ m', Runs (Stored s₀) x m r m' ∧ Mounted b m' v') : Runs (Holds b s₀) x v r v' := by
  intro s hs
  obtain ⟨hframe, hm⟩ := hs
  obtain ⟨m', hrun, hm'⟩ := h (mem s) hm
  obtain ⟨s', hx, hframe', hmem⟩ := hrun s ⟨hframe, rfl⟩
  exact ⟨s', hx, hframe', hmem ▸ hm'⟩

def Sized (b : Bpb) (v : Vol) : Prop := ∀ n, b.IsCluster n → (v.clus n).length = b.clusterBytes

theorem Holds.sized {s : S} (h : Holds b s₀ s v) : Sized b v := fun _ hn => h.2.length_clus hn

theorem Runs.of_sized {v' : Vol} {r : Except ε α} (h : Sized b v → Runs (Holds b s₀) x v r v') :
    Runs (Holds b s₀) x v r v' :=
  fun s hs => h hs.sized s hs

theorem Meets.of_sized {Q : Except ε α → Vol → Prop} (h : Sized b v → Meets (Holds b s₀) x v Q) :
    Meets (Holds b s₀) x v Q :=
  fun s hs => h hs.sized s hs

theorem runs_mount (hin : 1 ≤ blocks s₀) : Runs (Holds b s₀) mount v (.ok b) v := by
  refine Holds.of_stored fun m hm => ⟨m, (runs_readSector hin).bind ?_, hm⟩
  rw [hm.boot]
  exact pure b m

section

variable (hw : b.WellSized (blocks s₀))
include hw

theorem runs_readCluster (hn : b.IsCluster n) : Runs (Holds b s₀) (readCluster b n) v (.ok (v.clus n)) v := by
  refine Holds.of_stored fun m hm => ⟨m, ?_, hm⟩
  rw [hm.clus n hn]
  exact runs_readSectors (hw.sector_le hn)

theorem runs_writeCluster {data : List UInt8} (hn : b.IsCluster n) (hlen : data.length = b.clusterBytes) :
    Runs (Holds b s₀) (writeCluster b n data) v (.ok ()) (v.setClus n data) :=
  Holds.of_stored fun m hm =>
    ⟨m.write (b.clusterAddr n) data, runs_writeSectors (hw.sector_le hn) hlen, hm.setClus hw hn hlen⟩

theorem runs_writeFatEntry (hn : b.IsCluster n) (x : Nat) :
    Runs (Holds b s₀) (writeFatEntry b n x) v (.ok ()) (v.setFat n (x % 2 ^ 28)) := by
  refine Holds.of_stored fun m hm => ⟨setEntryMem b n x m, runs_writeFatCopies (entryOff_le b n) fun i hi => ?_,
    hm.setFat hw hn x⟩
  have hsec := hw.fatSector_lt hn hi
  have hdata := hw.dataStart_le
  omega

theorem runs_chain {c : Nat} {l : List Nat} (h : Chained b v.fat c l) : Runs (Holds b s₀) (chain b c) v (.ok l) v :=
  Holds.of_stored fun m hm => ⟨m, runs_chainFrom hw hm (fun _ hp => nomatch hp) h h.length_le, hm⟩

theorem runs_readEntry {α : Type} {f : List UInt8 → EStateM VfsError S α} {r : Except VfsError α} {v' : Vol}
    (hn : b.IsCluster n) (hf : ∀ buf, fatEntry buf (b.fatEntryLoc n).2 = v.fat n → Runs (Holds b s₀) (f buf) v r v') :
    Runs (Holds b s₀) (readSector (b.fatEntryLoc n).1 >>= f) v r v' := by
  intro s hs
  have hsec := hw.fatSector_lt hn hw.fats_pos
  have hdata := hw.dataStart_le
  have hin : (b.fatEntryLoc n).1 + 1 ≤ blocks s₀ := by omega
  obtain ⟨s', hread, hs'⟩ := runs_readSector hin s ⟨hs.1, rfl⟩
  have hentry : fatEntry ((mem s).read (512 * (b.fatEntryLoc n).1) 512) (b.fatEntryLoc n).2 = v.fat n := by
    rw [fatEntry_read, hs.2.fat n (hw.entry_lt hn)]
  obtain ⟨s'', hfs, hs''⟩ := hf _ hentry s' ⟨hs'.1, hs'.2.symm ▸ hs.2⟩
  refine ⟨s'', ?_, hs''⟩
  change EStateM.bind _ f s = _
  simp only [EStateM.bind, hread, outcome_ok, hfs]

theorem runs_allocFrom {j : Nat} (h2 : 2 ≤ n) (hk : n + k = b.maxCluster) (hnj : n ≤ j) (hj : b.IsCluster j)
    (hfree : v.fat j = 0) (hused : ∀ i, n ≤ i → i < j → v.fat i ≠ 0) :
    Runs (Holds b s₀) (allocFrom b k n) v (.ok j) (v.alloc b j) := by
  induction k generalizing n with
  | zero =>
    unfold Bpb.IsCluster at hj
    omega
  | succ k ih =>
    have hn : b.IsCluster n := ⟨h2, by omega⟩
    refine runs_readEntry hw hn fun buf hbuf => ?_
    rw [hbuf]
    by_cases heq : n = j
    · subst heq
      rw [if_pos hfree]
      exact (runs_writeFatEntry hw hn _).bind
        ((runs_writeCluster hw hn (length_zeroCluster b)).bind (pure n _))
    · rw [if_neg (hused n (le_refl n) (by omega))]
      exact ih (by omega) (by omega) (by omega) fun i hi hij => hused i (by omega) hij

theorem runs_allocFrom_error (h2 : 2 ≤ n) (hk : n + k ≤ b.maxCluster) (hused : ∀ i, n ≤ i → i < n + k → v.fat i ≠ 0) :
    Runs (Holds b s₀) (allocFrom b k n) v (.error .noSpace) v := by
  induction k generalizing n with
  | zero => exact throw _ v
  | succ k ih =>
    refine runs_readEntry hw ⟨h2, by omega⟩ fun buf hbuf => ?_
    rw [hbuf, if_neg (hused n (le_refl n) (by omega))]
    exact ih (by omega) (by omega) fun i hi hij => hused i (by omega) (by omega)

theorem runs_allocCluster (hn : b.IsCluster n) (hfree : v.fat n = 0) (hused : ∀ i, 2 ≤ i → i < n → v.fat i ≠ 0) :
    Runs (Holds b s₀) (allocCluster b) v (.ok n) (v.alloc b n) := by
  have hlow := hn.1
  have hhigh := hn.2
  exact runs_allocFrom hw (le_refl 2) (by omega) hn.1 hn hfree hused

theorem runs_allocCluster_error (hused : ∀ i, b.IsCluster i → v.fat i ≠ 0) :
    Runs (Holds b s₀) (allocCluster b) v (.error .noSpace) v := by
  by_cases hmax : 2 ≤ b.maxCluster
  · exact runs_allocFrom_error hw (le_refl 2) (by omega) fun i hi hlt => hused i ⟨hi, by omega⟩
  · have hzero : b.maxCluster - 2 = 0 := by omega
    rw [allocCluster, hzero]
    exact throw _ v

end

/-- What an allocator does: it hands out a free cluster, or there is no room. -/
def Allocates (b : Bpb) (v : Vol) (r : Except VfsError Nat) (v' : Vol) : Prop :=
  (∃ n, b.IsCluster n ∧ v.fat n = 0 ∧ r = .ok n ∧ v' = v.alloc b n) ∨ (r = .error .noSpace ∧ v' = v)

def NoFree (b : Bpb) (v : Vol) : Prop := ∀ i, b.IsCluster i → v.fat i ≠ 0

theorem meets_allocCluster (hw : b.WellSized (blocks s₀)) (v : Vol) :
    Meets (Holds b s₀) (allocCluster b) v fun r v' => Allocates b v r v' ∧ (r = .error .noSpace → NoFree b v) := by
  by_cases hex : ∃ n, b.IsCluster n ∧ v.fat n = 0
  · classical
    have hspec := Nat.find_spec hex
    have hmin : ∀ i, 2 ≤ i → i < Nat.find hex → v.fat i ≠ 0 := by
      intro i hi hlt hzero
      exact Nat.find_min hex hlt ⟨⟨hi, Nat.lt_trans hlt hspec.1.2⟩, hzero⟩
    refine Meets.of_runs (runs_allocCluster hw hspec.1 hspec.2 hmin) ⟨Or.inl ⟨_, hspec.1, hspec.2, rfl, rfl⟩, ?_⟩
    intro habs
    cases habs
  · have hused : ∀ i, b.IsCluster i → v.fat i ≠ 0 := fun i hi hzero => hex ⟨i, hi, hzero⟩
    exact Meets.of_runs (runs_allocCluster_error hw hused) ⟨Or.inr ⟨rfl, rfl⟩, fun _ => hused⟩

/-- What is done with an allocated cluster goes on from the volume without it. -/
theorem meets_alloc_bind {α : Type} {alloc : FatM S Nat} {f : Nat → FatM S α} {E : Except VfsError Nat → Prop}
    {Q : Except VfsError α → Vol → Prop} (halloc : Meets (Holds b s₀) alloc v fun r v' => Allocates b v r v' ∧ E r)
    (hok : ∀ n, b.IsCluster n → v.fat n = 0 → Meets (Holds b s₀) (f n) (v.alloc b n) Q)
    (hfull : E (.error .noSpace) → Q (.error .noSpace) v) : Meets (Holds b s₀) (alloc >>= f) v Q := by
  refine halloc.bind ?_ ?_
  · rintro n v' ⟨⟨n', hn, hfree, hr, rfl⟩ | ⟨habs, -⟩, -⟩
    · cases hr
      exact hok n hn hfree
    · cases habs
  · rintro e v' ⟨⟨n', -, -, habs, -⟩ | ⟨hr, rfl⟩, hE⟩
    · cases habs
    · cases hr
      exact hfull hE

end Ruos.Fat
