import Ruos.Fat.WriterAccess

/-! Allocating the clusters of a file at once (`alloc_chain`): free clusters are collected from the hint on and linked
with one write for each sector of the FAT, to every copy of it. -/
namespace Ruos.Fat.FatWriter

open Lib Vfs Block Mem List Nat

section

variable {stride sec k a : Nat} {buf buf' : List UInt8} {m : Mem}

/-- The store after a sector was written to `k` copies of the FAT. -/
def copiesMem (stride : Nat) (buf : List UInt8) (sec : Nat) : Nat → Mem → Mem
  | 0, m => m
  | k + 1, m => copiesMem stride buf (sec + stride) k (m.write (512 * sec) buf)

theorem copiesMem_outside (hbuf : buf.length = 512)
    (h : ∀ i < k, ¬ (512 * (sec + i * stride) ≤ a ∧ a < 512 * (sec + i * stride) + 512)) :
    copiesMem stride buf sec k m a = m a := by
  induction k generalizing sec m with
  | zero => rfl
  | succ k ih =>
    have hfirst := h 0 (by omega)
    have hrest := forall_next (P := fun n => ¬ (512 * n ≤ a ∧ a < 512 * n + 512)) h
    rw [copiesMem, ih hrest, write_of_outside]
    omega

theorem copiesMem_inside (hbuf : buf.length = 512) (hs : 0 < stride) {i j : Nat} (hj : j < k) (hi : i < 512) :
    copiesMem stride buf sec k m (512 * (sec + j * stride) + i) = buf.getD i 0 := by
  induction k generalizing sec m j with
  | zero => omega
  | succ k ih =>
    rw [copiesMem]
    cases j with
    | zero =>
      rw [Nat.zero_mul, Nat.add_zero, copiesMem_outside hbuf fun l _ => by omega, write, if_pos (by omega),
        Nat.add_sub_cancel_left]
    | succ j =>
      have hsec : sec + (j + 1) * stride = sec + stride + j * stride := by ring
      rw [hsec]
      exact ih (by omega)

theorem copiesMem_cases (stride sec k a : Nat) : (∃ j i, j < k ∧ i < 512 ∧ a = 512 * (sec + j * stride) + i) ∨
      ∀ i < k, ¬ (512 * (sec + i * stride) ≤ a ∧ a < 512 * (sec + i * stride) + 512) := by
  by_cases hex : ∃ j < k, 512 * (sec + j * stride) ≤ a ∧ a < 512 * (sec + j * stride) + 512
  · obtain ⟨j, hj, hlo, hhi⟩ := hex
    exact .inl ⟨j, a - 512 * (sec + j * stride), hj, by omega, by omega⟩
  · exact .inr fun i hi hin => hex ⟨i, hi, hin⟩

theorem copiesMem_copiesMem (hbuf : buf.length = 512) (hbuf' : buf'.length = 512) (hs : 0 < stride) :
    copiesMem stride buf' sec k (copiesMem stride buf sec k m) = copiesMem stride buf' sec k m := by
  funext a
  rcases copiesMem_cases stride sec k a with ⟨j, i, hj, hi, rfl⟩ | hout
  · rw [copiesMem_inside hbuf' hs hj hi, copiesMem_inside hbuf' hs hj hi]
  · rw [copiesMem_outside hbuf' hout, copiesMem_outside hbuf hout, copiesMem_outside hbuf' hout]

theorem read_copiesMem (hbuf : buf.length = 512) (hs : 0 < stride) (hk : 0 < k) :
    (copiesMem stride buf sec k m).read (512 * sec) 512 = buf := by
  apply ext_getElem?
  intro i
  rw [getElem?_read]
  by_cases hi : i < 512
  · have hin := @copiesMem_inside stride sec k buf m hbuf hs i 0 hk hi
    rw [zero_mul, add_zero] at hin
    rw [if_pos hi, hin, getD_eq_getElem?_getD, getElem?_eq_getElem (by omega), Option.getD_some]
  · rw [if_neg hi, getElem?_eq_none (by omega)]

end

section

variable {b : Bpb} {m : Mem} {v : Vol} {blocks c x a : Nat}

/-- The store after the sector with the entry of cluster `c` was changed and written to every copy. -/
def sectorMem (b : Bpb) (c x : Nat) (m : Mem) : Mem :=
  copiesMem b.fatSz32 (setFatEntry (m.read (512 * (b.fatEntryLoc c).1) 512) (b.fatEntryLoc c).2 x) (b.fatEntryLoc c).1
    b.numFats m

theorem length_setFatEntry_read (b : Bpb) (c x : Nat) (m : Mem) :
    (setFatEntry (m.read (512 * (b.fatEntryLoc c).1) 512) (b.fatEntryLoc c).2 x).length = 512 := by
  have hoff := entryOff_le b c
  rw [setFatEntry, length_splice (by simpa using hoff), length_read]

theorem sectorMem_eq (hw : b.WellSized blocks) (hc : b.IsCluster c)
    (ha : a < 512 * (b.rsvdSecCnt + b.fatSz32) ∨ 512 * b.dataStartSector ≤ a) :
    sectorMem b c x m a = setEntryMem b c x m a := by
  have hlen := length_setFatEntry_read b c x m
  rcases ha with ha | ha
  · obtain ⟨k, hk⟩ : ∃ k, b.numFats = k + 1 := ⟨b.numFats - 1, by have := hw.fats_pos; omega⟩
    have hloc : b.rsvdSecCnt ≤ (b.fatEntryLoc c).1 := by
      simp only [Bpb.fatEntryLoc]
      omega
    rw [sectorMem, setEntryMem, hk, copiesMem, setCopies, copiesMem_outside hlen fun i _ => by omega,
      setCopies_outside (entryOff_le b c) fun i _ => by omega]
  · rw [setEntryMem_data hw hc ha, sectorMem, copiesMem_outside hlen]
    intro i hi
    have hsec := hw.fatSector_lt hc hi
    omega

theorem sectorMem_mirror (h : Mounted b m v) (hw : b.WellSized blocks) (hc : b.IsCluster c) (hmir : v.mirrored) {k i : Nat}
    (hk : k < b.numFats) (hi : i < 512 * b.fatSz32) :
    sectorMem b c x m (512 * (b.rsvdSecCnt + k * b.fatSz32) + i) = sectorMem b c x m (512 * b.rsvdSecCnt + i) := by
  have hlen := length_setFatEntry_read b c x m
  have hpos : 0 < b.fatSz32 := by
    omega
  by_cases hsame : i / 512 = c * 4 / 512
  · -- the byte is in the sector that was written
    have hin : ∀ j < b.numFats, sectorMem b c x m (512 * (b.rsvdSecCnt + j * b.fatSz32) + i) =
        (setFatEntry (m.read (512 * (b.fatEntryLoc c).1) 512) (b.fatEntryLoc c).2 x).getD (i % 512) 0 := by
      intro j hj
      have haddr : 512 * (b.rsvdSecCnt + j * b.fatSz32) + i =
          512 * ((b.fatEntryLoc c).1 + j * b.fatSz32) + i % 512 := by
        simp only [Bpb.fatEntryLoc]
        omega
      rw [haddr, sectorMem, copiesMem_inside hlen hpos hj (mod_lt i (by decide))]
    have hfirst := hin 0 hw.fats_pos
    rw [zero_mul, add_zero] at hfirst
    rw [hin k hk, hfirst]
  · have hout : ∀ j < b.numFats, sectorMem b c x m (512 * (b.rsvdSecCnt + j * b.fatSz32) + i) =
        m (512 * (b.rsvdSecCnt + j * b.fatSz32) + i) := by
      intro j _
      rw [sectorMem, copiesMem_outside hlen]
      intro l _
      have hentry := hw.entry_lt hc
      simp only [Bpb.fatEntryLoc]
      rcases mul_apart l j b.fatSz32 with hlt | rfl | hlt <;> omega
    have hfirst := hout 0 hw.fats_pos
    rw [zero_mul, add_zero] at hfirst
    rw [hout k hk, hfirst]
    exact h.mirror hmir k hk i hi

theorem mounted_sectorMem (h : Mounted b m v) (hw : b.WellSized blocks) (hc : b.IsCluster c) (x : Nat) :
    Mounted b (sectorMem b c x m) (v.setFat c (x % 2 ^ 28)) := by
  have hset := h.setFat hw hc x
  have hboot := hw.boot_le
  constructor
  · rw [read_congr fun a _ ha => sectorMem_eq hw hc (.inl (by omega))]
    exact hset.boot
  · intro n hn
    rw [read_congr fun a _ ha => sectorMem_eq hw hc (.inl (by unfold Bpb.fatAddr at ha; omega))]
    exact hset.fat n hn
  · intro n hn
    have hdata := Bpb.dataStart_le_clusterAddr b n
    rw [read_congr fun a ha _ => sectorMem_eq hw hc (.inr (by omega))]
    exact hset.clus n hn
  · intro hmir k hk i hi
    exact sectorMem_mirror h hw hc hmir hk hi
end

open ErrorFree Option FatWriter.Runs Lib.Runs

section

variable {fat : Nat → Nat} {k cur n : Nat}

/-- The first `n` free clusters of the `k` clusters from `cur` on, and the cluster behind those examined. -/
def collected (fat : Nat → Nat) : (k cur n : Nat) → Option (List Nat × Nat)
  | _, cur, 0 => some ([], cur)
  | 0, _, _ + 1 => none
  | k + 1, cur, n + 1 =>
    if fat cur = 0 then (collected fat k (cur + 1) n).map fun p => (cur :: p.1, p.2)
    else collected fat k (cur + 1) (n + 1)

/-- The number of free clusters among the `k` from `cur` on. -/
def countFree (fat : Nat → Nat) (k cur : Nat) : Nat := (List.range' cur k).countP fun c => fat c = 0

theorem countFree_succ (fat : Nat → Nat) (k cur : Nat) :
    countFree fat (k + 1) cur = countFree fat k (cur + 1) + if fat cur = 0 then 1 else 0 := by
  rw [countFree, range'_succ, countP_cons, countFree]
  simp

theorem collected_eq_none : collected fat k cur n = none ↔ countFree fat k cur < n := by
  induction k generalizing cur n with
  | zero =>
    cases n with
    | zero | succ => simp [collected, countFree]
  | succ k ih =>
    rw [countFree_succ]
    cases n with
    | zero => simp [collected]
    | succ n =>
      rw [collected]
      by_cases hfree : fat cur = 0
      · rw [if_pos hfree, if_pos hfree, map_eq_none_iff, ih]
        omega
      · rw [if_neg hfree, if_neg hfree, ih]
        omega

theorem collected_spec {cs : List Nat} {e : Nat} (h : collected fat k cur n = some (cs, e)) :
    cs.length = n ∧ (∀ c ∈ cs, cur ≤ c ∧ c < cur + k ∧ fat c = 0) ∧ cs.Nodup := by
  induction k generalizing cur n cs e with
  | zero =>
    cases n with
    | zero =>
      obtain ⟨rfl, -⟩ : [] = cs ∧ cur = e := by simpa [collected] using h
      simp
    | succ n => cases h
  | succ k ih =>
    cases n with
    | zero =>
      obtain ⟨rfl, -⟩ : [] = cs ∧ cur = e := by simpa [collected] using h
      simp
    | succ n =>
      rw [collected] at h
      by_cases hfree : fat cur = 0
      · rw [if_pos hfree] at h
        obtain ⟨⟨ds, e'⟩, hds, heq⟩ := map_eq_some_iff.mp h
        obtain ⟨rfl, -⟩ : cur :: ds = cs ∧ e' = e := by simpa using heq
        obtain ⟨hlen, hmem, hnodup⟩ := ih hds
        refine ⟨by rw [length_cons, hlen], fun c hc => ?_, nodup_cons.mpr ⟨fun hc => ?_, hnodup⟩⟩
        · rcases mem_cons.mp hc with rfl | hc
          · exact ⟨le_refl c, by omega, hfree⟩
          · obtain ⟨hlo, hhi, hzero⟩ := hmem c hc
            exact ⟨by omega, by omega, hzero⟩
        · have hlo := (hmem cur hc).1
          omega
      · rw [if_neg hfree] at h
        obtain ⟨hlen, hmem, hnodup⟩ := ih h
        refine ⟨hlen, fun c hc => ?_, hnodup⟩
        obtain ⟨hlo, hhi, hzero⟩ := hmem c hc
        exact ⟨by omega, by omega, hzero⟩

end

section

variable {b : Bpb} {v : Vol} {c x : Nat} {cs : List Nat}

/-- The volume after the clusters were linked in the order of the list. -/
def linkAll (v : Vol) : List Nat → Vol
  | [] => v
  | c :: cs => linkAll (v.setFat c (cs.headD 0x0FFFFFFF % 2 ^ 28)) cs

theorem clus_linkAll (v : Vol) (cs : List Nat) : (linkAll v cs).clus = v.clus := by
  induction cs generalizing v with
  | nil => rfl
  | cons c cs ih => exact ih _

theorem fat_linkAll_of_notMem (hx : x ∉ cs) (v : Vol) : (linkAll v cs).fat x = v.fat x := by
  induction cs generalizing v with
  | nil => rfl
  | cons c cs ih =>
    obtain ⟨hne, hx⟩ := not_or.mp (mem_cons.not.mp hx)
    rw [linkAll, ih hx]
    exact Function.update_of_ne hne _ _

theorem fat_linkAll_head (hc : c ∉ cs) (v : Vol) : (linkAll v (c :: cs)).fat c = cs.headD 0x0FFFFFFF % 2 ^ 28 := by
  rw [linkAll, fat_linkAll_of_notMem hc]
  exact Function.update_self _ _ _

theorem chained_linkAll {blocks : Nat} (hw : b.WellSized blocks) (hcs : ∀ d ∈ c :: cs, b.IsCluster d)
    (hnodup : (c :: cs).Nodup) (v : Vol) : Chained b (linkAll v (c :: cs)).fat c (c :: cs) := by
  induction cs generalizing c v with
  | nil =>
    have hc := hcs c (mem_cons_self ..)
    have hlink := fat_linkAll_head (not_mem_nil (a := c)) v
    constructor
    · refine ⟨rfl, onChain_of_isCluster hw hc, ?_⟩
      rw [hlink]
      exact (by decide : ¬ onChain 0x0FFFFFFF = true)
    · intro x hx
      rw [mem_singleton.mp hx, hlink]
      exact ⟨hc.2, by decide⟩
  | cons d cs ih =>
    obtain ⟨hc, hrest⟩ := forall_mem_cons.mp hcs
    obtain ⟨hnotin, hnodup⟩ := nodup_cons.mp hnodup
    have hd := hrest d (mem_cons_self ..)
    have hchain := ih hrest hnodup (v.setFat c (d % 2 ^ 28))
    have hlink : (linkAll v (c :: d :: cs)).fat c = d := by
      have hlt := hd.2
      have hmax := hw.max_le
      rw [fat_linkAll_head hnotin, headD_cons]
      unfold eoc at hmax
      omega
    constructor
    · refine ⟨rfl, onChain_of_isCluster hw hc, ?_⟩
      rw [hlink]
      exact hchain.walk
    · intro x hx
      rcases mem_cons.mp hx with rfl | hx
      · exact ⟨hc.2, by have := hd.1; omega⟩
      · exact hchain.mem x hx

end

variable {S : Type} [BlockDevice S] [ErrorFree S] {s₀ : S} {w₀ : FatWriter S} {b : Bpb} {v : Vol} {m : Mem} {n h : Nat}

theorem runs_writeCopies {stride sec k : Nat} {buf : List UInt8} (hbuf : buf.length = 512)
    (hin : ∀ i < k, sec + i * stride < blocks s₀) :
    Runs (Stored s₀) (writeCopies stride buf sec k) m (.ok ()) (copiesMem stride buf sec k m) := by
  induction k generalizing sec m with
  | zero => exact pure () m
  | succ k ih =>
    have hfirst := hin 0 (by omega)
    refine (runs_writeSector one_pos (by omega) (by omega)).bind (ih fun i hi => ?_)
    have hnext := hin (i + 1) (by omega)
    rw [add_one_mul] at hnext
    omega

/-- The store once the resident sector of the FAT is written back. -/
def flushed (b : Bpb) (m : Mem) : Option (Nat × List UInt8) → Mem
  | none => m
  | some (sec, buf) => copiesMem b.fatSz32 buf sec b.numFats m

def Resident (b : Bpb) (loaded : Option (Nat × List UInt8)) : Prop :=
  ∀ p ∈ loaded, p.2.length = 512 ∧ ∃ c, b.IsCluster c ∧ p.1 = (b.fatEntryLoc c).1

section

variable (hw : b.WellSized (blocks s₀))
include hw

theorem copies_inside {c : Nat} (hc : b.IsCluster c) :
    ∀ i < b.numFats, (b.fatEntryLoc c).1 + i * b.fatSz32 < blocks s₀ := by
  intro i hi
  have hsec := hw.fatSector_lt hc hi
  have hdata := hw.dataStart_le
  omega

variable {loaded : Option (Nat × List UInt8)}

theorem runs_flushFat (hl : Resident b loaded) :
    Runs (Stored s₀) (flushFat b loaded) m (.ok ()) (flushed b m loaded) := by
  cases loaded with
  | none => exact pure () m
  | some p =>
    obtain ⟨hlen, c, hc, hsec⟩ := hl p rfl
    have hin := copies_inside hw hc
    rw [← hsec] at hin
    exact runs_writeCopies hlen hin

/-- The sector is loaded as it will be once everything is written back. Only another sector is written back
before. -/
theorem runs_loadFat (hl : Resident b loaded) {c : Nat} (hc : b.IsCluster c) :
    ∃ m', Runs (Stored s₀) (loadFat b loaded (b.fatEntryLoc c).1) m
        (.ok ((flushed b m loaded).read (512 * (b.fatEntryLoc c).1) 512)) m' ∧ ∀ buf : List UInt8, buf.length = 512 →
        copiesMem b.fatSz32 buf (b.fatEntryLoc c).1 b.numFats m' =
          copiesMem b.fatSz32 buf (b.fatEntryLoc c).1 b.numFats (flushed b m loaded) := by
  have hin := copies_inside hw hc 0 hw.fats_pos
  rw [zero_mul] at hin
  have hpos : 0 < b.fatSz32 := by
    have hentry := hw.entry_lt hc
    omega
  cases loaded with
  | none => exact ⟨m, runs_readSector hin, fun _ _ => rfl⟩
  | some p =>
    obtain ⟨sec, old⟩ := p
    have hlen := (hl _ rfl).1
    by_cases hsec : sec = (b.fatEntryLoc c).1
    · refine ⟨m, ?_, fun buf hbuf => ?_⟩
      · have hread := @read_copiesMem b.fatSz32 sec b.numFats old m hlen hpos hw.fats_pos
        rw [← hsec, flushed, hread, loadFat, if_pos rfl]
        exact pure old m
      · rw [← hsec]
        exact (copiesMem_copiesMem hlen hbuf hpos).symm
    · refine ⟨flushed b m (some (sec, old)), ?_, fun _ _ => rfl⟩
      rw [loadFat, if_neg hsec]
      exact (runs_flushFat hw hl).bind (runs_readSector hin)

theorem runs_writeChainFrom (hl : Resident b loaded) (hm : Mounted b (flushed b m loaded) v) {cs : List Nat}
    (hcs : ∀ c ∈ cs, b.IsCluster c) :
    ∃ m', Runs (Stored s₀) (writeChainFrom b loaded cs) m (.ok ()) m' ∧ Mounted b m' (linkAll v cs) := by
  induction cs generalizing loaded m v with
  | nil => exact ⟨_, runs_flushFat hw hl, hm⟩
  | cons c cs ih =>
    obtain ⟨hc, hcs⟩ := forall_mem_cons.mp hcs
    obtain ⟨m₁, hload, hcopies⟩ := runs_loadFat hw hl hc
    have hlen := length_setFatEntry_read b c (cs.headD 0x0FFFFFFF) (flushed b m loaded)
    have hres : Resident b (some ((b.fatEntryLoc c).1,
        setFatEntry ((flushed b m loaded).read (512 * (b.fatEntryLoc c).1) 512) (b.fatEntryLoc c).2
          (cs.headD 0x0FFFFFFF))) := by
      intro p hp
      obtain rfl := mem_some_iff.mp hp
      exact ⟨hlen, c, hc, rfl⟩
    have hnext := mounted_sectorMem hm hw hc (cs.headD 0x0FFFFFFF)
    rw [sectorMem, ← hcopies _ hlen] at hnext
    obtain ⟨m', hrun, hm'⟩ := ih hres hnext hcs
    exact ⟨m', hload.bind hrun, hm'⟩

theorem runs_writeChainFat {cs : List Nat} (hcs : ∀ c ∈ cs, b.IsCluster c) :
    Runs (Holds b s₀) (writeChainFat b cs) v (.ok ()) (linkAll v cs) := by
  refine Holds.of_stored fun m hm => ?_
  have hres : Resident b none := fun p hp => nomatch hp
  exact runs_writeChainFrom hw hres hm hcs

end

section

omit [ErrorFree S] in
theorem keeps_writeCopies (stride : Nat) (buf : List UInt8) (sec k : Nat) :
    Keeps (writeCopies stride buf sec k : FatM (FatWriter S) Unit) := by
  induction k generalizing sec with
  | zero => exact .pure ()
  | succ k ih => exact (keeps_writeSector sec buf).bind fun _ => ih _

omit [ErrorFree S] in
theorem keeps_flushFat (loaded : Option (Nat × List UInt8)) : Keeps (flushFat b loaded : FatM (FatWriter S) Unit) := by
  cases loaded with
  | none => exact .pure ()
  | some p => exact keeps_writeCopies _ _ _ _

omit [ErrorFree S] in
theorem keeps_loadFat (loaded : Option (Nat × List UInt8)) (sec : Nat) :
    Keeps (loadFat b loaded sec : FatM (FatWriter S) (List UInt8)) := by
  cases loaded with
  | none => exact keeps_readSector sec
  | some p =>
    unfold loadFat
    by_cases heq : p.1 = sec
    · simp only [heq, if_true]
      exact .pure p.2
    · simp only [heq, if_false]
      exact (keeps_flushFat _).bind fun _ => keeps_readSector sec

omit [ErrorFree S] in
theorem keeps_writeChainFat (cs : List Nat) : Keeps (writeChainFat b cs : FatM (FatWriter S) Unit) := by
  have hfrom : ∀ loaded, Keeps (writeChainFrom b loaded cs : FatM (FatWriter S) Unit) := by
    induction cs with
    | nil => exact keeps_flushFat
    | cons c cs ih => exact fun loaded => (keeps_loadFat _ _).bind fun _ => ih _
  exact hfrom none

/-- What the search for clusters answers, and where it leaves the hint. -/
def collectReply (h : Nat) : Option (List Nat × Nat) → Except VfsError (List Nat) × Nat
  | some p => (.ok p.1, p.2)
  | none => (.error .noSpace, h)

variable (hw : b.WellSized (blocks w₀))
include hw

theorem runs_collectFrom (hm : Mounted b m v) {k cur : Nat} {cached : Option (Nat × List UInt8)} (hc : Cached m cached)
    (hk : ∀ i < k, b.IsCluster (cur + i)) :
    Runs (fun w p => Stored w₀ w p.1 ∧ w.nextFree = p.2) (collectFrom b k cur n cached) (m, h)
      (collectReply h (collected v.fat k cur n)).1 (m, (collectReply h (collected v.fat k cur n)).2) := by
  induction k generalizing cur n cached with
  | zero =>
    cases n with
    | zero => exact fun w hs => ⟨{ w with nextFree := cur }, rfl, hs.1, rfl⟩
    | succ n => exact throw _ _
  | succ k ih =>
    cases n with
    | zero => exact fun w hs => ⟨{ w with nextFree := cur }, rfl, hs.1, rfl⟩
    | succ n =>
      have hcur : b.IsCluster cur := hk 0 (succ_pos k)
      have hnext : ∀ i < k, b.IsCluster (cur + 1 + i) := by
        intro i hi
        rw [add_assoc, add_comm 1]
        exact hk (i + 1) (succ_lt_succ hi)
      have hsec := copies_inside hw hcur 0 hw.fats_pos
      rw [zero_mul, add_zero] at hsec
      have hentry : fatEntry (m.read (512 * (b.fatEntryLoc cur).1) 512) (b.fatEntryLoc cur).2 = v.fat cur := by
        rw [fatEntry_read, hm.fat cur (hw.entry_lt hcur)]
      have hread : Runs (fun (w : FatWriter S) p => Stored w₀ w p.1 ∧ w.nextFree = p.2)
          (cachedSector cached (b.fatEntryLoc cur).1) (m, h) (.ok (m.read (512 * (b.fatEntryLoc cur).1) 512)) (m, h) := by
        rintro w ⟨hs, hh⟩
        obtain ⟨w', hrun, hs'⟩ := runs_cachedSector hc hsec w hs
        have hkeep := keeps_cachedSector cached (b.fatEntryLoc cur).1 w
        rw [reply_eq hrun] at hkeep
        exact ⟨w', hrun, hs', hkeep.trans hh⟩
      refine hread.bind ?_
      rw [hentry, collected]
      by_cases hfree : v.fat cur = 0
      · rw [if_pos hfree, if_pos hfree]
        have hrest := ih (n := n) (cached_read m (b.fatEntryLoc cur).1) hnext
        cases hcol : collected v.fat k (cur + 1) n with
        | none =>
          rw [hcol] at hrest
          exact bind_error hrest
        | some p =>
          rw [hcol] at hrest
          exact bind hrest (pure _ _)
      · rw [if_neg hfree, if_neg hfree]
        exact ih (cached_read m _) hnext

/-- The number of free clusters that a writer with hint `h` can still find. -/
def freeFrom (b : Bpb) (v : Vol) (h : Nat) : Nat := countFree v.fat (b.maxCluster - max h 2) (max h 2)

theorem runs_collectFreeClusters (v : Vol) (n h : Nat) : Runs (Hinted b w₀) (collectFreeClusters b n) (v, h)
      (collectReply h (collected v.fat (b.maxCluster - max h 2) (max h 2) n)).1
      (v, (collectReply h (collected v.fat (b.maxCluster - max h 2) (max h 2) n)).2) := by
  rintro w ⟨⟨hframe, hm⟩, rfl⟩
  have hrange : ∀ i < b.maxCluster - max w.nextFree 2, b.IsCluster (max w.nextFree 2 + i) := by
    intro i hi
    exact ⟨by omega, by omega⟩
  have hnone : Cached (mem w) none := fun p hp => nomatch hp
  obtain ⟨w', hrun, hs, hh⟩ := runs_collectFrom hw hm hnone hrange w ⟨⟨hframe, rfl⟩, rfl⟩
  exact ⟨w', hrun, ⟨hs.1, hs.2 ▸ hm⟩, hh⟩

theorem meets_allocChain (v : Vol) (h : Nat) (hn : 0 < n) : Meets (Hinted b w₀) (allocChain b n) (v, h) fun r p =>
      (∃ c cs, (c :: cs).length = n ∧ (c :: cs).Nodup ∧ (∀ x ∈ c :: cs, b.IsCluster x ∧ v.fat x = 0) ∧ r = .ok c ∧
        p.1 = linkAll v (c :: cs) ∧ n ≤ freeFrom b v h) ∨
      (r = .error .noSpace ∧ p = (v, h) ∧ freeFrom b v h < n) := by
  have hcol := runs_collectFreeClusters hw v n h
  refine Meets.bind_runs (failIf_false (by omega) _ _) ?_
  cases hfound : collected v.fat (b.maxCluster - max h 2) (max h 2) n with
  | none =>
    rw [hfound] at hcol
    exact Meets.of_runs (bind_error hcol) (Or.inr ⟨rfl, rfl, collected_eq_none.mp hfound⟩)
  | some p =>
    obtain ⟨cs, e⟩ := p
    rw [hfound] at hcol
    obtain ⟨hlen, hmem, hnodup⟩ := collected_spec hfound
    have hcs : ∀ c ∈ cs, b.IsCluster c ∧ v.fat c = 0 := by
      intro c hc
      obtain ⟨hlo, hhi, hfree⟩ := hmem c hc
      exact ⟨⟨by omega, by omega⟩, hfree⟩
    have hlink := hinted (runs_writeChainFat (v := v) hw fun c hc => (hcs c hc).1) (keeps_writeChainFat cs) e
    refine Meets.of_runs (hcol.bind (hlink.bind (pure _ _))) (Or.inl ?_)
    have hmany : n ≤ freeFrom b v h := by
      rw [← not_lt, freeFrom, ← collected_eq_none, hfound]
      exact some_ne_none _
    cases cs with
    | nil => exact absurd hlen (by rw [length_nil]; omega)
    | cons c cs => exact ⟨c, cs, hlen, hnodup, hcs, rfl, rfl, hmany⟩

end

end Ruos.Fat.FatWriter
