import Ruos.Fat.WriterChain
import Ruos.Fat.Authoring

/-! The data of a file, written in contiguous runs of clusters (`write_data_run`): every cluster of the chain gets its
piece of the data, and the last one is padded with zeros. -/
namespace Ruos.Fat.FatWriter

open Lib Vfs Block ErrorFree List Bpb Mem Nat

def padded (n : Nat) (data : List UInt8) : List UInt8 := data ++ List.replicate (n - data.length) 0

section

variable {n k : Nat} {data : List UInt8}

theorem length_padded (h : data.length ≤ n) : (padded n data).length = n := by
  rw [padded, length_append, length_replicate]
  omega

theorem padded_self (h : data.length = n) : padded n data = data := by
  rw [padded, h, Nat.sub_self, replicate_zero, append_nil]

theorem padded_add (n k : Nat) (data : List UInt8) :
    padded (n + k) data = padded n (data.take n) ++ padded k (data.drop n) := by
  by_cases hle : data.length ≤ n
  · rw [padded, padded, padded, take_of_length_le hle, drop_of_length_le hle, nil_append, length_nil, append_assoc, ← replicate_add]
    congr 2
    omega
  · have htake : (data.take n).length = n := by rw [length_take]; omega
    rw [padded_self htake, padded, padded, length_drop, ← append_assoc, take_append_drop]
    congr 2
    omega

end

/-- The volume after the clusters of a list were filled with data. -/
def fillAll (b : Bpb) (v : Vol) : List Nat → List UInt8 → Vol
  | [], _ => v
  | c :: cs, data =>
    fillAll b (v.setClus c (padded b.clusterBytes (data.take b.clusterBytes))) cs (data.drop b.clusterBytes)

section

variable {b : Bpb} {cs ds : List Nat} {x : Nat}

theorem fat_fillAll (b : Bpb) (v : Vol) (cs : List Nat) (data : List UInt8) : (fillAll b v cs data).fat = v.fat := by
  induction cs generalizing v data with
  | nil => rfl
  | cons c cs ih => exact ih _ _

theorem clus_fillAll_of_notMem (hx : x ∉ cs) (v : Vol) (data : List UInt8) :
    (fillAll b v cs data).clus x = v.clus x := by
  induction cs generalizing v data with
  | nil => rfl
  | cons c cs ih =>
    obtain ⟨hne, hx⟩ := not_or.mp (mem_cons.not.mp hx)
    rw [fillAll, ih hx]
    exact Vol.clus_setClus_of_ne hne _ _

theorem fillAll_append (v : Vol) (cs ds : List Nat) (data : List UInt8) : fillAll b v (cs ++ ds) data =
      fillAll b (fillAll b v cs (data.take (cs.length * b.clusterBytes))) ds
        (data.drop (cs.length * b.clusterBytes)) := by
  induction cs generalizing v data with
  | nil => simp [fillAll]
  | cons c cs ih =>
    have hmul : (c :: cs).length * b.clusterBytes = b.clusterBytes + cs.length * b.clusterBytes := by
      rw [length_cons, Nat.succ_mul, Nat.add_comm]
    rw [hmul, cons_append, fillAll, ih, fillAll, take_take, Nat.min_eq_left (Nat.le_add_right _ _),
      drop_drop, drop_take, Nat.add_sub_cancel_left]

end

variable {S : Type} [BlockDevice S] [ErrorFree S] {s₀ : S} {b : Bpb} {v : Vol} {m : Mem} {c k : Nat}

theorem clusterAddr_succ (b : Bpb) (h2 : 2 ≤ c) : b.clusterAddr (c + 1) = b.clusterAddr c + b.clusterBytes := by
  have hsub : c + 1 - 2 = c - 2 + 1 := by omega
  rw [clusterAddr, clusterAddr, clusterSector, clusterSector, clusterBytes, hsub,
    Nat.add_one_mul (c - 2)]
  omega

variable {data : List UInt8}

theorem mounted_fillRun {blocks : Nat} (hm : Mounted b m v) (hw : b.WellSized blocks)
    (hk : ∀ i < k, b.IsCluster (c + i)) :
    Mounted b (m.write (b.clusterAddr c) (padded (k * b.clusterBytes) (data.take (k * b.clusterBytes))))
      (fillAll b v (range' c k) data) := by
  induction k generalizing c m v data with
  | zero =>
    have hnil : padded (0 * b.clusterBytes) (data.take (0 * b.clusterBytes)) = [] := by
      rw [Nat.zero_mul]
      rfl
    rw [hnil, write_nil]
    exact hm
  | succ k ih =>
    have hc : b.IsCluster c := hk 0 (Nat.succ_pos k)
    have hnext : ∀ i < k, b.IsCluster (c + 1 + i) := by
      intro i hi
      rw [Nat.add_assoc, Nat.add_comm 1]
      exact hk (i + 1) (Nat.succ_lt_succ hi)
    have hlen : (padded b.clusterBytes (data.take b.clusterBytes)).length = b.clusterBytes :=
      length_padded (by rw [length_take]; omega)
    have hsplit : padded ((k + 1) * b.clusterBytes) (data.take ((k + 1) * b.clusterBytes)) =
        padded b.clusterBytes (data.take b.clusterBytes) ++
          padded (k * b.clusterBytes) ((data.drop b.clusterBytes).take (k * b.clusterBytes)) := by
      rw [Nat.succ_mul, Nat.add_comm (k * b.clusterBytes), padded_add, take_take,
        Nat.min_eq_left (Nat.le_add_right _ _), drop_take, Nat.add_sub_cancel_left]
    have hfirst := hm.setClus hw hc hlen
    rw [hsplit, write_append, hlen, ← clusterAddr_succ b hc.1]
    exact ih hfirst hnext

theorem runs_writeChunks {lba full k : Nat} (hlen : data.length = 512 * full) (hfull : full ≤ 8192 * k)
    (hk : 8192 * (k - 1) < full ∨ k = 0) (hin : lba + full ≤ blocks s₀) :
    Runs (Stored s₀) (writeChunks lba data k) m (.ok ()) (m.write (512 * lba) data) := by
  induction k generalizing lba full data m with
  | zero =>
    have hnil : data = [] := length_eq_zero_iff.mp (by omega)
    rw [hnil, write_nil]
    exact Runs.pure () m
  | succ k ih =>
    have htake : (data.take maxWriteBytes).length = 512 * min 8192 full := by
      rw [length_take, maxWriteBytes]
      omega
    have hdrop : (data.drop maxWriteBytes).length = 512 * (full - 8192) := by
      rw [length_drop, maxWriteBytes]
      omega
    have hwrite : m.write (512 * lba) data =
        (m.write (512 * lba) (data.take maxWriteBytes)).write (512 * (lba + 8192)) (data.drop maxWriteBytes) := by
      by_cases hbig : 8192 ≤ full
      · have haddr : 512 * (lba + 8192) = 512 * lba + (data.take maxWriteBytes).length := by omega
        rw [haddr, ← write_append, take_append_drop]
      · have hnil : data.drop maxWriteBytes = [] := length_eq_zero_iff.mp (by omega)
        have hall : data.take maxWriteBytes = data := take_of_length_le (by rw [maxWriteBytes]; omega)
        rw [hnil, hall, write_nil]
    rw [hwrite]
    refine (runs_writeSector (by omega) htake (by omega)).bind ?_
    by_cases hbig : 8192 ≤ full
    · exact ih hdrop (by omega) (by omega) (by omega)
    · have hzero : k = 0 := by omega
      subst hzero
      have hnil : data.drop maxWriteBytes = [] := length_eq_zero_iff.mp (by omega)
      rw [hnil, write_nil]
      exact Runs.pure () _

theorem runs_writeWindow {lba sectors : Nat} {window : List UInt8} (hlen : window.length ≤ 512 * sectors)
    (hin : lba + sectors ≤ blocks s₀) :
    Runs (Stored s₀) (writeWindow lba sectors window) m (.ok ()) (m.write (512 * lba) (padded (512 * sectors) window)) := by
  have htake : (window.take (512 * (window.length / 512))).length = 512 * (window.length / 512) := by
    rw [length_take]
    omega
  have hchunks : Runs (Stored s₀) (writeChunks lba (window.take (512 * (window.length / 512)))
      ((window.length / 512 + 8191) / 8192)) m (.ok ()) (m.write (512 * lba) (window.take (512 * (window.length / 512)))) :=
    runs_writeChunks htake (by omega) (by omega) (by omega)
  refine hchunks.bind ?_
  have hsplit : 512 * sectors = 512 * (window.length / 512) + 512 * (sectors - window.length / 512) := by omega
  rw [hsplit, padded_add, padded_self htake, write_append, htake, ← mul_add]
  by_cases hrest : window.length / 512 < sectors
  · have hdrop : (window.drop (512 * (window.length / 512))).length ≤ 512 * (sectors - window.length / 512) := by
      rw [length_drop]
      omega
    have hbuf : splice (replicate (512 * (sectors - window.length / 512)) 0) 0
        (window.drop (512 * (window.length / 512))) =
        padded (512 * (sectors - window.length / 512)) (window.drop (512 * (window.length / 512))) := by
      rw [splice, padded, take_zero, nil_append, zero_add, drop_replicate]
    rw [if_pos hrest, hbuf]
    exact runs_writeSector (by omega) (length_padded hdrop) (by omega)
  · have hzero : sectors - window.length / 512 = 0 := by omega
    have hnil : window.drop (512 * (window.length / 512)) = [] := drop_eq_nil_of_le (by omega)
    have hempty : padded (512 * (sectors - window.length / 512)) (window.drop (512 * (window.length / 512))) = [] := by
      rw [hzero, hnil]
      rfl
    rw [if_neg hrest, hempty, write_nil]
    exact Runs.pure () _

theorem eq_range'_of_isChain {c : Nat} {run : List Nat} (h : (c :: run).IsChain fun x y => y = x + 1) :
    c :: run = range' c (c :: run).length := by
  induction run generalizing c with
  | nil => rfl
  | cons d run ih =>
    obtain ⟨rfl, hrest⟩ := isChain_cons_cons.mp h
    rw [ih hrest]
    simp [range'_succ]

section

variable (hw : b.WellSized (blocks s₀))
include hw

theorem runs_writeRun {run : List Nat} (hne : run ≠ []) (hrun : run.IsChain fun x y => y = x + 1)
    (hcs : ∀ x ∈ run, b.IsCluster x) (data : List UInt8) :
    Runs (Holds b s₀) (writeWindow (b.clusterSector (run.headD 0)) (run.length * b.secPerCluster)
      (data.take (run.length * b.clusterBytes))) v (.ok ()) (fillAll b v run data) := by
  obtain ⟨c, run, rfl⟩ := exists_cons_of_ne_nil hne
  have hrange := eq_range'_of_isChain hrun
  obtain ⟨k, hk⟩ : ∃ k, (c :: run).length = k + 1 := ⟨run.length, rfl⟩
  rw [hk] at hrange ⊢
  have hall : ∀ i < k + 1, b.IsCluster (c + i) := by
    intro i hi
    apply hcs
    rw [hrange, mem_range'_1]
    omega
  have hbytes : (k + 1) * b.clusterBytes = 512 * ((k + 1) * b.secPerCluster) := by
    rw [clusterBytes]
    ring
  have hlast := hw.sector_le (hall k (lt_succ_self k))
  have hin : b.clusterSector c + (k + 1) * b.secPerCluster ≤ blocks s₀ := by
    have h2 := (hall 0 (succ_pos k)).1
    have hsub : c + k - 2 = c - 2 + k := by omega
    rw [clusterSector, hsub, add_mul] at hlast
    rw [clusterSector, add_one_mul]
    omega
  refine Holds.of_stored fun m hm => ⟨m.write (b.clusterAddr c)
    (padded ((k + 1) * b.clusterBytes) (data.take ((k + 1) * b.clusterBytes))), ?_, ?_⟩
  · rw [hbytes]
    refine runs_writeWindow ?_ hin
    rw [length_take]
    exact min_le_left _ _
  · rw [hrange]
    exact mounted_fillRun hm hw hall

theorem runs_writeRuns {runs : List (List Nat)} (hruns : ∀ run ∈ runs, run ≠ [] ∧ run.IsChain fun x y => y = x + 1)
    (hcs : ∀ x ∈ runs.flatten, b.IsCluster x) (data : List UInt8) :
    Runs (Holds b s₀) (writeRuns b runs data) v (.ok ()) (fillAll b v runs.flatten data) := by
  induction runs generalizing v data with
  | nil => exact Runs.pure () v
  | cons run runs ih =>
    obtain ⟨hrun, hruns⟩ := forall_mem_cons.mp hruns
    have hfirst : ∀ x ∈ run, b.IsCluster x := fun x hx => hcs x (mem_append_left _ hx)
    have hrest : ∀ x ∈ runs.flatten, b.IsCluster x := fun x hx => hcs x (mem_append_right _ hx)
    have hwrite := runs_writeRun (v := v) hw hrun.1 hrun.2 hfirst (data.take (run.length * b.clusterBytes))
    rw [take_take, min_self] at hwrite
    rw [flatten_cons, fillAll_append]
    exact hwrite.bind (ih hruns hrest _)

theorem runs_writeDataRun {cs : List Nat} (hcs : ∀ x ∈ cs, b.IsCluster x) (data : List UInt8) :
    Runs (Holds b s₀) (writeDataRun b cs data) v (.ok ()) (fillAll b v cs data) := by
  have hruns : ∀ run ∈ cs.splitBy fun c d => d = c + 1, run ≠ [] ∧ run.IsChain fun x y => y = x + 1 := by
    intro run hrun
    refine ⟨ne_nil_of_mem_splitBy hrun, (isChain_of_mem_splitBy hrun).imp fun x y hxy => ?_⟩
    exact of_decide_eq_true hxy
  have hflat := flatten_splitBy (fun c d => decide (d = c + 1)) cs
  have hwrite := runs_writeRuns (v := v) hw hruns (by rwa [hflat]) data
  rw [hflat] at hwrite
  exact hwrite

end

def clustersFor (b : Bpb) (n : Nat) : Nat := (n + b.clusterBytes - 1) / b.clusterBytes

variable {w₀ : FatWriter S} {h : Nat}

theorem meets_writeContents (hw : b.WellSized (blocks w₀)) (v : Vol) (h : Nat) (hne : data ≠ []) :
    Meets (Hinted b w₀) (writeContents b data) (v, h) fun r p =>
      (∃ c cs, (c :: cs).length = clustersFor b data.length ∧ (c :: cs).Nodup ∧
        (∀ x ∈ c :: cs, b.IsCluster x ∧ v.fat x = 0) ∧ r = .ok c ∧
        p.1 = fillAll b (linkAll v (c :: cs)) (c :: cs) data ∧ clustersFor b data.length ≤ freeFrom b v h) ∨
      (r = .error .noSpace ∧ p = (v, h) ∧ freeFrom b v h < clustersFor b data.length) := by
  have hpos : 0 < clustersFor b data.length := by
    have hlen := length_pos_of_ne_nil hne
    have hbytes : 0 < b.clusterBytes := by
      have hspc := hw.spc_pos
      rw [clusterBytes]
      omega
    exact div_pos (by omega) hbytes
  rw [writeContents, if_neg hne]
  refine (meets_allocChain hw v h hpos).bind ?_ ?_
  · rintro c ⟨v', h'⟩ (⟨c', cs, hlen, hnodup, hcs, hok, hv', hmany⟩ | ⟨habs, -⟩)
    · cases hok
      obtain rfl : v' = linkAll v (c :: cs) := hv'
      have hclus : ∀ x ∈ c :: cs, b.IsCluster x := fun x hx => (hcs x hx).1
      have hrest : Runs (Holds b w₀) (chain b c >>= fun clusters => writeDataRun b clusters data >>= fun _ => pure c)
          (linkAll v (c :: cs)) (.ok c) (fillAll b (linkAll v (c :: cs)) (c :: cs) data) :=
        (runs_chain hw (chained_linkAll hw hclus hnodup v)).bind
          ((runs_writeDataRun hw hclus data).bind (Runs.pure c _))
      have hmeets := Meets.any_hint (h := h')
        (P := fun r v' => r = .ok c ∧ v' = fillAll b (linkAll v (c :: cs)) (c :: cs) data) (Meets.of_runs hrest ⟨rfl, rfl⟩)
      exact hmeets.mono fun r p hp => Or.inl ⟨c, cs, hlen, hnodup, hcs, hp.1, hp.2, hmany⟩
    · cases habs
  · rintro e p (⟨c, cs, -, -, -, habs, -⟩ | ⟨herr, hp, hfew⟩)
    · cases habs
    · exact Or.inr ⟨herr, hp, hfew⟩

/-! The names that `FatWriter` gives its files and directories: short names with a numeric tail, runs of records for
long names, and components that are stored as they are. -/

open Char

theorem length_tailedName (stem ext : List UInt8) {n : Nat} (hn : n ≤ 999999) : (tailedName stem ext n).length = 11 := by
  have htail : (numericTail n).length ≤ 7 := by
    have hdigits := Nat.toDigits_length 10 n 6 (by decide) (by omega)
    rw [numericTail, length_cons, length_map]
    omega
  rw [tailedName, length_fill, length_replicate]
  intro f hf
  simp only [mem_cons, not_mem_nil, or_false] at hf
  rw [length_replicate]
  rcases hf with rfl | rfl
  · rw [length_append, length_take]
    omega
  · rw [length_take]
    omega

theorem length_lfnRecord (units : List Nat) (csum : UInt8) (n k : Nat) : (lfnRecord units csum n k).length = 32 := by
  rw [lfnRecord, length_fill, length_replicate]
  have hslots : ∀ off ∈ lfnSlots, off + 2 ≤ 32 := by decide
  intro f hf
  rcases mem_cons.mp hf with rfl | hf
  · exact (by decide : 0 + 1 ≤ 32)
  rcases mem_cons.mp hf with rfl | hf
  · exact (by decide : 11 + 1 ≤ 32)
  rcases mem_cons.mp hf with rfl | hf
  · exact (by decide : 13 + 1 ≤ 32)
  · rw [← map_uncurry_zip_eq_zipWith] at hf
    obtain ⟨p, hp, rfl⟩ := mem_map.mp hf
    have hoff := hslots p.1 (of_mem_zip hp).1
    exact hoff

theorem length_of_mem_buildLfnRun {long : Name} {short rec : List UInt8} (h : rec ∈ buildLfnRun long short) :
    rec.length = 32 := by
  rw [buildLfnRun, mem_reverse] at h
  obtain ⟨k, -, rfl⟩ := mem_map.mp h
  exact length_lfnRecord _ _ _ _

theorem toNat_lt_of_isAlphanum {c : Char} (h : c.isAlphanum = true) : c.toNat < 128 := by
  simp only [isAlphanum, isAlpha, isUpper, isLower, isDigit, Bool.or_eq_true, Bool.and_eq_true,
    decide_eq_true_eq, ge_iff_le, UInt32.le_iff_toNat_le] at h
  rcases h with (⟨-, h⟩ | ⟨-, h⟩) | ⟨-, h⟩
  all_goals
    exact Nat.lt_of_le_of_lt h (by decide)

theorem upper_of_isAlphanum {c : Char} (h : c.isAlphanum = true) :
    c.toUpper ≠ '.' ∧ ∃ x : UInt8, String.utf8EncodeChar c.toUpper = [x] ∧ x ≠ 0x00 ∧ x ≠ 0xE5 := by
  have hall : ∀ n < 128, (ofNat n).isAlphanum = true → (ofNat n).toUpper ≠ '.' ∧
      (String.utf8EncodeChar (ofNat n).toUpper).length = 1 ∧
      (String.utf8EncodeChar (ofNat n).toUpper).headD 0 ≠ 0x00 ∧
      (String.utf8EncodeChar (ofNat n).toUpper).headD 0 ≠ 0xE5 := by
    decide +kernel
  have hchar := hall c.toNat (toNat_lt_of_isAlphanum h)
  rw [ofNat_toNat] at hchar
  obtain ⟨hdot, hlen, hzero, hdel⟩ := hchar h
  obtain ⟨x, hx⟩ := length_eq_one_iff.mp hlen
  rw [hx] at hzero hdel
  exact ⟨hdot, x, hx, hzero, hdel⟩

theorem isFree_of_isPlain {comp : Name} (h : isPlain comp = true) : isFree (encodeShortName comp) = false := by
  obtain ⟨hne, -, hall⟩ : comp ≠ [] ∧ (bytes comp).length ≤ 8 ∧ ∀ c ∈ comp, c.isAlphanum = true := by
    simpa [isPlain] using h
  obtain ⟨c, cs, rfl⟩ := exists_cons_of_ne_nil hne
  obtain ⟨-, x, hx, hzero, hdel⟩ := upper_of_isAlphanum (hall c mem_cons_self)
  have hdot : '.' ∉ toAsciiUppercase (c :: cs) := by
    intro hin
    obtain ⟨d, hd, heq⟩ := mem_map.mp hin
    exact (upper_of_isAlphanum (hall d hd)).1 heq
  have hfirst : firstByte (encodeShortName (c :: cs)) = x := by
    have hbytes : bytes (toAsciiUppercase (c :: cs)) = x :: bytes (toAsciiUppercase cs) := by
      simp [toAsciiUppercase, bytes, hx]
    simp only [encodeShortName, splitExt, if_neg hdot, hbytes]
    rfl
  rw [isFree, hfirst, decide_eq_false hzero, decide_eq_false hdel]
  rfl

section

variable {S : Type} [BlockDevice S] [ErrorFree S] {s₀ : S} {b : Bpb} {v : Vol} {P : Nat} {l : List Nat}
  (hw : b.WellSized (blocks s₀)) (hc : Chained b v.fat P l)
include hw hc

theorem runs_shortNameExists (short : List UInt8) :
    ∃ found, Runs (Holds b s₀) (shortNameExists b P short) v (.ok found) v := by
  have hsearch := runs_searchDir hw (shortAt short) false hc
  have hok : ∃ found, searched (shortAt short) false (dirSlots b v l) = .ok found := by
    unfold searched
    cases hfind : ((dirSlots b v l).map (·.2)).findSome? (shortAt short) with
    | none => exact ⟨false, rfl⟩
    | some y =>
      obtain ⟨rec, -, hrec⟩ := exists_of_findSome?_eq_some hfind
      unfold shortAt at hrec
      split_ifs at hrec
      · exact ⟨false, (Option.some.inj hrec).symm⟩
      · exact ⟨true, (Option.some.inj hrec).symm⟩
  obtain ⟨found, hfound⟩ := hok
  rw [hfound] at hsearch
  exact ⟨found, hsearch⟩

/-- The search for a short name changes nothing; it ends with a name of eleven bytes or without one. -/
theorem runs_shortName (long : Name) : ∃ r, Runs (Holds b s₀) (shortName b long P) v r v ∧
      (r = .error .noSpace ∨ ∃ short : List UInt8, r = .ok short ∧ short.length = 11) := by
  have hfrom : ∀ (stem ext : List UInt8) (k n), n + k ≤ 1000000 → ∃ r,
      Runs (Holds b s₀) (shortNameFrom b P stem ext k n) v r v ∧
        (r = .error .noSpace ∨ ∃ short : List UInt8, r = .ok short ∧ short.length = 11) := by
    intro stem ext k
    induction k with
    | zero => exact fun n _ => ⟨_, Runs.throw _ v, Or.inl rfl⟩
    | succ k ih =>
      intro n hn
      obtain ⟨found, hfound⟩ := runs_shortNameExists hw hc (tailedName stem ext n)
      cases found with
      | true =>
        obtain ⟨r, hrun, hr⟩ := ih (n + 1) (by omega)
        exact ⟨r, hfound.bind hrun, hr⟩
      | false =>
        have hlen := length_tailedName stem ext (n := n) (by omega)
        exact ⟨_, hfound.bind (Runs.pure _ v), Or.inr ⟨_, rfl, hlen⟩⟩
  exact hfrom _ _ 999999 1 (by decide)

end

end Ruos.Fat.FatWriter
