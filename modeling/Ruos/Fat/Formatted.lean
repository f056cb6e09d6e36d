import Ruos.Fat.Geometry
import Ruos.Fat.Make

/-! What `format` leaves on a device: a volume of the computed geometry with an empty root directory. -/
namespace Ruos.Fat

open Lib Vfs Block ErrorFree BlockDevice List Mem Nat

def zeroMem (m : Mem) (sec k : Nat) : Mem := m.write (512 * sec) (List.replicate (512 * k) 0)

def bootMem (m : Mem) (g : Geometry) (volId : List UInt8) : Mem :=
  (((m.write (512 * 0) (bootSector g volId)).write (512 * 1) fsInfo).write (512 * 6) (bootSector g volId)).write
    (512 * 7) fsInfo

def fatMem (m : Mem) (g : Geometry) : Mem :=
  ((zeroMem (zeroMem m 32 g.fatSz32) (32 + g.fatSz32) g.fatSz32).write (512 * 32) firstFatSector).write
    (512 * (32 + g.fatSz32)) firstFatSector

def rootMem (m : Mem) (g : Geometry) : Mem :=
  zeroMem (m.write (512 * g.dataStart) rootSector) (g.dataStart + 1) (g.secPerClus - 1)

def volumeMem (m : Mem) (g : Geometry) (volId : List UInt8) : Mem := rootMem (fatMem (bootMem m g volId) g) g

theorem length_fsInfo : fsInfo.length = 512 := by
  rw [fsInfo, length_fill (ordered_of_inOrder (a := 0) (by rw [length_zeroSector]; decide)).1.1, length_zeroSector]

theorem seedFields_ordered {n : Nat} (h : 12 ≤ n) : Ordered n seedFields := by
  refine ⟨?_, by decide⟩
  simp only [seedFields, mem_cons, not_mem_nil, or_false, forall_eq_or_imp, forall_eq, length_leBytes]
  omega

theorem labelFields_ordered {n : Nat} (h : 12 ≤ n) : Ordered n labelFields := by
  refine ⟨?_, by decide⟩
  simp only [labelFields, mem_cons, not_mem_nil, or_false, forall_eq_or_imp, forall_eq, length_cons,
    length_nil]
  omega

theorem fill_zeroSector_append {fields : List (Nat × List UInt8)} (h : Ordered 512 fields) {k : Nat} (hk : 0 < k) :
    fill zeroSector fields ++ replicate (512 * (k - 1)) 0 = fill (replicate (512 * k) 0) fields := by
  have hsplit : replicate (512 * k) 0 = zeroSector ++ replicate (512 * (k - 1)) 0 := by
    have hsum : 512 * k = 512 + 512 * (k - 1) := by omega
    rw [hsum, zeroSector, replicate_append_replicate]
  rw [hsplit, fill_append (by rw [length_zeroSector]; exact h.1)]

theorem length_firstFatSector : firstFatSector.length = 512 := by
  rw [firstFatSector, length_fill (by rw [length_zeroSector]; exact (seedFields_ordered (by omega)).1), length_zeroSector]

theorem length_rootSector : rootSector.length = 512 := by
  rw [rootSector, length_fill (by rw [length_zeroSector]; exact (labelFields_ordered (by omega)).1), length_zeroSector]

section

variable {m : Mem} {g : Geometry} {volId : List UInt8} {count : Nat}

theorem zeroMem_outside {sec k a : Nat} (h : ¬ (512 * sec ≤ a ∧ a < 512 * (sec + k))) : zeroMem m sec k a = m a := by
  refine write_of_outside ?_
  rw [length_replicate]
  omega

theorem zeroMem_inside {sec k a : Nat} (hlo : 512 * sec ≤ a) (hhi : a < 512 * (sec + k)) : zeroMem m sec k a = 0 := by
  rw [zeroMem, write, length_replicate, if_pos (by omega), getD_eq_getElem?_getD,
    getElem?_replicate, if_pos (by omega), Option.getD_some]

theorem rootMem_outside {a : Nat} (h : a < 512 * g.dataStart) : rootMem m g a = m a := by
  rw [rootMem, zeroMem_outside (by omega), write_of_outside (by omega)]

theorem fatMem_outside {a : Nat} (h : a < 512 * 32) : fatMem m g a = m a := by
  rw [fatMem, write_of_outside (by omega), write_of_outside (by omega), zeroMem_outside (by omega),
    zeroMem_outside (by omega)]

theorem read_boot (hg : g.Fits count) (hvol : volId.length = 4) : (volumeMem m g volId).read 0 512 = bootSector g volId := by
  have hstart := hg.dataStart_eq
  have hboot := length_bootSector (g := g) hvol
  have hlow : ∀ a, 0 ≤ a → a < 0 + 512 → volumeMem m g volId a = bootMem m g volId a := by
    intro a _ ha
    rw [volumeMem, rootMem_outside (by omega), fatMem_outside (by omega)]
  rw [read_congr hlow, bootMem, read_write_disjoint (by omega), read_write_disjoint (by omega),
    read_write_disjoint (by omega), read_write_of_length hboot]

theorem read_seeded {m' : Mem} {sec k : Nat} (hk : 0 < k)
    (hzero : ∀ a, 512 * sec + 512 ≤ a → a < 512 * (sec + k) → m' a = 0) :
    (m'.write (512 * sec) firstFatSector).read (512 * sec) (512 * k) = fill (replicate (512 * k) 0) seedFields := by
  have hrest : m'.read (512 * sec + 512) (512 * k - 512) = replicate (512 * (k - 1)) 0 := by
    have hlen : 512 * k - 512 = 512 * (k - 1) := by omega
    rw [hlen]
    refine eq_replicate_iff.mpr ⟨length_read _ _ _, fun x hx => ?_⟩
    obtain ⟨i, hi, rfl⟩ := mem_map.mp hx
    have hlt := mem_range.mp hi
    exact hzero _ (by omega) (by omega)
  rw [read_write_front (by rw [length_firstFatSector]; omega), length_firstFatSector, hrest, firstFatSector,
    fill_zeroSector_append (seedFields_ordered (by omega)) hk]

theorem zeroed_fats {a : Nat} (hlo : 512 * 32 ≤ a) (hhi : a < 512 * (32 + g.fatSz32 + g.fatSz32)) :
    zeroMem (zeroMem m 32 g.fatSz32) (32 + g.fatSz32) g.fatSz32 a = 0 := by
  by_cases hsecond : 512 * (32 + g.fatSz32) ≤ a
  · exact zeroMem_inside hsecond hhi
  · rw [zeroMem_outside (by omega)]
    exact zeroMem_inside hlo (by omega)

theorem read_fat (hg : g.Fits count) :
    (volumeMem m g volId).read (512 * 32) (512 * g.fatSz32) = fill (replicate (512 * g.fatSz32) 0) seedFields ∧
      (volumeMem m g volId).read (512 * (32 + g.fatSz32)) (512 * g.fatSz32) =
        fill (replicate (512 * g.fatSz32) 0) seedFields := by
  have hstart := hg.dataStart_eq
  have hfirst := length_firstFatSector
  have hpos : 0 < g.fatSz32 := by
    have hwide := hg.wide
    have hspc := hg.spc_bounds
    omega
  have hlow : ∀ {sec : Nat}, sec + g.fatSz32 ≤ g.dataStart →
      (volumeMem m g volId).read (512 * sec) (512 * g.fatSz32) =
        (fatMem (bootMem m g volId) g).read (512 * sec) (512 * g.fatSz32) := by
    intro sec hsec
    refine read_congr fun a _ ha => rootMem_outside ?_
    omega
  constructor
  · rw [hlow (by omega), fatMem, read_write_disjoint (.inl (by omega))]
    exact read_seeded hpos fun a hlo hhi => zeroed_fats (by omega) (by omega)
  · rw [hlow (by omega)]
    refine read_seeded hpos fun a hlo hhi => ?_
    rw [write_of_outside (.inr (by omega))]
    exact zeroed_fats (by omega) (by omega)

theorem read_root (hg : g.Fits count) : (volumeMem m g volId).read (512 * g.dataStart) (512 * g.secPerClus) =
      fill (replicate (512 * g.secPerClus) 0) labelFields := by
  obtain ⟨hpos, -⟩ := hg.spc_bounds
  have hroot := length_rootSector
  have hsplit : 512 * g.secPerClus = 512 + 512 * (g.secPerClus - 1) := by omega
  have hnext : 512 * g.dataStart + 512 = 512 * (g.dataStart + 1) := by omega
  rw [← fill_zeroSector_append (labelFields_ordered (by omega)) hpos, hsplit, read_add, hnext, volumeMem, rootMem,
    zeroMem, read_write_of_length length_replicate, read_write_disjoint (.inl (by omega)),
    read_write_of_length hroot, rootSector]

end

/-- A volume with nothing but an empty root directory of one cluster. -/
structure Fresh (b : Bpb) (v : Vol) : Prop where
  fat_root : v.fat 2 = 0x0FFFFFFF
  fat_free : ∀ n, 2 < n → n < 128 * b.fatSz32 → v.fat n = 0
  root : v.clus 2 = fill (zeroCluster b) labelFields
  mirrored : v.mirrored

theorem volumeMem_fresh {m : Mem} {g : Geometry} {volId : List UInt8} {count : Nat} (hg : g.Fits count)
    (hvol : volId.length = 4) : Mounted g.bpb (volumeMem m g volId) (volOf g.bpb (volumeMem m g volId)) ∧
      Fresh g.bpb (volOf g.bpb (volumeMem m g volId)) := by
  have hw := hg.wellSized (Nat.le_refl count)
  have hwide := hg.wide
  have hspc := hg.spc_bounds
  have hregion := @read_fat m g volId count hg
  have hfat : ∀ n, n < 128 * g.fatSz32 → (volumeMem m g volId).read (g.bpb.fatAddr n) 4 =
      slice (fill (replicate (512 * g.fatSz32) 0) seedFields) (n * 4) 4 := by
    intro n hn
    have hentry : n * 4 + 4 ≤ 512 * g.fatSz32 := by omega
    rw [← hregion.1, slice_read hentry]
    rfl
  have hord : Ordered (replicate (512 * g.fatSz32) (0 : UInt8)).length seedFields := by
    rw [length_replicate]
    exact seedFields_ordered (by omega)
  have htwo : g.bpb.IsCluster 2 := by
    have hmin := hg.clusters_min
    rw [Bpb.IsCluster, hg.maxCluster_eq]
    omega
  refine ⟨mounted_volOf ?_, ?_, ?_, ?_, ?_⟩
  · rw [read_boot hg hvol, parse_bootSector hg hvol]
  · have hseed : slice (fill (replicate (512 * g.fatSz32) 0) seedFields) (2 * 4) 4 = leBytes 4 0x0FFFFFFF :=
      slice_fill_mem hord (by simp [seedFields]) (length_leBytes 4 _)
    change leVal ((volumeMem m g volId).read (g.bpb.fatAddr 2) 4) % 2 ^ 28 = 0x0FFFFFFF
    rw [hfat 2 (hw.entry_lt htwo), hseed]
    decide
  · intro n hge hn
    have hlt : n < 128 * g.fatSz32 := hn
    have hentry : n * 4 + 4 ≤ 512 * g.fatSz32 := by omega
    change leVal ((volumeMem m g volId).read (g.bpb.fatAddr n) 4) % 2 ^ 28 = 0
    rw [hfat n hn, slice_fill_disjoint hord.1, slice_replicate hentry]
    · decide
    · simp only [seedFields, mem_cons, not_mem_nil, or_false, forall_eq_or_imp, forall_eq, length_leBytes]
      omega
  · change (volumeMem m g volId).read (g.bpb.clusterAddr 2) g.bpb.clusterBytes = fill (zeroCluster g.bpb) labelFields
    have haddr : g.bpb.clusterAddr 2 = 512 * g.dataStart := by
      rw [hg.dataStart_eq, Bpb.clusterAddr, Bpb.clusterSector, Nat.zero_mul]
      rfl
    rw [haddr]
    exact read_root hg
  · intro k hk i hi
    have hi' : i < 512 * g.fatSz32 := hi
    change volumeMem m g volId (512 * (32 + k * g.fatSz32) + i) = volumeMem m g volId (512 * 32 + i)
    cases k with
    | zero => rw [Nat.zero_mul]
    | succ k =>
      have hone : k = 0 := by
        have hk' : k + 1 < 2 := hk
        omega
      rw [hone, Nat.one_mul, apply_of_read hregion.2 hi', apply_of_read hregion.1 hi']

section

variable {b : Bpb} {v : Vol} {blocks : Nat}

theorem Fresh.chained (h : Fresh b v) (htwo : b.IsCluster 2) : Chained b v.fat 2 [2] :=
  .single htwo (by decide) h.fat_root

def labelRecord : List UInt8 := fill (List.replicate 32 0) labelFields

theorem records_label (hspc : 0 < b.secPerCluster) :
    ∃ n, records (fill (zeroCluster b) labelFields) = labelRecord :: replicate (n + 1) (replicate 32 0) := by
  have hlen : b.clusterBytes = 32 + (b.clusterBytes - 32) := by
    unfold Bpb.clusterBytes
    omega
  have hdiv : (b.clusterBytes - 32) / 32 = (b.clusterBytes - 32) / 32 - 1 + 1 := by
    unfold Bpb.clusterBytes
    omega
  have hfill : labelRecord.length = 1 * 32 := by decide
  have hord := (labelFields_ordered (n := 32) (by omega)).1
  refine ⟨(b.clusterBytes - 32) / 32 - 1, ?_⟩
  rw [zeroCluster, hlen, ← replicate_append_replicate, fill_append hord, records,
    ← labelRecord, pieces_append (by omega) hfill, pieces_replicate, Nat.add_sub_cancel_left,
    hdiv]
  rfl

theorem Fresh.slots (h : Fresh b v) (hspc : 0 < b.secPerCluster) :
    ∃ loc Z, dirSlots b v [2] = (loc, labelRecord) :: Z ∧ Z ≠ [] ∧ ∀ x ∈ Z, x.2 = replicate 32 0 := by
  obtain ⟨n, hrec⟩ := records_label hspc
  refine ⟨recordLoc b 2 0, (replicate (n + 1) (replicate 32 0)).mapIdx fun i rec => (recordLoc b 2 (i + 1), rec),
    ?_, ?_, fun x hx => ?_⟩
  · rw [dirSlots, flatMap_singleton, h.root, clusterSlots, hrec, mapIdx_cons]
  · simp
  · obtain ⟨i, hi, rfl⟩ := mem_mapIdx.mp hx
    exact getElem_replicate hi

variable [Unicode]

theorem readSlot_label : readSlot none labelRecord = .skip none := by
  rw [readSlot, if_neg (by decide), if_neg (by decide), if_neg (by decide), if_pos (by decide)]

theorem Fresh.dirEntries_root (h : Fresh b v) (htwo : b.IsCluster 2) (hspc : 0 < b.secPerCluster) :
    dirEntries b v 2 = [] := by
  obtain ⟨loc, Z, hslots, -, hzero⟩ := h.slots hspc
  rw [dirEntries_eq (h.chained htwo), hslots, scan]
  simp only [readSlot_label]
  exact scan_zeros hzero

end

section

variable {S : Type} [BlockDevice S] [ErrorFree S] {s₀ : S} {m : Mem} {g : Geometry} {volId : List UInt8}

theorem runs_zeroSectors {sec k : Nat} (h : sec + k ≤ blocks s₀) :
    Runs (Stored s₀) (zeroSectors sec k) m (.ok ()) (zeroMem m sec k) := by
  induction k generalizing sec m with
  | zero =>
    have hsame : zeroMem m sec 0 = m := by
      funext a
      exact zeroMem_outside (by omega)
    rw [hsame]
    exact Runs.pure () m
  | succ k ih =>
    have hsplit : zeroMem m sec (k + 1) = zeroMem (m.write (512 * sec) zeroSector) (sec + 1) k := by
      have hsum : 512 * (k + 1) = 512 + 512 * k := by omega
      rw [zeroMem, hsum, ← replicate_append_replicate, write_append, length_replicate, zeroMem, zeroSector,
        Nat.mul_add_one 512 sec]
    rw [hsplit]
    exact (runs_writeSector Nat.one_pos length_zeroSector (by omega)).bind (ih (by omega))

theorem runs_writeVolume (hg : g.Fits (blockCount s₀)) (hin : blockCount s₀ ≤ blocks s₀) (hvol : volId.length = 4) :
    Runs (Stored s₀) (writeVolume g volId) m (.ok ()) (volumeMem m g volId) := by
  have hstart := hg.dataStart_eq
  have htot := hg.totSec_le
  have hspc := hg.spc_bounds
  have hclus := hg.clusters_le
  have hmin := hg.clusters_min
  have hone : 1 * g.secPerClus ≤ g.clusters * g.secPerClus := mul_le_mul_right _ (by omega)
  have hboot := length_bootSector (g := g) hvol
  refine (runs_writeSector one_pos hboot (by omega)).bind ?_
  refine (runs_writeSector one_pos length_fsInfo (by omega)).bind ?_
  refine (runs_writeSector one_pos hboot (by omega)).bind ?_
  refine (runs_writeSector one_pos length_fsInfo (by omega)).bind ?_
  refine (runs_zeroSectors (by omega)).bind ?_
  refine (runs_zeroSectors (by omega)).bind ?_
  refine (runs_writeSector one_pos length_firstFatSector (by omega)).bind ?_
  refine (runs_writeSector one_pos length_firstFatSector (by omega)).bind ?_
  refine (runs_writeSector one_pos length_rootSector (by omega)).bind ?_
  exact runs_zeroSectors (by omega)

theorem runs_format (hgeom : geometry (blockCount s₀) = .ok g) (hg : g.Fits (blockCount s₀))
    (hin : blockCount s₀ ≤ blocks s₀) (hvol : volId.length = 4) :
    Runs (Stored s₀) (format volId) m (.ok ()) (volumeMem m g volId) := by
  refine Runs.get_bind fun s hs => (Runs.failIf_false (by simp [blockSize_eq]) _ m).bind ?_
  rw [frame_count hs.1, hgeom]
  exact (runs_writeVolume hg hin hvol).mapErr

theorem format_holds (hsize : 66600 < blockCount s₀) (hin : blockCount s₀ ≤ blocks s₀) (hvol : volId.length = 4) :
    ∃ g s v, geometry (blockCount s₀) = .ok g ∧ g.Fits (blockCount s₀) ∧ format volId s₀ = .ok () s ∧
      Holds g.bpb s₀ s v ∧ Fresh g.bpb v := by
  obtain ⟨g, hgeom, hg⟩ := geometry_ok hsize
  obtain ⟨s, hrun, hframe, hmem⟩ := runs_format hgeom hg hin hvol s₀ (stored_self s₀)
  obtain ⟨hmounted, hfresh⟩ := volumeMem_fresh (m := mem s₀) hg hvol
  exact ⟨g, s, _, hgeom, hg, hrun, ⟨hframe, hmem ▸ hmounted⟩, hfresh⟩

end

section

variable {D : Type} [BlockDevice D] [ErrorFree D] [Unicode] {d : D} {volId : List UInt8}

theorem format_consistent_volume (hdev : blocks d = blockCount d) (hsize : 66600 < blockCount d)
    (hvol : volId.length = 4) :
    ∃ g t, geometry (blockCount d) = .ok g ∧ format volId (⟨d, []⟩ : Traced D) = .ok () t ∧
      (∀ w ∈ t.log, w.1 + w.2 ≤ blockCount d) ∧ (∃ t', mount t = .ok g.bpb t') ∧
      65525 ≤ g.bpb.maxCluster - 2 ∧ g.bpb.maxCluster ≤ 128 * g.bpb.fatSz32 ∧
      (∀ n, 2 ≤ n → n < g.bpb.maxCluster → g.bpb.clusterSector n + g.bpb.secPerCluster ≤ blockCount d) ∧
      ∃ t', readdir g.bpb [] t = .ok [] t' := by
  obtain ⟨g, t, v, hgeom, hg, hrun, hholds, hfresh⟩ :=
    @format_holds (Traced D) _ _ ⟨d, []⟩ volId hsize (le_of_eq hdev.symm) hvol
  have hw : g.bpb.WellSized (blocks (⟨d, []⟩ : Traced D)) := hg.wellSized (le_of_eq hdev.symm)
  have hmax := hg.maxCluster_eq
  have hmin := hg.clusters_min
  have htwo : g.bpb.IsCluster 2 := ⟨le_refl 2, by omega⟩
  have hpos : 1 ≤ blocks (⟨d, []⟩ : Traced D) := by
    change 1 ≤ blocks d
    omega
  obtain ⟨t', hmount, -⟩ := runs_mount hpos t hholds
  obtain ⟨t'', hlist, -⟩ := runs_readdir_root hw (hfresh.chained htwo) t hholds
  have hempty : dirEntries g.bpb v g.bpb.rootClus = [] := hfresh.dirEntries_root htwo hw.spc_pos
  rw [hempty] at hlist
  refine ⟨g, t, hgeom, hrun, fun w hw => ?_, ⟨t', hmount⟩, by omega, hw.covers, fun n h2 hlt => ?_, t'', hlist⟩
  · rcases hholds.1.2 w hw with hold | hin
    · cases hold
    · rw [← hdev]
      exact hin
  · rw [← hdev]
    exact hw.sector_le ⟨h2, hlt⟩

end

/-- The smallest device that is not refused, with nothing on it. -/
def smallDisk : MemDisk := ⟨66601, by decide, fun _ => 0xFF⟩

def smallGeometry : Geometry := ⟨66601, 1, 517, 1066, 65535⟩

/-- What `format` leaves on `smallDisk`, with the two zeroed FATs as one region. -/
def freshBytes : Mem :=
  ((write (fun a => if 512 * 32 ≤ a ∧ a < 512 * 1066 then 0 else bootMem (fun _ => 0xFF) smallGeometry [1, 2, 3, 4] a)
    (512 * 32) firstFatSector).write (512 * (32 + 517)) firstFatSector).write (512 * 1066) rootSector

def freshDisk : MemDisk := ⟨66601, by decide, freshBytes⟩

theorem volumeMem_small : volumeMem (fun _ => 0xFF) smallGeometry [1, 2, 3, 4] = freshBytes := by
  have hzero : ∀ m : Mem, zeroMem (zeroMem m 32 517) (32 + 517) 517 =
      fun a => if 512 * 32 ≤ a ∧ a < 512 * 1066 then 0 else m a := by
    intro m
    funext a
    split_ifs with h
    · exact @zeroed_fats m smallGeometry a h.1 h.2
    · rw [zeroMem_outside (by omega), zeroMem_outside (by omega)]
  have hnone : ∀ m : Mem, zeroMem m (1066 + 1) (1 - 1) = m := fun m => funext fun a => zeroMem_outside (by omega)
  rw [volumeMem, rootMem, smallGeometry, hnone, fatMem, hzero, freshBytes, smallGeometry]

theorem eq_freshDisk {s : MemDisk} (hs : Stored smallDisk s freshBytes) : s = freshDisk := by
  obtain ⟨hcount, hmem⟩ := hs
  cases s
  cases hcount
  cases hmem
  rfl

theorem fits_small : smallGeometry.Fits 66601 := by
  obtain ⟨g, hgeom, hg⟩ := geometry_ok (show 66600 < 66601 by decide)
  cases hgeom
  exact hg

theorem format_smallDisk : format [1, 2, 3, 4] smallDisk = .ok () freshDisk := by
  obtain ⟨s, hrun, hs⟩ := @runs_format _ _ _ smallDisk _ _ [1, 2, 3, 4] rfl fits_small (le_refl _) rfl smallDisk
    (stored_self smallDisk)
  obtain rfl := eq_freshDisk (volumeMem_small ▸ hs)
  exact hrun

theorem wellSized_small : smallGeometry.bpb.WellSized (blocks freshDisk) := fits_small.wellSized (le_refl _)

theorem parse_freshBytes : Bpb.parse (freshBytes.read 0 512) = .ok smallGeometry.bpb := by decide +kernel

theorem mount_freshDisk : mount freshDisk = .ok smallGeometry.bpb freshDisk := by
  have hrun : Runs (Stored smallDisk) mount freshBytes (.ok smallGeometry.bpb) freshBytes := by
    refine (runs_readSector (by decide)).bind ?_
    rw [parse_freshBytes]
    exact Runs.pure _ _
  obtain ⟨s, hmount, hs⟩ := hrun freshDisk ⟨rfl, rfl⟩
  obtain rfl := eq_freshDisk hs
  exact hmount

theorem format_consistent_volume_66601 : ∃ g t, geometry 66601 = .ok g ∧
      format [1, 2, 3, 4] (⟨⟨66601, by decide, fun _ => 0xFF⟩, []⟩ : Traced MemDisk) = .ok () t ∧
      (∀ w ∈ t.log, w.1 + w.2 ≤ 66601) ∧ ∃ t', @readdir _ _ Unicode.ascii g.bpb [] t = .ok [] t' := by
  have hsize : 66600 < blockCount (⟨66601, by decide, fun _ => 0xFF⟩ : MemDisk) := by decide
  obtain ⟨g, t, hgeom, hrun, hlog, -, -, -, -, hlist⟩ :=
    @format_consistent_volume MemDisk _ _ Unicode.ascii ⟨66601, by decide, fun _ => 0xFF⟩ [1, 2, 3, 4] rfl hsize rfl
  exact ⟨g, t, hgeom, hrun, hlog, hlist⟩

/-- A partition that lies on the disk is formatted and can be mounted, and no byte outside it changes. -/
theorem format_in_partition {D : Type} [BlockDevice D] [ErrorFree D] {p : PartBorrow D} {volId : List UInt8}
    (hsize : 66600 < p.count) (hin : p.base + p.count ≤ blocks p.inner) (hvol : volId.length = 4) :
    ∃ p' b q, format volId p = .ok () p' ∧ mount p' = .ok b q ∧
      ∀ a, a < 512 * p.base ∨ 512 * (p.base + p.count) ≤ a → mem p'.inner a = mem p.inner a := by
  have hvisible : p.count ≤ blocks p := le_min (le_refl _) (by omega)
  obtain ⟨g, p', v, -, -, hrun, hholds, -⟩ := @format_holds _ _ _ p volId hsize hvisible hvol
  obtain ⟨q, hmount, -⟩ := runs_mount (by omega : 1 ≤ blocks p) p' hholds
  exact ⟨p', g.bpb, q, hrun, hmount, fun a ha => hholds.1.2.2.2 a (by omega)⟩

theorem format_in_partition_70000 : ∃ p' b q, format [1, 2, 3, 4] (⟨⟨140000, by decide, fun _ => 7⟩, 2048, 70000⟩ :
      PartBorrow MemDisk) = .ok () p' ∧ mount p' = .ok b q ∧ p'.inner.bytes (512 * 2048 - 1) = 7 := by
  obtain ⟨p', b, q, hrun, hmount, hout⟩ := @format_in_partition MemDisk _ _
    ⟨⟨140000, by decide, fun _ => 7⟩, 2048, 70000⟩ [1, 2, 3, 4] (by decide) (by decide) rfl
  exact ⟨p', b, q, hrun, hmount, hout _ (.inl (by decide))⟩

end Ruos.Fat
