import Ruos.Gpt.Layout

/-! Parsing what `write_layout` wrote. -/
namespace Ruos.Gpt

open Lib Block BlockDevice ErrorFree List Header GptPartition Mem Nat

section

variable {type unique : Guid} {first last : Nat} {name : List Char}

section

variable (hname : (nameUtf16le name).length ≤ 72)
include hname

theorem entry_ordered : Ordered (replicate 128 (0 : UInt8)).length
      [(0, type.1), (16, unique.1), (32, leBytes 8 first), (40, leBytes 8 last), (56, nameUtf16le name)] := by
  constructor
  · simp [type.2, unique.2]
    omega
  · simp [type.2, unique.2]

theorem length_entry : (entry type unique first last name).length = 128 := by
  rw [entry, length_fill (entry_ordered hname).1, length_replicate]

theorem entryPartition_entry (htype : type.1 ≠ replicate 16 0) (hfirst : first < 2 ^ 64)
    (hlast : last < 2 ^ 64) : entryPartition (entry type unique first last name) = some ⟨type.1, first, last⟩ := by
  have hord := @entry_ordered type unique first last name hname
  have h0 : slice (entry type unique first last name) 0 16 = type.1 :=
    slice_fill_mem hord (by simp) type.2
  have h32 : slice (entry type unique first last name) 32 8 = leBytes 8 first :=
    slice_fill_mem hord (by simp) (length_leBytes ..)
  have h40 : slice (entry type unique first last name) 40 8 = leBytes 8 last :=
    slice_fill_mem hord (by simp) (length_leBytes ..)
  rw [entryPartition, h0, if_neg htype, rdU64, rdU64, h32, h40, leVal_leBytes_of_lt (by omega),
    leVal_leBytes_of_lt (by omega)]

end

theorem entryPartition_zero : entryPartition (replicate 128 0) = none := by decide

end

/-! The entry array -/

def entryAt (arr : List UInt8) (idx : Nat) : List UInt8 := slice arr (idx * 128) 128

/-- The partitions among the entries `lo, .., lo + n - 1`. -/
def partitions (arr : List UInt8) (lo n : Nat) : List GptPartition :=
  (List.range' lo n).flatMap fun idx => (entryPartition (entryAt arr idx)).toList

theorem partitions_add (arr : List UInt8) (lo n k : Nat) :
    partitions arr lo (n + k) = partitions arr lo n ++ partitions arr (lo + n) k := by
  rw [partitions, ← range'_append_1, flatMap_append, partitions, partitions]

theorem scanSector_slice {arr : List UInt8} {num k : Nat} (hk : k * 4 + 4 ≤ num) (st : EntryScan) :
    scanSector num k (slice arr (512 * k) 512) st =
      ⟨st.arr ++ slice arr (512 * k) 512, st.out ++ partitions arr (k * 4) 4⟩ := by
  have hentry : ∀ i, i < 4 → slice (slice arr (512 * k) 512) (i * 128) 128 = entryAt arr (k * 4 + i) := by
    intro i hi
    rw [slice_slice (by omega)]
    congr 1
    omega
  have harr : slice arr (512 * k) 512 = entryAt arr (k * 4) ++ entryAt arr (k * 4 + 1) ++
      entryAt arr (k * 4 + 2) ++ entryAt arr (k * 4 + 3) := by
    have hstep : ∀ i, (k * 4 + i) * 128 = 512 * k + i * 128 := by intro i; ring
    simp only [entryAt, hstep, show k * 4 * 128 = 512 * k by ring]
    rw [slice_append_slice, slice_append_slice, slice_append_slice]
  have hscan : ∀ i, i < 4 → ∀ st : EntryScan, scanEntry num (k * 4 + i) (entryAt arr (k * 4 + i)) st =
      ⟨st.arr ++ entryAt arr (k * 4 + i), st.out ++ (entryPartition (entryAt arr (k * 4 + i))).toList⟩ := by
    intro i hi st
    rw [scanEntry, if_neg (by omega)]
  have hrange : range 4 = [0, 1, 2, 3] := by decide
  have hrange' : range' (k * 4) 4 = [k * 4, k * 4 + 1, k * 4 + 2, k * 4 + 3] := by simp [range']
  rw [scanSector, hrange]
  simp only [foldl_cons, foldl_nil]
  rw [hentry 0 (by omega), hentry 1 (by omega), hentry 2 (by omega), hentry 3 (by omega),
    hscan 0 (by omega), hscan 1 (by omega), hscan 2 (by omega), hscan 3 (by omega), harr, partitions, hrange']
  simp

theorem foldl_scanSector (arr : List UInt8) {num n : Nat} (hn : n * 4 ≤ num) :
    (range n).foldl (fun st k => scanSector num k (slice arr (512 * k) 512) st) ⟨[], []⟩ =
      ⟨slice arr 0 (512 * n), partitions arr 0 (n * 4)⟩ := by
  induction n with
  | zero => rfl
  | succ n ih =>
    rw [range_succ, foldl_append, ih (by omega), foldl_cons, foldl_nil,
      scanSector_slice (by omega)]
    have harr := slice_append_slice arr 0 (512 * n) 512
    have hparts := partitions_add arr 0 (n * 4) 4
    rw [Nat.zero_add] at harr hparts
    rw [harr, ← hparts, Nat.mul_add_one 512 n, Nat.add_one_mul n 4]

section

variable (g : Guids) (espFirst espLast dataFirst dataLast : Nat)

theorem entryArray_ordered : Ordered (replicate 16384 (0 : UInt8)).length
    [(0, entry typeEsp g.esp espFirst espLast "EFI System".toList),
      (128, entry typeMsBasicData g.data dataFirst dataLast "ruos-data".toList)] := by
  have hesp := @length_entry typeEsp g.esp espFirst espLast "EFI System".toList (by decide)
  have hdata := @length_entry typeMsBasicData g.data dataFirst dataLast "ruos-data".toList (by decide)
  constructor
  · simp only [mem_cons, not_mem_nil, or_false, forall_eq_or_imp, forall_eq, hesp, hdata,
      length_replicate]
    omega
  · simp only [pairwise_cons, mem_cons, not_mem_nil, or_false, forall_eq, hesp]
    simp

theorem length_entryArray : (entryArray g espFirst espLast dataFirst dataLast).length = 16384 := by
  rw [entryArray, length_fill (entryArray_ordered ..).1, length_replicate]

theorem entryAt_entryArray_esp : entryAt (entryArray g espFirst espLast dataFirst dataLast) 0 =
    entry typeEsp g.esp espFirst espLast "EFI System".toList :=
  slice_fill_mem (entryArray_ordered ..) (by simp) (length_entry (by decide))

theorem entryAt_entryArray_data : entryAt (entryArray g espFirst espLast dataFirst dataLast) 1 =
    entry typeMsBasicData g.data dataFirst dataLast "ruos-data".toList :=
  slice_fill_mem (entryArray_ordered ..) (by simp) (length_entry (by decide))

theorem entryAt_entryArray_empty {idx : Nat} (hlo : 2 ≤ idx) (hhi : idx < 128) :
    entryAt (entryArray g espFirst espLast dataFirst dataLast) idx = replicate 128 0 := by
  have hesp := @length_entry typeEsp g.esp espFirst espLast "EFI System".toList (by decide)
  have hdata := @length_entry typeMsBasicData g.data dataFirst dataLast "ruos-data".toList (by decide)
  rw [entryAt, entryArray, slice_fill_disjoint (entryArray_ordered ..).1]
  · have hmin : min 128 (16384 - idx * 128) = 128 := by omega
    rw [slice, drop_replicate, take_replicate, hmin]
  · simp only [mem_cons, not_mem_nil, or_false, forall_eq_or_imp, forall_eq, hesp, hdata]
    omega

variable {espFirst espLast dataFirst dataLast}

theorem partitions_entryArray (hef : espFirst < 2 ^ 64) (hel : espLast < 2 ^ 64) (hdf : dataFirst < 2 ^ 64)
    (hdl : dataLast < 2 ^ 64) : partitions (entryArray g espFirst espLast dataFirst dataLast) 0 128 =
      [⟨typeEsp.1, espFirst, espLast⟩, ⟨typeMsBasicData.1, dataFirst, dataLast⟩] := by
  have hrest : partitions (entryArray g espFirst espLast dataFirst dataLast) (0 + 2) 126 = [] := by
    rw [partitions, flatMap_eq_nil_iff]
    intro idx hidx
    obtain ⟨hlo, hhi⟩ := mem_range'_1.mp hidx
    rw [entryAt_entryArray_empty g _ _ _ _ (by omega) (by omega)]
    rfl
  have hesp : entryPartition (entryAt (entryArray g espFirst espLast dataFirst dataLast) 0) =
      some ⟨typeEsp.1, espFirst, espLast⟩ := by
    rw [entryAt_entryArray_esp, entryPartition_entry (by decide) (by decide) hef hel]
  have hdata : entryPartition (entryAt (entryArray g espFirst espLast dataFirst dataLast) 1) =
      some ⟨typeMsBasicData.1, dataFirst, dataLast⟩ := by
    rw [entryAt_entryArray_data, entryPartition_entry (by decide) (by decide) hdf hdl]
  have hfirst : partitions (entryArray g espFirst espLast dataFirst dataLast) 0 2 =
      [⟨typeEsp.1, espFirst, espLast⟩, ⟨typeMsBasicData.1, dataFirst, dataLast⟩] := by
    simp [partitions, range', hesp, hdata]
  have hsplit := partitions_add (entryArray g espFirst espLast dataFirst dataLast) 0 2 126
  rw [hrest, hfirst] at hsplit
  exact hsplit

end

namespace Header

variable (h : Header)

theorem fields_ordered : Ordered (replicate 512 (0 : UInt8)).length h.fields := by
  constructor
  · simp only [fields, mem_cons, not_mem_nil, or_false, forall_eq_or_imp, forall_eq, length_leBytes,
      h.diskGuid.2, efiPart, length_replicate, length_cons, length_nil]
    omega
  · simp [fields, h.diskGuid.2, efiPart]

theorem length_unsigned : h.unsigned.length = 512 := by
  rw [unsigned, length_fill h.fields_ordered.1, length_replicate]

theorem length_buildHeader : (buildHeader h).length = 512 := by
  rw [buildHeader, length_splice (by rw [h.length_unsigned, length_leBytes]; omega), h.length_unsigned]

theorem slice_buildHeader {off n : Nat} {bs : List UInt8} (hm : (off, bs) ∈ h.fields) (hn : bs.length = n)
    (hoff : off + n ≤ 16 ∨ 20 ≤ off) : slice (buildHeader h) off n = bs := by
  rw [buildHeader, slice_splice_disjoint (by rw [h.length_unsigned]; omega) (by rw [length_leBytes]; omega)]
  exact slice_fill_mem h.fields_ordered hm hn

theorem leVal_buildHeader {off w v : Nat} (hm : (off, leBytes w v) ∈ h.fields) (hoff : off + w ≤ 16 ∨ 20 ≤ off)
    (hv : v < 256 ^ w) : leVal (slice (buildHeader h) off w) = v := by
  rw [h.slice_buildHeader hm (length_leBytes ..) hoff, leVal_leBytes_of_lt hv]

theorem slice_buildHeader_diskGuid : slice (buildHeader h) 56 16 = h.diskGuid.1 :=
  h.slice_buildHeader (by simp [fields]) h.diskGuid.2 (by omega)

theorem rdU32_buildHeader_arrayCrc : rdU32 (buildHeader h) 88 = h.arrayCrc.toNat := by
  have hlt := h.arrayCrc.toNat_lt
  exact h.leVal_buildHeader (by simp [fields]) (by omega) (by omega)

theorem splice_buildHeader_zero : splice (buildHeader h) 16 (replicate 4 0) = h.unsigned := by
  have hzero : slice h.unsigned 16 4 = replicate 4 0 := by
    rw [unsigned, slice_fill_disjoint h.fields_ordered.1]
    · decide
    · simp [fields, h.diskGuid.2, efiPart]
  rw [buildHeader, splice_splice_same (by rw [h.length_unsigned, length_leBytes]; omega) (by simp), ← hzero,
    splice_slice_self (by rw [h.length_unsigned]; omega)]

theorem rdU32_buildHeader_crc : rdU32 (buildHeader h) 16 = (crc32 (h.unsigned.take 92)).toNat := by
  have hlt := (crc32 (h.unsigned.take 92)).toNat_lt
  have hsame := @slice_splice_same _ h.unsigned (leBytes 4 (crc32 (h.unsigned.take 92)).toNat) 16
    (by rw [h.length_unsigned]; omega)
  rw [length_leBytes] at hsame
  rw [rdU32, buildHeader, hsame, leVal_leBytes_of_lt (by omega)]

end Header

variable {D : Type} [BlockDevice D] [ErrorFree D] {d₀ : D} {m : Mem}

theorem runs_readRetry {lba : Nat} (h : lba + 1 ≤ blocks d₀) (tries : Nat) :
    Runs (Stored d₀) (readRetry lba tries) m (.ok (m.read (512 * lba) 512)) m := by
  have hread := @runs_read D _ _ d₀ m lba 1 (by omega) h
  cases tries with
  | zero => exact hread.mapErr
  | succ tries =>
    intro d hd
    obtain ⟨d', hd', hs⟩ := hread d hd
    refine ⟨d', ?_, hs⟩
    simp only [readRetry, hd', outcome_ok]

theorem runs_readEntries {lba num : Nat} (ks : List Nat) (hks : ∀ k ∈ ks, lba + k + 1 ≤ blocks d₀) (st : EntryScan) :
    Runs (Stored d₀) (readEntries lba num ks st) m
      (.ok (ks.foldl (fun st k => scanSector num k (m.read (512 * (lba + k)) 512) st) st)) m := by
  induction ks generalizing st with
  | nil => exact .pure _ _
  | cons k ks ih =>
    obtain ⟨hk, hrest⟩ := forall_mem_cons.mp hks
    have hlt := blocks_lt d₀
    refine .bind (.failIf_false (by omega) _ _) (.bind (runs_readRetry hk 2) ?_)
    exact ih hrest _

/-- The tables of a disk of `total` blocks with the given entry array. -/
structure OnDisk (m : Mem) (total : Nat) (diskGuid : Guid) (arr : List UInt8) : Prop where
  array : m.read 1024 16384 = arr
  primary : m.read 512 512 = buildHeader (primaryHeader total diskGuid arr)
  backup : m.read (512 * (total - 1)) 512 = buildHeader (backupHeader total diskGuid arr)

variable {total : Nat} {diskGuid : Guid} {arr : List UInt8}

theorem parseHeader_primary (total : Nat) (diskGuid : Guid) (arr : List UInt8) :
    parseHeader (buildHeader (primaryHeader total diskGuid arr)) = some (2, 128, (crc32 arr).toNat) := by
  have hsig : slice (buildHeader (primaryHeader total diskGuid arr)) 0 8 = efiPart :=
    slice_buildHeader _ (by simp [fields]) rfl (by omega)
  have hsize : rdU32 (buildHeader (primaryHeader total diskGuid arr)) 12 = 92 :=
    leVal_buildHeader _ (by simp [fields]) (by omega) (by omega)
  have hlba : rdU64 (buildHeader (primaryHeader total diskGuid arr)) 72 = 2 :=
    leVal_buildHeader _ (by simp [fields, primaryHeader]) (by omega) (by omega)
  have hnum : rdU32 (buildHeader (primaryHeader total diskGuid arr)) 80 = 128 :=
    leVal_buildHeader _ (by simp [fields]) (by omega) (by omega)
  have hesize : rdU32 (buildHeader (primaryHeader total diskGuid arr)) 84 = 128 :=
    leVal_buildHeader _ (by simp [fields]) (by omega) (by omega)
  simp only [parseHeader, hsig, hsize, hlba, hnum, hesize, splice_buildHeader_zero,
    rdU32_buildHeader_crc, rdU32_buildHeader_arrayCrc]
  simp [primaryHeader]

theorem runs_parse (h : OnDisk m total diskGuid arr) (hblocks : 34 ≤ blocks d₀) (hparts : partitions arr 0 128 ≠ []) :
    Runs (Stored d₀) parse m (.ok (partitions arr 0 128)) m := by
  have hscan : (range 32).foldl (fun st k => scanSector 128 k (m.read (512 * (2 + k)) 512) st) ⟨[], []⟩ =
      ⟨arr, partitions arr 0 128⟩ := by
    have hlen : arr.length = 512 * 32 := by rw [← h.array, length_read]
    have hsec : ∀ k ∈ range 32, m.read (512 * (2 + k)) 512 = slice arr (512 * k) 512 := by
      intro k hk
      have hk' := mem_range.mp hk
      rw [← h.array, slice_read (by omega), mul_add]
    rw [foldl_ext _ _ _ fun st k hk => by rw [hsec k hk], foldl_scanSector arr (by omega), ← hlen,
      slice_zero_length]
  have hread := @runs_read D _ _ d₀ m 1 1 (by omega) (by omega)
  rw [h.primary] at hread
  refine .get_bind fun d hd => .bind (.failIf_false (by simp [blockSize_eq]) _ _) (.bind hread.mapErr ?_)
  rw [parseHeader_primary]
  refine .bind (runs_readEntries _ (fun k hk => ?_) _) ?_
  · have hk' := mem_range.mp hk
    omega
  · rw [hscan]
    refine .bind (.failIf_false (by simp) _ _) (.bind (.failIf_false ?_ _ _) (.pure _ _))
    simpa using hparts

theorem runs_put {lba n : Nat} {buf : List UInt8} (hn : 0 < n) (hlen : buf.length = 512 * n)
    (h : lba + n ≤ blocks d₀) : Runs (Stored d₀) (put lba buf) m (.ok ()) (m.write (512 * lba) buf) :=
  (runs_write hn hlen h).mapErr

theorem placement_ok {total espSectors : Nat} {p : Placement} (hpos : 0 < espSectors)
    (h : placement total espSectors = .ok p) :
    68 ≤ total ∧ p.espFirst = 2048 ∧ p.espLast + 1 = p.espFirst + espSectors ∧ p.espLast < p.dataFirst ∧
      2048 ∣ p.dataFirst ∧ p.dataFirst ≤ p.dataLast ∧ p.dataLast = total - 34 := by
  simp only [placement, alignUp] at h
  split_ifs at h with hsmall hesp hlast halign
  simp only at h
  split_ifs at h with hfit
  cases h
  refine ⟨by omega, rfl, by simp only; omega, hfit.2.1, ⟨_, mul_comm _ _⟩, hfit.2.2, by simp only; omega⟩

def layoutMem (m : Mem) (total : Nat) (diskGuid : Guid) (arr : List UInt8) : Mem :=
  ((((m.write (512 * 2) arr).write (512 * 1) (buildHeader (primaryHeader total diskGuid arr))).write (512 * 0)
    (protectiveMbr total)).write (512 * (total - 1 - 32)) arr).write (512 * (total - 1))
    (buildHeader (backupHeader total diskGuid arr))

theorem length_protectiveMbr (total : Nat) : (protectiveMbr total).length = 512 := by
  rw [protectiveMbr, length_fill, length_replicate]
  simp only [mem_cons, not_mem_nil, or_false, forall_eq_or_imp, forall_eq, length_leBytes,
    length_replicate, length_cons, length_nil]
  omega

theorem runs_writeTables (hblocks : blocks d₀ = total) (hsize : 68 ≤ total) (harr : arr.length = 16384) :
    Runs (Stored d₀) (writeTables total diskGuid arr) m (.ok ()) (layoutMem m total diskGuid arr) := by
  refine .bind (runs_put (n := 32) (by omega) (by omega) (by omega)) ?_
  refine .bind (runs_put (n := 1) (by omega) (length_buildHeader _) (by omega)) ?_
  refine .bind (runs_put (n := 1) (by omega) (length_protectiveMbr _) (by omega)) ?_
  refine .bind (runs_put (n := 32) (by omega) (by omega) (by omega)) ?_
  exact runs_put (n := 1) (by omega) (length_buildHeader _) (by omega)

theorem runs_writeLayout {espSectors : Nat} {p : Placement} (g : Guids) (hcount : blockCount d₀ = total)
    (hblocks : blocks d₀ = total) (hsize : 68 ≤ total) (h : placement total espSectors = .ok p) :
    Runs (Stored d₀) (writeLayout g espSectors) m
      (.ok (⟨p.espFirst, espSectors⟩, ⟨p.dataFirst, p.dataLast - p.dataFirst + 1⟩))
      (layoutMem m total g.disk (entryArray g p.espFirst p.espLast p.dataFirst p.dataLast)) := by
  refine .get_bind fun d hd => .bind (.failIf_false (by simp [blockSize_eq]) _ _) ?_
  refine .get_bind fun d hd => ?_
  rw [frame_count hd.1, hcount, h]
  refine .get_bind fun d hd => ?_
  rw [frame_count hd.1, hcount]
  exact .bind (runs_writeTables hblocks hsize (length_entryArray ..)) (.pure _ _)

theorem runs_writeLayout_error {espSectors : Nat} {e : GptError} (g : Guids)
    (h : placement (blockCount d₀) espSectors = .error e) :
    Runs (Stored d₀) (writeLayout g espSectors) m (.error e) m := by
  refine .get_bind fun d hd => .bind (.failIf_false (by simp [blockSize_eq]) _ _) ?_
  refine .get_bind fun d hd => ?_
  rw [frame_count hd.1, h]
  exact .throw _ _

theorem onDisk_layoutMem (hsize : 68 ≤ total) (harr : arr.length = 16384) :
    OnDisk (layoutMem m total diskGuid arr) total diskGuid arr := by
  have hmbr := length_protectiveMbr total
  have hprimary := (primaryHeader total diskGuid arr).length_buildHeader
  have hbackup := (backupHeader total diskGuid arr).length_buildHeader
  refine ⟨?_, ?_, ?_⟩
  · rw [layoutMem, read_write_disjoint (by omega), read_write_disjoint (by omega),
      read_write_disjoint (by omega), read_write_disjoint (by omega), read_write_of_length harr]
  · rw [layoutMem, read_write_disjoint (by omega), read_write_disjoint (by omega),
      read_write_disjoint (by omega), read_write_of_length hprimary]
  · rw [layoutMem, read_write_of_length hbackup]

/-- A layout that was written parses as its two partitions, which start on 1 MiB
boundaries, do not overlap and lie between the two entry arrays; the backup header has
the disk GUID and the array checksum of the primary. -/
theorem writeLayout_parse {d d' : D} {g : Guids} {espSectors : Nat} {esp data : Extent}
    (hdev : blocks d = blockCount d) (hpos : 0 < espSectors) (hok : writeLayout g espSectors d = .ok (esp, data) d') :
    ∃ (p q : GptPartition) (d'' : D), parse d' = .ok [p, q] d'' ∧
      (p.isEsp ∧ p.firstLba = esp.firstLba ∧ p.sectors = esp.sectors ∧ esp.sectors = espSectors) ∧
      (q.isBasicData ∧ q.firstLba = data.firstLba ∧ q.sectors = data.sectors) ∧
      (2048 ∣ esp.firstLba ∧ 2048 ∣ data.firstLba ∧ esp.firstLba + esp.sectors ≤ data.firstLba) ∧
      (34 ≤ esp.firstLba ∧ data.firstLba + data.sectors ≤ blockCount d - 33) ∧
      ∃ primary backup : List UInt8, readBlocks 1 512 d' = .ok primary d' ∧
        readBlocks (blockCount d - 1) 512 d' = .ok backup d' ∧
        slice backup 56 16 = slice primary 56 16 ∧ rdU32 backup 88 = rdU32 primary 88 := by
  have hlt := blocks_lt d
  obtain ⟨p, hp⟩ : ∃ p, placement (blockCount d) espSectors = .ok p := by
    cases hp : placement (blockCount d) espSectors with
    | ok p => exact ⟨p, rfl⟩
    | error e =>
      obtain ⟨herr, -⟩ := (runs_writeLayout_error g hp).of_ok (stored_self d) hok
      cases herr
  obtain ⟨hsize, hef, hel, hlow, hal, hdf, hdl⟩ := placement_ok hpos hp
  have harr := length_entryArray g p.espFirst p.espLast p.dataFirst p.dataLast
  obtain ⟨hext, hframe, hmem⟩ := (runs_writeLayout g rfl hdev hsize hp).of_ok (stored_self d) hok
  obtain ⟨rfl, rfl⟩ : ⟨p.espFirst, espSectors⟩ = esp ∧ ⟨p.dataFirst, p.dataLast - p.dataFirst + 1⟩ = data := by
    simpa using hext
  have hdisk : OnDisk (mem d') (blockCount d) g.disk _ := hmem ▸ onDisk_layoutMem hsize harr
  have hparts := partitions_entryArray g (by omega : p.espFirst < 2 ^ 64) (by omega : p.espLast < 2 ^ 64)
    (by omega : p.dataFirst < 2 ^ 64) (by omega : p.dataLast < 2 ^ 64)
  have hblocks : blocks d' = blockCount d := (frame_blocks hframe).trans hdev
  obtain ⟨d'', hparse, hd''⟩ := runs_parse hdisk (by omega) (by rw [hparts]; simp) d' (stored_self d')
  rw [hparts] at hparse
  have hread : ∀ lba, lba + 1 ≤ blockCount d → readBlocks lba 512 d' = .ok ((mem d').read (512 * lba) 512) d' :=
    fun lba hlba => by
      have := @read_ok D _ _ d' lba 1 (by omega) (by omega)
      rwa [mul_one] at this
  refine ⟨_, _, d'', hparse, ⟨by simp [isEsp], rfl, ?_, rfl⟩,
    ⟨by simp [isBasicData], rfl, ?_⟩, ?_, ?_, _, _,
    hread 1 (by omega), hread _ (by omega), ?_, ?_⟩
  · have hsectors : p.espLast - p.espFirst + 1 = espSectors := by omega
    rw [sectors, hsectors, min_eq_left (by omega)]
  · have hle : p.dataLast - p.dataFirst + 1 ≤ 2 ^ 64 - 1 := by omega
    rw [sectors, min_eq_left hle]
  · exact ⟨⟨1, hef⟩, hal, by simp only; omega⟩
  · exact ⟨by simp only; omega, by simp only; omega⟩
  · rw [hdisk.primary, hdisk.backup, slice_buildHeader_diskGuid,
      slice_buildHeader_diskGuid, primaryHeader, backupHeader]
  · rw [hdisk.primary, hdisk.backup, rdU32_buildHeader_arrayCrc,
      rdU32_buildHeader_arrayCrc, primaryHeader, backupHeader]

theorem writeLayout_parse_256MiB : ∃ (esp data : Extent) (d' : MemDisk),
      writeLayout ⟨typeEsp, typeEsp, typeEsp⟩ 131072 (⟨524288, by decide, fun _ => 0⟩ : MemDisk) =
        .ok (esp, data) d' ∧ ∃ (p q : GptPartition) (d'' : MemDisk), parse d' = .ok [p, q] d'' := by
  have hsize : 68 ≤ blockCount (⟨524288, by decide, fun _ => 0⟩ : MemDisk) := by decide
  have hp : placement (blockCount (⟨524288, by decide, fun _ => 0⟩ : MemDisk)) 131072 =
      .ok ⟨2048, 133119, 133120, 524254⟩ := by decide
  obtain ⟨d', hok, -⟩ := runs_writeLayout ⟨typeEsp, typeEsp, typeEsp⟩ rfl rfl hsize hp _ (stored_self _)
  obtain ⟨p, q, d'', hparse, -⟩ := writeLayout_parse rfl (by decide) hok
  exact ⟨_, _, d', hok, p, q, d'', hparse⟩

end Ruos.Gpt
