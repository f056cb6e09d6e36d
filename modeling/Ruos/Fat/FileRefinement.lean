import Ruos.Fat.Tree
import Ruos.Fat.NamesKept

/-! A handle agrees with its array of bytes, call by call and over whole runs. -/
namespace Ruos.Fat

open Lib Vfs Block List Fat32File
open Block.ErrorFree

variable {b : Bpb} {v v' : Vol} {f : Fat32File} {cs ns : List Nat} {c d i : Nat}

/-- The bytes between the end of the file and the position that its clusters already have are zero. -/
def GapZero (b : Bpb) (v : Vol) (f : Fat32File) (cs : List Nat) : Prop :=
  ∀ k, f.entry.size ≤ k → k < f.pos → ∀ c, cs[k / b.clusterBytes]? = some c → (v.clus c)[k % b.clusterBytes]? = some 0

namespace Sound

variable (h : Sound b v f cs d i)
include h

theorem isCluster : ∀ x ∈ cs, b.IsCluster x := fun x hx => (h.clusters x hx).1

theorem handle {g : Fat32File} (hentry : g.entry = f.entry) (htrunc : g.truncate = f.truncate) (hknown : Known b v g cs)
    (hpos : g.pos < 2 ^ 63) : Sound b v g cs d i where
  record := hentry ▸ h.record
  __ := h
  known := hknown
  pending := fun hp => hentry ▸ h.pending (htrunc ▸ hp)
  size_le := hentry ▸ h.size_le
  size_lt := hentry ▸ h.size_lt
  pos_lt := hpos

theorem truncated : Sound b v f.truncated cs d i := by
  unfold Fat32File.truncated
  split_ifs with htrunc
  · exact {
      record := ⟨h.record.isCluster, h.record.lt, h.record.loc⟩
      __ := h
      known := .inr ⟨rfl, h.pending htrunc⟩
      pending := by simp
      size_le := Nat.zero_le _
      size_lt := Nat.two_pow_pos 32
      pos_lt := Nat.two_pow_pos 63 }
  · exact h

theorem size_le_length (hsized : Sized b v) : f.entry.size ≤ (dataOf v cs).length := by
  rw [length_dataOf hsized h.isCluster]
  exact h.size_le

section

variable (hg : Grown b v cs v' ns)
include hg

theorem dataOf_grown_old : dataOf v' cs = dataOf v cs := by
  rw [dataOf]
  congr 1
  exact map_congr_left fun x hx => hg.clus x fun hmem => (h.clusters x hx).2 (hg.free x hmem)

theorem clus_record : v'.clus d = v.clus d :=
  hg.clus d fun hmem => h.used (hg.free d hmem)

theorem not_grown (htrunc : f.truncate = false) : Sound b v' (f.caching cs) cs d i where
  __ := h
  clusters := fun x hx => ⟨h.isCluster x hx, hg.used x (.inl (h.clusters x hx).2)⟩
  used := hg.used d (.inl h.used)
  known := .inl rfl
  pending := by
    intro hp
    rw [caching, htrunc] at hp
    cases hp

theorem grown (htrunc : f.truncate = false) : Sound b v' (f.caching (cs ++ ns)) (cs ++ ns) d i where
  __ := h
  clusters := by
    intro x hx
    rcases mem_append.mp hx with hx | hx
    · exact ⟨h.isCluster x hx, hg.used x (.inl (h.clusters x hx).2)⟩
    · exact ⟨hg.isCluster x hx, hg.used x (.inr hx)⟩
  nodup := by
    refine nodup_append.mpr ⟨h.nodup, hg.nodup, ?_⟩
    rintro x hx y hy rfl
    exact (h.clusters x hx).2 (hg.free x hy)
  outside := by
    intro hd
    rcases mem_append.mp hd with hd | hd
    · exact h.outside hd
    · exact h.used (hg.free d hd)
  used := hg.used d (.inl h.used)
  known := .inl rfl
  pending := by
    intro hp
    rw [caching, htrunc] at hp
    cases hp
  size_le := by
    rw [length_append, Nat.add_mul]
    exact Nat.le_add_right_of_le h.size_le

end

theorem byteFile_grown (hsized : Sized b v) (hg : Grown b v cs v' ns) :
    byteFile v' (f.caching (cs ++ ns)) (cs ++ ns) = byteFile v f cs := by
  have hle := h.size_le_length hsized
  have hdata := dataOf_grown hg fun x hx => (h.clusters x hx).2
  rw [byteFile, byteFile, hdata]
  change ({ bytes := if f.truncate then [] else List.take f.entry.size _, pos := f.pos } : ByteFile) = _
  rw [take_append_of_le_length hle]

theorem gapZero_grown (hg : Grown b v cs v' ns) (hcb : 0 < b.clusterBytes) (hgap : GapZero b v f cs) :
    GapZero b v' (f.caching (cs ++ ns)) (cs ++ ns) := by
  intro k hk hlt c hc
  by_cases hidx : k / b.clusterBytes < cs.length
  · rw [getElem?_append_left hidx] at hc
    have hmem := mem_of_getElem? hc
    rw [hg.clus c fun hnew => (h.clusters c hmem).2 (hg.free c hnew)]
    exact hgap k hk hlt c hc
  · rw [getElem?_append_right (by omega)] at hc
    rw [hg.zeroed c (mem_of_getElem? hc), zeroCluster, getElem?_replicate, if_pos (Nat.mod_lt k hcb)]

theorem no_room (hg : Grown b v cs v' ns) (hfull : NoFree b v') {free : List Nat} (hnodup : free.Nodup)
    (hfree : ∀ n ∈ free, b.IsCluster n ∧ v.fat n = 0) : free.length ≤ ns.length := by
  refine (hnodup.subperm fun x hx => ?_).length_le
  obtain ⟨hx, hzero⟩ := hfree x hx
  by_contra hnew
  refine hfull x hx ((hg.fat x hnew fun hlast => ?_).trans hzero)
  exact (h.clusters x (mem_of_getLast? hlast)).2 hzero

end Sound

theorem truncate_truncated (f : Fat32File) : f.truncated.truncate = false := by
  unfold truncated
  split_ifs with h
  · rfl
  · simpa using h

theorem byteFile_truncated (hpos : f.truncate = true → f.pos = 0) : byteFile v f.truncated cs = byteFile v f cs := by
  unfold truncated
  split_ifs with h
  · simp [byteFile, h, hpos h]
  · rfl

theorem write_end_le {data : List UInt8} (hc : cs[f.pos / b.clusterBytes]? = some c)
    (hfits : f.pos % b.clusterBytes + data.length ≤ b.clusterBytes) :
    f.pos + data.length ≤ cs.length * b.clusterBytes := by
  obtain ⟨hlt, -⟩ := List.getElem?_eq_some_iff.mp hc
  have hmul := mul_add_le_mul b.clusterBytes hlt
  have hpos : f.pos / b.clusterBytes * b.clusterBytes + f.pos % b.clusterBytes = f.pos := Nat.div_add_mod' _ _
  omega

theorem size_advanced {first n : Nat} (h : f.pos + n < 2 ^ 32) :
    (Fat32File.advanced first n f).entry.size = max f.entry.size (f.pos + n) := by
  change (if f.entry.size < f.pos + n then (f.pos + n) % 2 ^ 32 else f.entry.size) = _
  split_ifs with hlt
  · omega
  · omega

/-- The volume after data was written into the cluster `c` and the record was updated. -/
def storedVol (b : Bpb) (v : Vol) (f : Fat32File) (c d i first : Nat) (data : List UInt8) : Vol :=
  (v.setClus c (splice (v.clus c) (f.pos % b.clusterBytes) data)).patch d i first
    (Fat32File.advanced first data.length f).entry.size

section

variable {first : Nat} {data : List UInt8} (h : Sound b v f cs d i) (hc : cs[f.pos / b.clusterBytes]? = some c)
  (hfits : f.pos % b.clusterBytes + data.length ≤ b.clusterBytes) (hsize : f.pos + data.length < 2 ^ 32)
include h hc hfits hsize

theorem Sound.stored (htrunc : f.truncate = false) :
    Sound b (storedVol b v f c d i first data) (Fat32File.advanced first data.length (f.caching cs)) cs d i where
  record := ⟨h.record.isCluster, h.record.lt, h.record.loc⟩
  __ := h
  known := .inl rfl
  pending := by
    intro hp
    rw [caching, htrunc] at hp
    cases hp
  size_le := by
    have hend := write_end_le hc hfits
    have hold := h.size_le
    rw [size_advanced (f := f.caching cs) hsize]
    exact max_le hold hend
  size_lt := by
    have hold := h.size_lt
    rw [size_advanced (f := f.caching cs) hsize]
    exact max_lt hold hsize
  pos_lt := by
    change f.pos + data.length < 2 ^ 63
    omega

theorem recSize_stored (hsized : Sized b v) :
    recSize (slice ((storedVol b v f c d i first data).clus d) (i * 32) 32) =
      (Fat32File.advanced first data.length f).entry.size := by
  have hclus := hsized c (h.isCluster c (mem_of_getElem? hc))
  have hsized' : Sized b (v.setClus c (splice (v.clus c) (f.pos % b.clusterBytes) data)) :=
    hsized.setClus (by rw [length_splice (by omega), hclus])
  have hlen : (slice ((v.setClus c (splice (v.clus c) (f.pos % b.clusterBytes) data)).clus d) (i * 32) 32).length = 32 := by
    have hlt := h.record.lt
    exact length_slice (by rw [hsized' d h.record.isCluster]; omega)
  have hold := h.size_lt
  rw [storedVol, slice_patch hsized' h.record.isCluster h.record.lt, recSize_patched hlen]
  rw [size_advanced hsize]
  exact max_lt hold hsize

theorem byteFile_stored (hsized : Sized b v) (hcb : 0 < b.clusterBytes) (htrunc : f.truncate = false) (hne : data ≠ [])
    (hgap : GapZero b v f cs) :
    byteFile (storedVol b v f c d i first data) (Fat32File.advanced first data.length (f.caching cs)) cs =
      (byteFile v f cs).store data := by
  have hlen := length_dataOf hsized h.isCluster
  have hend := write_end_le hc hfits
  have hle := h.size_le_length hsized
  have hdata : dataOf (storedVol b v f c d i first data) cs = splice (dataOf v cs) f.pos data := by
    rw [← dataOf_setClus hsized h.isCluster hc h.nodup hfits, dataOf]
    congr 1
    exact map_congr_left fun x hx => clus_patch_of_ne fun heq => h.outside (heq ▸ hx)
  have hzero : ∀ k, f.entry.size ≤ k → k < f.pos → (dataOf v cs)[k]? = some 0 := by
    intro k hk hlt
    have hidx : k / b.clusterBytes < cs.length := by
      rw [Nat.div_lt_iff_lt_mul hcb]
      omega
    have hget : cs[k / b.clusterBytes]? = some cs[k / b.clusterBytes] := getElem?_eq_getElem hidx
    rw [getElem?_dataOf hsized h.isCluster hget hcb]
    exact hgap k hk hlt _ hget
  have hsplice : (splice (dataOf v cs) f.pos data).take (max f.entry.size (f.pos + data.length)) =
      splice ((dataOf v cs).take f.entry.size ++ replicate (f.pos - f.entry.size) 0) f.pos data :=
    take_splice_extend (by omega) hle hzero
  have htake : ((dataOf v cs).take f.entry.size).length = f.entry.size := by
    rw [length_take]
    omega
  have hnew : (advanced first data.length (f.caching cs)).entry.size = max f.entry.size (f.pos + data.length) :=
    size_advanced hsize
  have hkeep : (advanced first data.length (f.caching cs)).truncate = false := htrunc
  rw [byteFile, byteFile, ByteFile.store, hkeep, htrunc, hnew, hdata, hsplice]
  simp only [Bool.false_eq_true, if_false, if_neg hne, htake]
  rfl

end

end Ruos.Fat
