import Ruos.Fat.FileRuns

/-! Writing to a file and updating the size in its record keep the tree of directories in order. -/
namespace Ruos.Fat

open Lib Vfs Block List

section

variable {rec : List UInt8} (hrec : rec.length = 32) (cluster size : Nat)
include hrec

theorem firstByte_patched : firstByte (patched rec cluster size) = firstByte rec := by
  have hslice : slice (patched rec cluster size) 0 1 = slice rec 0 1 := slice_patched hrec (by decide) cluster size
  have hhead : ∀ l : List UInt8, firstByte (slice l 0 1) = firstByte l := by
    intro l
    cases l <;> rfl
  rw [← hhead, hslice, hhead]

theorem recAttr_patched : recAttr (patched rec cluster size) = recAttr rec := by
  have hslice : slice (patched rec cluster size) 11 1 = slice rec 11 1 := slice_patched hrec (by decide) cluster size
  have hget := congrArg (fun l => l[0]?) hslice
  simp only [getElem?_slice, Nat.zero_lt_one, if_true, Nat.add_zero] at hget
  rw [recAttr, recAttr, getD_eq_getElem?_getD, getD_eq_getElem?_getD, hget]

theorem isFree_patched : isFree (patched rec cluster size) = isFree rec := by
  rw [isFree, isFree, firstByte_patched hrec]

theorem readSlot_patched [Unicode] (hattr : recAttr rec ≠ 0x0F) (p : Option LfnRun) :
    readSlot p (patched rec cluster size) = readSlot p rec := by
  have hname : slotName p (patched rec cluster size) = slotName p rec := by
    have hslice : slice (patched rec cluster size) 0 11 = slice rec 0 11 := slice_patched hrec (by decide) cluster size
    simp only [slotName, hslice]
  rw [readSlot, readSlot, firstByte_patched hrec, recAttr_patched hrec, if_neg hattr, if_neg hattr, hname]

end

theorem entryOf_patched {rec : List UInt8} {cluster size : Nat} (hrec : rec.length = 32) (hc : cluster < 2 ^ 32)
    (hs : size < 2 ^ 32) (name : Name) (loc : Nat × Nat) :
    entryOf name (loc, patched rec cluster size) = { entryOf name (loc, rec) with cluster, size } := by
  simp only [entryOf, recAttr_patched hrec, recCluster_patched hrec hc, recSize_patched hrec cluster hs]

theorem Tidy.replace {A B : List Located} {r r' : Located} (h : Tidy (A ++ r :: B)) (hused : isFree r.2 = false)
    (hused' : isFree r'.2 = false) (hattr : recAttr r'.2 ≠ 0x0F) : Tidy (A ++ r' :: B) := by
  obtain ⟨A', Z, heq, hA, hZ⟩ := h
  rcases append_eq_append_iff.mp heq with ⟨C, rfl, hC⟩ | ⟨C, rfl, hC⟩
  · cases C with
    | nil =>
      have hzero := hZ r (by rw [nil_append] at hC; rw [← hC]; exact mem_cons_self)
      rw [hzero] at hused
      cases hused
    | cons y C =>
      obtain ⟨rfl, rfl⟩ : r = y ∧ B = C ++ Z := by simpa using hC
      refine ⟨A ++ r' :: C, Z, by simp, fun x hx => ?_, hZ⟩
      rcases mem_append.mp hx with hx | hx
      · exact hA x (mem_append_left _ hx)
      · rcases mem_cons.mp hx with rfl | hx
        · exact ⟨hused', hattr⟩
        · exact hA x (mem_append_right _ (mem_cons_of_mem r hx))
  · have hzero := hZ r (by rw [hC]; simp)
    rw [hzero] at hused
    cases hused

namespace Tree

variable [Unicode] {b : Bpb} {v v' : Vol} {e : DirEntry} {cs : List Nat} {P blocks : Nat} (t : Tree b v)
include t

theorem file_apart (he : IsRecord b v e) (hfile : e.isDir = false) (hP : IsDirectory b v P) :
    (chainOf b v.fat P).Disjoint (chainOf b v.fat e.cluster) := by
  refine t.apart P e.cluster hP.isHead he.isHead fun heq => ?_
  cases hP with
  | root => exact t.not_root e he heq.symm
  | sub hQ hmem hdot hdir =>
    rw [t.injective _ _ ⟨_, hQ, hmem, hdot⟩ he heq, hfile] at hdir
    cases hdir

theorem same_extended {cs' : List Nat} {h x : Nat} (he : IsRecord b v e) (hext : Extends b v cs v' cs')
    (hsub : cs ⊆ chainOf b v.fat e.cluster) (hh : IsHead b v h) (hne : h ≠ e.cluster) (hx : x ∈ chainOf b v.fat h) :
    v'.fat x = v.fat x ∧ v'.clus x = v.clus x := by
  obtain ⟨ns, rfl, hg⟩ := hext.grown
  have hnew : x ∉ ns := fun hmem => ((t.chained h hh).mem x hx).2 (hg.free x hmem)
  have hlast : cs.getLast? ≠ some x := fun heq =>
    t.apart h e.cluster hh he.isHead hne hx (hsub (mem_of_getLast? heq))
  exact ⟨hg.fat x hnew hlast, hg.clus x hnew⟩

section

variable (hw : b.WellSized blocks) (he : IsRecord b v e) (hfile : e.isDir = false)
  (hext : Extends b v (chainOf b v.fat e.cluster) v' cs)
include hw he hfile hext

omit hfile in
theorem chained_grown : Chained b v'.fat e.cluster cs := by
  have hmem := t.mem_chainOf hw he.isHead
  have hchain := t.chained e.cluster he.isHead
  refine hext.chained hw (fun _ => hchain) ?_
  rw [hext.head? (ne_nil_of_mem hmem)]
  exact hchain.walk.head? (onChain_of_isCluster hw (t.live _ he.isHead))

omit hw hfile in
theorem same_grown {h x : Nat} (hh : IsHead b v h) (hne : h ≠ e.cluster) (hx : x ∈ chainOf b v.fat h) :
    v'.fat x = v.fat x ∧ v'.clus x = v.clus x := t.same_extended he hext (fun _ hx => hx) hh hne hx

omit hw in
theorem sameDirs_grown : SameDirs b v v' := by
  refine t.sameDirs fun P hP x hx => t.same_grown he hext hP.isHead (fun heq => ?_) hx
  exact t.file_apart he hfile hP hx (heq ▸ hx)

omit hw hfile in
theorem apart_grown {h : Nat} (hh : IsHead b v h) (hne : h ≠ e.cluster) : cs.Disjoint (chainOf b v.fat h) := by
  obtain ⟨ns, rfl, hg⟩ := hext.grown
  intro x hx hx'
  rcases mem_append.mp hx with hx | hx
  · exact t.apart h e.cluster hh he.isHead hne hx' hx
  · exact ((t.chained h hh).mem x hx').2 (hg.free x hx)

theorem grow : Tree b v' := by
  have hs := t.sameDirs_grown he hfile hext
  have hfirst := (t.chained_grown hw he hext).chainOf_eq
  have hother : ∀ {h}, IsHead b v h → h ≠ e.cluster →
      Chained b v'.fat h (chainOf b v.fat h) ∧ chainOf b v'.fat h = chainOf b v.fat h := fun hh hne =>
    t.chainOf_of_same hh fun x hx => (t.same_grown he hext hh hne hx).1
  obtain ⟨ns, rfl, hg⟩ := hext.grown
  constructor
  · exact fun h hh => t.live h (hs.isHead.mp hh)
  · intro h hh
    by_cases heq : h = e.cluster
    · rw [heq, hfirst]
      exact t.chained_grown hw he hext
    · obtain ⟨hc, hsame⟩ := hother (hs.isHead.mp hh) heq
      rw [hsame]
      exact hc
  · intro h h' hh hh' hne
    rw [hs.isHead] at hh hh'
    by_cases heq : h = e.cluster
    · have hne' : h' ≠ e.cluster := fun h'eq => hne (heq.trans h'eq.symm)
      rw [heq, hfirst, (hother hh' hne').2]
      exact t.apart_grown he hext hh' hne'
    · rw [(hother hh heq).2]
      by_cases heq' : h' = e.cluster
      · rw [heq', hfirst]
        exact fun x hx hx' => t.apart_grown he hext hh heq hx' hx
      · rw [(hother hh' heq').2]
        exact t.apart h h' hh hh' hne
  · exact fun x y hx hy => t.injective x y (hs.isRecord.mp hx) (hs.isRecord.mp hy)
  · exact fun x hx => t.not_root x (hs.isRecord.mp hx)
  · intro x hx
    have hle := t.size_le x (hs.isRecord.mp hx)
    by_cases heq : x.cluster = e.cluster
    · rw [heq] at hle
      rw [heq, hfirst, length_append, Nat.add_mul]
      exact Nat.le_add_right_of_le hle
    · rw [(hother (hs.isRecord.mp hx).isHead heq).2]
      exact hle
  · intro n htwo hlt hused
    by_cases hnew : n ∈ ns
    · exact ⟨e.cluster, hs.isHead.mpr he.isHead, by rw [hfirst]; exact mem_append_right _ hnew⟩
    · by_cases hlast : (chainOf b v.fat e.cluster).getLast? = some n
      · refine ⟨e.cluster, hs.isHead.mpr he.isHead, ?_⟩
        rw [hfirst]
        exact mem_append_left _ (mem_of_getLast? hlast)
      · obtain ⟨h, hh, hmem⟩ := t.cover n htwo hlt (hg.fat n hnew hlast ▸ hused)
        refine ⟨h, hs.isHead.mpr hh, ?_⟩
        by_cases heq : h = e.cluster
        · rw [heq] at hmem
          rw [heq, hfirst]
          exact mem_append_left _ hmem
        · rw [(hother hh heq).2]
          exact hmem
  · intro P hP
    have hP' := hs.isDirectory.mp hP
    refine t.tidy_of_same hP' fun x hx => t.same_grown he hext hP'.isHead (fun heq => ?_) hx
    exact t.file_apart he hfile hP' hx (heq ▸ hx)
  · exact fun P x => hs.maps.dots t.dots
  · rw [hg.mirrored]
    exact t.mirrored

end

section

variable {c : Nat} {data : List UInt8} (he : IsRecord b v e) (hfile : e.isDir = false)
  (hc : c ∈ chainOf b v.fat e.cluster)
include he hfile hc

theorem same_setData (hP : IsDirectory b v P) {x : Nat} (hx : x ∈ chainOf b v.fat P) :
    (v.setClus c data).clus x = v.clus x := by
  have hne : x ≠ c := fun heq => t.file_apart he hfile hP hx (heq ▸ hc)
  exact Vol.clus_setClus_of_ne hne v data

theorem sameDirs_setData : SameDirs b v (v.setClus c data) :=
  t.sameDirs fun _ hP _ hx => ⟨rfl, t.same_setData he hfile hc hP hx⟩

theorem setData : Tree b (v.setClus c data) := by
  have hs : SameDirs b v (v.setClus c data) := t.sameDirs_setData he hfile hc
  constructor
  · exact fun h hh => t.live h (hs.isHead.mp hh)
  · exact fun h hh => t.chained h (hs.isHead.mp hh)
  · exact fun h h' hh hh' => t.apart h h' (hs.isHead.mp hh) (hs.isHead.mp hh')
  · exact fun x y hx hy => t.injective x y (hs.isRecord.mp hx) (hs.isRecord.mp hy)
  · exact fun x hx => t.not_root x (hs.isRecord.mp hx)
  · exact fun x hx => t.size_le x (hs.isRecord.mp hx)
  · intro n htwo hlt hused
    obtain ⟨h, hh, hmem⟩ := t.cover n htwo hlt hused
    exact ⟨h, hs.isHead.mpr hh, hmem⟩
  · intro P hP
    have hP' := hs.isDirectory.mp hP
    exact t.tidy_of_same hP' fun x hx => ⟨rfl, t.same_setData he hfile hc hP' hx⟩
  · exact fun P x => hs.maps.dots t.dots
  · exact t.mirrored

end

end Tree

section

variable [Unicode] {b : Bpb} {v : Vol} {e : DirEntry} {P d i size : Nat} {l : List Nat}

omit [Unicode] in
theorem dirSlots_patch (hsized : Sized b v) (hl : ∀ x ∈ l, b.IsCluster x) (hnodup : l.Nodup) (hd : d ∈ l)
    (hi : i < b.clusterBytes / 32) (cluster size : Nat) :
    ∃ A B, dirSlots b v l = A ++ (recordLoc b d i, slice (v.clus d) (i * 32) 32) :: B ∧
      dirSlots b (v.patch d i cluster size) l =
        A ++ (recordLoc b d i, patched (slice (v.clus d) (i * 32) 32) cluster size) :: B := by
  obtain ⟨l₁, l₂, rfl⟩ := append_of_mem hd
  have hlen := hsized d (hl d hd)
  have hrec : (slice (v.clus d) (i * 32) 32).length = 32 := length_slice (by omega)
  have hpatch := length_patched hrec cluster size
  have hself : splice (v.clus d) (i * 32) (slice (v.clus d) (i * 32) 32) = v.clus d := splice_slice_self (by omega)
  have hold := clusterSlots_splice_one (b := b) (c := d) hrec (by rw [hlen]; exact hi)
  rw [hself] at hold
  have hnew := clusterSlots_splice_one (b := b) (c := d) hpatch (by rw [hlen]; exact hi)
  refine ⟨dirSlots b v l₁ ++ (clusterSlots b d (v.clus d)).take i,
    (clusterSlots b d (v.clus d)).drop (i + 1) ++ dirSlots b v l₂, ?_, ?_⟩
  · rw [dirSlots_split]
    nth_rewrite 1 [hold]
    simp
  · rw [Vol.patch, dirSlots_setClus hnodup, hnew]
    simp

theorem Tree.dirEntries_patch (t : Tree b v) (hsized : Sized b v) (hP : IsDirectory b v P) (he : e ∈ dirEntries b v P)
    (hd : d ∈ chainOf b v.fat P) (hat : e.At b d i) (hc : e.cluster < 2 ^ 32) (hsize : size < 2 ^ 32) :
    (∃ E₁ E₂, dirEntries b v P = E₁ ++ e :: E₂ ∧ e ∉ E₁ ∧ e ∉ E₂ ∧
      dirEntries b (v.patch d i e.cluster size) P = E₁ ++ { e with size } :: E₂) ∧
    Tidy (dirSlots b (v.patch d i e.cluster size) (chainOf b v.fat P)) := by
  have hchain := t.chained P hP.isHead
  obtain ⟨A, B, hold, hnew⟩ :=
    dirSlots_patch hsized (fun x hx => hchain.isCluster hx) hchain.nodup hd hat.lt e.cluster size
  have hlen : (slice (v.clus d) (i * 32) 32).length = 32 := by
    have hlt := hat.lt
    exact length_slice (by rw [hsized d hat.isCluster]; omega)
  have hnodup := locs_nodup hsized (fun x hx => hchain.isCluster hx) hchain.nodup
  rw [hold, map_append, map_cons, nodup_append, nodup_cons] at hnodup
  obtain ⟨-, ⟨hB, -⟩, hA⟩ := hnodup
  have hnotA : e ∉ A.flatMap slotEntries := by
    intro hmem
    obtain ⟨r, hr, hin⟩ := mem_flatMap.mp hmem
    have hloc := (mem_slotEntries hin).2.1.trans hat.loc
    exact hA _ (mem_map.mpr ⟨r, hr, hloc⟩) _ mem_cons_self rfl
  have hnotB : e ∉ B.flatMap slotEntries := by
    intro hmem
    obtain ⟨r, hr, hin⟩ := mem_flatMap.mp hmem
    exact hB (mem_map.mpr ⟨r, hr, (mem_slotEntries hin).2.1.trans hat.loc⟩)
  rw [t.dirEntries_eq hP, hold, flatMap_append] at he
  have hin : e ∈ slotEntries (recordLoc b d i, slice (v.clus d) (i * 32) 32) := by
    rcases mem_append.mp he with he | he
    · exact absurd he hnotA
    · rcases mem_append.mp he with he | he
      · exact he
      · exact absurd he hnotB
  obtain ⟨hslot, -, name, hread, hentry⟩ := mem_slotEntries hin
  obtain ⟨hused, hattr⟩ := used_of_entry hread
  have hread' : readSlot none (patched (slice (v.clus d) (i * 32) 32) e.cluster size) = .entry name :=
    (readSlot_patched hlen _ _ hattr none).trans hread
  have hslot' : slotEntries (recordLoc b d i, patched (slice (v.clus d) (i * 32) 32) e.cluster size) =
      [{ e with size }] := by
    rw [slotEntries, hread']
    dsimp only
    rw [entryOf_patched hlen hc hsize, ← hentry]
  have htidy : Tidy (dirSlots b (v.patch d i e.cluster size) (chainOf b v.fat P)) := by
    have hold' := t.tidy P hP
    rw [hold] at hold'
    rw [hnew]
    refine hold'.replace hused ?_ ?_
    · rw [isFree_patched hlen]
      exact hused
    · rw [recAttr_patched hlen]
      exact hattr
  refine ⟨⟨A.flatMap slotEntries, B.flatMap slotEntries, ?_, hnotA, hnotB, ?_⟩, htidy⟩
  · rw [t.dirEntries_eq hP, hold, flatMap_append, flatMap_cons, hslot]
    rfl
  · have hchain' : Chained b (v.patch d i e.cluster size).fat P (chainOf b v.fat P) := hchain
    rw [Fat.dirEntries_eq hchain', htidy.scan_eq, hnew, flatMap_append, flatMap_cons, hslot']
    rfl
end

/-- The entry `e` gets a new size, the others stay. -/
def resized (e : DirEntry) (size : Nat) (x : DirEntry) : DirEntry := if x = e then { e with size } else x

section

variable {e x : DirEntry} {size : Nat}

theorem resized_self (e : DirEntry) (size : Nat) : resized e size e = { e with size } := if_pos rfl

theorem resized_of_ne (h : x ≠ e) : resized e size x = x := if_neg h

theorem name_resized (x : DirEntry) : (resized e size x).name = x.name := by
  by_cases h : x = e
  · rw [h, resized_self]
  · rw [resized_of_ne h]

theorem cluster_resized (x : DirEntry) : (resized e size x).cluster = x.cluster := by
  by_cases h : x = e
  · rw [h, resized_self]
  · rw [resized_of_ne h]

theorem isDir_resized (x : DirEntry) : (resized e size x).isDir = x.isDir := by
  by_cases h : x = e
  · rw [h, resized_self]
  · rw [resized_of_ne h]

theorem loc_resized (x : DirEntry) : ((resized e size x).recSec, (resized e size x).recOff) = (x.recSec, x.recOff) := by
  by_cases h : x = e
  · rw [h, resized_self]
  · rw [resized_of_ne h]

theorem map_resized_of_notMem {E : List DirEntry} (h : e ∉ E) : E.map (resized e size) = E := by
  have hid : E.map (resized e size) = E.map id :=
    map_congr_left fun x hx => resized_of_ne (ne_of_mem_of_not_mem hx h)
  rw [hid, map_id]

end

namespace Tree

variable [Unicode] {b : Bpb} {v : Vol} {e : DirEntry} {P d i size : Nat} (t : Tree b v)
include t

theorem mem_chainOf_of_at (hsized : Sized b v) (hP : IsDirectory b v P) (he : e ∈ dirEntries b v P)
    (hat : e.At b d i) : d ∈ chainOf b v.fat P := by
  obtain ⟨d', hd', i', hat', -⟩ := exists_record hsized (t.chained P hP.isHead) he
  obtain ⟨rfl, -⟩ := recordLoc_inj hat.isCluster hat'.isCluster hat.lt hat'.lt (hat.loc.symm.trans hat'.loc)
  exact hd'

section

variable (hsized : Sized b v) (he : IsRecord b v e) (hat : e.At b d i) (hc : e.cluster < 2 ^ 32) (hsize : size < 2 ^ 32)
include hsized he hat hc hsize

theorem patched_dir (hP : IsDirectory b v P) :
    dirEntries b (v.patch d i e.cluster size) P = (dirEntries b v P).map (resized e size) ∧
      Tidy (dirSlots b (v.patch d i e.cluster size) (chainOf b v.fat P)) := by
  by_cases hd : d ∈ chainOf b v.fat P
  · have hmem : e ∈ dirEntries b v P := by
      obtain ⟨Q, hQ, hmem, -⟩ := he
      obtain rfl := t.eq_of_mem hP.isHead hQ.isHead hd (t.mem_chainOf_of_at hsized hQ hmem hat)
      exact hmem
    obtain ⟨⟨E₁, E₂, hold, hE₁, hE₂, hnew⟩, htidy⟩ := t.dirEntries_patch hsized hP hmem hd hat hc hsize
    rw [hnew, hold, map_append, map_cons, resized_self, map_resized_of_notMem hE₁, map_resized_of_notMem hE₂]
    exact ⟨rfl, htidy⟩
  · have hslots : dirSlots b (v.patch d i e.cluster size) (chainOf b v.fat P) = dirSlots b v (chainOf b v.fat P) :=
      dirSlots_congr fun x hx => clus_patch_of_ne fun heq => hd (heq ▸ hx)
    have hnot : e ∉ dirEntries b v P := fun hmem => hd (t.mem_chainOf_of_at hsized hP hmem hat)
    rw [map_resized_of_notMem hnot]
    refine ⟨congrArg (fun S => (scan none S).1) hslots, ?_⟩
    rw [hslots]
    exact t.tidy P hP

theorem mapsDirs_patch : MapsDirs b v (v.patch d i e.cluster size) (resized e size) where
  listing := fun _ hP => (t.patched_dir hsized he hat hc hsize hP).1
  name := name_resized
  cluster := cluster_resized
  isDir := isDir_resized

theorem patch (hle : size ≤ (chainOf b v.fat e.cluster).length * b.clusterBytes) :
    Tree b (v.patch d i e.cluster size) := by
  have hm := t.mapsDirs_patch hsized he hat hc hsize
  constructor
  · exact fun h hh => t.live h (hm.isHead.mp hh)
  · exact fun h hh => t.chained h (hm.isHead.mp hh)
  · exact fun h h' hh hh' => t.apart h h' (hm.isHead.mp hh) (hm.isHead.mp hh')
  · intro x' y' hx' hy' heq
    obtain ⟨x, hx, rfl⟩ := hm.isRecord.mp hx'
    obtain ⟨y, hy, rfl⟩ := hm.isRecord.mp hy'
    rw [cluster_resized, cluster_resized] at heq
    rw [t.injective x y hx hy heq]
  · intro x' hx'
    obtain ⟨x, hx, rfl⟩ := hm.isRecord.mp hx'
    rw [cluster_resized]
    exact t.not_root x hx
  · intro x' hx'
    obtain ⟨x, hx, rfl⟩ := hm.isRecord.mp hx'
    by_cases heq : x = e
    · rw [heq, resized_self]
      exact hle
    · rw [resized_of_ne heq]
      exact t.size_le x hx
  · intro n htwo hlt hused
    obtain ⟨h, hh, hmem⟩ := t.cover n htwo hlt hused
    exact ⟨h, hm.isHead.mpr hh, hmem⟩
  · exact fun P hP => (t.patched_dir hsized he hat hc hsize (hm.isDirectory.mp hP)).2
  · exact fun P x => hm.dots t.dots
  · exact t.mirrored

end

end Tree

end Ruos.Fat
