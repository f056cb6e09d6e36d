import Ruos.Fat.Scan

/-! Putting a record into a directory: into its first free slot, or into a new cluster. -/
namespace Ruos.Fat

open Lib Vfs Block ErrorFree Function List Meets

variable {b : Bpb} {v v' : Vol} {c n d i : Nat} {l l' : List Nat} {rec : List UInt8} {loc : Nat × Nat}

theorem fat_alloc_self (v : Vol) (b : Bpb) (n : Nat) : (v.alloc b n).fat n = 0x0FFFFFFF := update_self _ _ _

theorem fat_alloc_of_ne (hne : c ≠ n) : (v.alloc b n).fat c = v.fat c := update_of_ne hne _ _

theorem clus_alloc_self (v : Vol) (b : Bpb) (n : Nat) : (v.alloc b n).clus n = zeroCluster b := update_self _ _ _

theorem clus_alloc_of_ne (hne : c ≠ n) : (v.alloc b n).clus c = v.clus c := update_of_ne hne _ _

variable {fat : Nat → Nat}

theorem Chained.notMem_of_free (h : Chained b fat c l) (hfree : fat n = 0) : n ∉ l :=
  fun hn => (h.mem n hn).2 hfree

theorem Chained.alloc (h : Chained b v.fat c l) (hfree : v.fat n = 0) : Chained b (v.alloc b n).fat c l :=
  h.congr fun _ hx => fat_alloc_of_ne (ne_of_mem_of_not_mem hx (h.notMem_of_free hfree))

theorem chained_alloc {blocks : Nat} (hw : b.WellSized blocks) (v : Vol) (hn : b.IsCluster n) :
    Chained b (v.alloc b n).fat n [n] := .single hn (onChain_of_isCluster hw hn) (fat_alloc_self v b n)

theorem mod_of_isCluster {blocks : Nat} (hw : b.WellSized blocks) (hn : b.IsCluster n) : n % 2 ^ 28 = n := by
  have hle := hw.max_le
  have hlt : eoc < 2 ^ 28 := by decide
  have hhigh := hn.2
  exact Nat.mod_eq_of_lt (by omega)

theorem lt_of_isCluster {blocks : Nat} (hw : b.WellSized blocks) (hn : b.IsCluster n) : n < 2 ^ 32 := by
  have hmod := mod_of_isCluster hw hn
  omega

theorem Chained.relink {r : List Nat} (h : Chained b fat c (l ++ d :: r)) (h' : Chained b fat n l') (hn : n ∈ l')
    (hd : d ∉ l') : Chained b (update fat d n) c (l ++ d :: l') := by
  refine ⟨h.walk.relink h'.walk hd, fun x hx => ?_⟩
  have hmax : x < b.maxCluster ∧ fat x ≠ 0 := by
    rcases mem_append.mp hx with hx | hx
    · exact h.mem x (mem_append_left _ hx)
    · rcases mem_cons.mp hx with rfl | hx
      · exact h.mem x (mem_append_right _ mem_cons_self)
      · exact h'.mem x hx
  by_cases hxd : x = d
  · have htwo := (h'.isCluster hn).1
    rw [hxd, update_self]
    exact ⟨hxd ▸ hmax.1, by omega⟩
  · rw [update_of_ne hxd]
    exact hmax

theorem Chained.link (h : Chained b fat c l) (hl : l.getLast? = some d) (h' : Chained b fat n l') (hn : n ∈ l')
    (hdisj : l.Disjoint l') : Chained b (update fat d n) c (l ++ l') := by
  have hd : d ∉ l' := hdisj (mem_of_getLast? hl)
  obtain ⟨m, rfl⟩ := getLast?_eq_some_iff.mp hl
  rw [append_assoc]
  exact h.relink h' hn hd

theorem Chained.grow {blocks : Nat} (hw : b.WellSized blocks) (h : Chained b v.fat c l) (hl : l.getLast? = some d)
    (hn : b.IsCluster n) (hfree : v.fat n = 0) : Chained b ((v.alloc b n).setFat d n).fat c (l ++ [n]) := by
  refine (h.alloc hfree).link hl (chained_alloc hw v hn) mem_cons_self fun x hx hxn => ?_
  rw [mem_singleton.mp hxn] at hx
  exact h.notMem_of_free hfree hx

theorem same_setClus {l₁ l₂ : List Nat} {data : List UInt8} (hl : l = l₁ ++ c :: l₂) :
    SameElsewhere l v (v.setClus c data) := by
  intro x hx _
  have hne : x ≠ c := by
    intro heq
    apply hx
    rw [hl, heq]
    exact mem_append_right _ mem_cons_self
  exact ⟨rfl, update_of_ne hne _ _⟩

/-- A cluster is added at the end of a directory; of the old clusters only the last may have changed before. -/
theorem same_grow {w : Vol} {data : List UInt8} (hl : l.getLast? = some d) (hfree : v.fat n = 0) (hfat : w.fat = v.fat)
    (hclus : ∀ x ≠ d, w.clus x = v.clus x) : SameElsewhere l v (((w.alloc b n).setFat d n).setClus n data) := by
  intro x hx hused
  have hne : x ≠ n := fun heq => hused (heq ▸ hfree)
  have hlast : x ≠ d := (ne_of_mem_of_not_mem (mem_of_getLast? hl) hx).symm
  constructor
  · change update (w.alloc b n).fat d n x = v.fat x
    rw [update_of_ne hlast, fat_alloc_of_ne hne, hfat]
  · change update (w.alloc b n).clus n _ x = v.clus x
    rw [update_of_ne hne, clus_alloc_of_ne hne, hclus x hlast]

/-- What adding a record to the directory with the clusters `l` does: its location, the volume
and the clusters of the directory afterwards. -/
inductive Added (b : Bpb) (v : Vol) (l : List Nat) (rec : List UInt8) : Nat × Nat → Vol → List Nat → Prop
  | reuse {c i : Nat} {l₁ l₂ : List Nat} {old : List UInt8} (hl : l = l₁ ++ c :: l₂)
      (hold : (records (v.clus c))[i]? = some old) (hfree : isFree old = true)
      (hused : ∀ r ∈ dirSlots b v l₁ ++ (clusterSlots b c (v.clus c)).take i, isFree r.2 = false) :
      Added b v l rec (recordLoc b c i) (v.setClus c (splice (v.clus c) (i * 32) rec)) l
  | grow {last n : Nat} (hlast : l.getLast? = some last) (hn : b.IsCluster n) (hfree : v.fat n = 0)
      (hused : ∀ r ∈ dirSlots b v l, isFree r.2 = false) :
      Added b v l rec (b.clusterSector n, 0)
        (((v.alloc b n).setFat last n).setClus n (splice (zeroCluster b) 0 rec)) (l ++ [n])

theorem mem_clusterSlots {buf : List UInt8} {r : Located} (h : r ∈ clusterSlots b c buf) : r.2 ∈ records buf := by
  obtain ⟨i, hi, rfl⟩ := mem_mapIdx.mp h
  exact getElem_mem hi

theorem clusterSlots_zero_splice (hrec : rec.length = 32) (hspc : 0 < b.secPerCluster) :
    ∃ Z, clusterSlots b n (splice (zeroCluster b) 0 rec) = ((b.clusterSector n, 0), rec) :: Z ∧
      ∀ r ∈ Z, r.2 = replicate 32 0 := by
  have hlen : 0 < (zeroCluster b).length / 32 := by
    rw [length_zeroCluster, Bpb.clusterBytes]
    omega
  have hslots := @clusterSlots_splice_one b n (zeroCluster b) rec 0 hrec hlen
  refine ⟨_, hslots, fun r hr => ?_⟩
  have hmem := mem_clusterSlots (mem_of_mem_drop hr)
  rw [records, zeroCluster, pieces_replicate] at hmem
  exact eq_of_mem_replicate hmem

namespace Added

theorem slots (h : Added b v l rec loc v' l') (hnodup : l.Nodup) (hchain : ∀ x ∈ l, v.fat x ≠ 0)
    (hrec : rec.length = 32) (hspc : 0 < b.secPerCluster) :
    (∃ A old B, dirSlots b v l = A ++ (loc, old) :: B ∧ isFree old = true ∧
      dirSlots b v' l' = A ++ (loc, rec) :: B ∧ ∀ r ∈ A, isFree r.2 = false) ∨
    (∃ Z, dirSlots b v' l' = dirSlots b v l ++ (loc, rec) :: Z ∧ (∀ r ∈ dirSlots b v l, isFree r.2 = false) ∧
      ∀ r ∈ Z, r.2 = List.replicate 32 0) := by
  cases h with
  | @reuse c i l₁ l₂ old hl hold hfree hused =>
    left
    subst hl
    have hi : i < (records (v.clus c)).length := by
      rw [List.getElem?_eq_some_iff] at hold
      exact hold.1
    rw [records, length_pieces] at hi
    have hnew := @clusterSlots_splice_one b c (v.clus c) rec i hrec hi
    have hget : (clusterSlots b c (v.clus c))[i]? = some (recordLoc b c i, old) := by
      rw [clusterSlots, getElem?_mapIdx, hold, Option.map_some]
    have hsplit : clusterSlots b c (v.clus c) = (clusterSlots b c (v.clus c)).take i ++
        (recordLoc b c i, old) :: (clusterSlots b c (v.clus c)).drop (i + 1) := by
      obtain ⟨hlt, hval⟩ := List.getElem?_eq_some_iff.mp hget
      rw [← hval, ← drop_eq_getElem_cons hlt, take_append_drop]
    refine ⟨dirSlots b v l₁ ++ (clusterSlots b c (v.clus c)).take i, old,
      (clusterSlots b c (v.clus c)).drop (i + 1) ++ dirSlots b v l₂, ?_, hfree, ?_, hused⟩
    · rw [dirSlots_split]
      conv_lhs => rw [hsplit]
      simp
    · rw [dirSlots_setClus hnodup, hnew]
      simp
  | @grow last n hlast hn hfree hused =>
    right
    obtain ⟨Z, hZ, hzero⟩ := clusterSlots_zero_splice hrec hspc
    refine ⟨Z, ?_, hused, hzero⟩
    have hne : ∀ x ∈ l, x ≠ n := fun x hx heq => hchain x hx (heq ▸ hfree)
    rw [dirSlots_append, dirSlots_cons, dirSlots_congr (v := v) fun x hx => ?_]
    · have hself : (((v.alloc b n).setFat last n).setClus n (splice (zeroCluster b) 0 rec)).clus n =
          splice (zeroCluster b) 0 rec := update_self _ _ _
      rw [hself, hZ]
      simp [dirSlots]
    · change update (v.alloc b n).clus n _ x = v.clus x
      rw [update_of_ne (hne x hx), clus_alloc_of_ne (hne x hx)]

theorem chained {blocks : Nat} (hw : b.WellSized blocks) (h : Added b v l rec loc v' l') (hc : Chained b v.fat c l) :
    Chained b v'.fat c l' := by
  cases h with
  | reuse => exact hc
  | grow hlast hn hfree => exact hc.grow hw hlast hn hfree

theorem same (h : Added b v l rec loc v' l') : SameElsewhere l v v' := by
  cases h with
  | reuse hl => exact same_setClus hl
  | grow hlast _ hfree => exact same_grow hlast hfree rfl fun _ _ => rfl

end Added

section

variable {buf : List UInt8}

theorem free_of_findIdx? (h : (records buf).findIdx? isFree = some i) :
    ∃ old, (records buf)[i]? = some old ∧ isFree old = true ∧
      ∀ r ∈ (clusterSlots b c buf).take i, isFree r.2 = false := by
  obtain ⟨hi, hfree, hbefore⟩ := findIdx?_eq_some_iff_getElem.mp h
  refine ⟨(records buf)[i], getElem?_eq_getElem hi, hfree, fun r hr => ?_⟩
  obtain ⟨j, hj, rfl⟩ := mem_iff_getElem.mp hr
  have hji : j < i := by
    rw [length_take] at hj
    omega
  have hused := hbefore j hji
  simp only [getElem_take, clusterSlots, getElem_mapIdx]
  simpa using hused

theorem used_of_findIdx? (h : (records buf).findIdx? isFree = none) (r : Located) (hr : r ∈ clusterSlots b c buf) :
    isFree r.2 = false :=
  findIdx?_eq_none_iff.mp h r.2 (mem_clusterSlots hr)

end

variable {S : Type} [BlockDevice S] [ErrorFree S] {s₀ : S} (hw : b.WellSized (blocks s₀))
include hw

theorem meets_placeRecord (hl : ∀ x ∈ l, b.IsCluster x) (hrec : rec.length = 32) :
    Meets (Holds b s₀) (placeRecord b rec l) v fun r v' =>
      (∃ l₁ c l₂ i old, l = l₁ ++ c :: l₂ ∧ (records (v.clus c))[i]? = some old ∧ isFree old = true ∧
        (∀ r ∈ dirSlots b v l₁ ++ (clusterSlots b c (v.clus c)).take i, isFree r.2 = false) ∧
        r = .ok (some (recordLoc b c i)) ∧ v' = v.setClus c (splice (v.clus c) (i * 32) rec)) ∨
      (r = .ok none ∧ v' = v ∧ ∀ r ∈ dirSlots b v l, isFree r.2 = false) := by
  refine of_sized fun hsized => ?_
  induction l with
  | nil => exact of_runs (Runs.pure none v) (.inr ⟨rfl, rfl, by simp [dirSlots]⟩)
  | cons c l ih =>
    obtain ⟨hc, hl⟩ := forall_mem_cons.mp hl
    refine bind_runs (runs_readCluster hw hc) ?_
    cases hfind : (records (v.clus c)).findIdx? isFree with
    | some i =>
      obtain ⟨old, hold, hfree, hused⟩ := free_of_findIdx? hfind
      have hlen : (splice (v.clus c) (i * 32) rec).length = b.clusterBytes := by
        have hi := (List.getElem?_eq_some_iff.mp hold).1
        rw [records, length_pieces] at hi
        rw [length_splice (by omega), hsized c hc]
      refine of_runs ((runs_writeCluster hw hc hlen).bind (Runs.pure _ _)) (.inl ?_)
      exact ⟨[], c, l, i, old, rfl, hold, hfree, hused, rfl, rfl⟩
    | none =>
      have hcused := used_of_findIdx? (b := b) (c := c) hfind
      refine (ih hl).mono fun r v' hpost => ?_
      rcases hpost with ⟨l₁, c', l₂, i, old, hsplit, hold, hfree, hused, hr, hv⟩ | ⟨hr, hv, hused⟩
      · refine .inl ⟨c :: l₁, c', l₂, i, old, by rw [hsplit, cons_append], hold, hfree, fun r hr => ?_, hr, hv⟩
        rw [dirSlots_cons, append_assoc] at hr
        rcases mem_append.mp hr with hr | hr
        · exact hcused r hr
        · exact hused r hr
      · refine .inr ⟨hr, hv, fun r hr => ?_⟩
        rcases mem_append.mp hr with hr | hr
        · exact hcused r hr
        · exact hused r hr

theorem meets_addDirRecord {alloc : FatM S Nat} {E : Except VfsError Nat → Prop}
    (halloc : Meets (Holds b s₀) alloc v fun r v' => Allocates b v r v' ∧ E r) (hc : Chained b v.fat c l)
    (hrec : rec.length = 32) : Meets (Holds b s₀) (addDirRecord b alloc c rec) v fun r v' =>
      (∃ loc l', r = .ok loc ∧ Added b v l rec loc v' l') ∨
      (r = .error .noSpace ∧ v' = v ∧ (∀ r ∈ dirSlots b v l, isFree r.2 = false) ∧ E (.error .noSpace)) ∨
      (r = .error .ioError ∧ v' = v ∧ l = []) := by
  refine bind_runs (runs_chain hw hc) ((meets_placeRecord hw (fun x hx => hc.isCluster hx) hrec).bind ?_ ?_)
  · rintro r v' (⟨l₁, c', l₂, i, old, hsplit, hold, hfree, hused, hr, rfl⟩ | ⟨hr, rfl, hused⟩)
    · cases hr
      exact of_runs (Runs.pure _ _) (.inl ⟨_, l, rfl, .reuse hsplit hold hfree hused⟩)
    · cases hr
      by_cases hne : l = []
      · subst hne
        exact of_runs (Runs.throw _ _) (.inr (.inr ⟨rfl, rfl, rfl⟩))
      obtain ⟨last, hlast⟩ : ∃ last, l.getLast? = some last := ⟨_, getLast?_eq_some_getLast hne⟩
      have hlastc := hc.isCluster (mem_of_getLast? hlast)
      simp only [hlast]
      refine meets_alloc_bind halloc (fun n hn hfree => ?_) fun hE => .inr (.inl ⟨rfl, rfl, hused, hE⟩)
      have hlen : (splice (zeroCluster b) 0 rec).length = b.clusterBytes := by
        have hspc := hw.spc_pos
        rw [length_splice (by rw [length_zeroCluster, Bpb.clusterBytes]; omega), length_zeroCluster]
      have hlink := runs_writeFatEntry (v := v'.alloc b n) hw hlastc n
      rw [mod_of_isCluster hw hn] at hlink
      refine of_runs (hlink.bind ((runs_writeCluster hw hn hlen).bind (Runs.pure _ _))) (.inl ?_)
      exact ⟨_, _, rfl, .grow hlast hn hfree hused⟩
  · rintro e v' (⟨l₁, c', l₂, i, old, -, -, -, -, habs, -⟩ | ⟨habs, -⟩) <;> cases habs

end Ruos.Fat
