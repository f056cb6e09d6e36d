import Ruos.Fat.WriterAccess

/-! Putting a run of records into a directory, in a row and inside one cluster (`add_dir_run`). A single record is a
run of one. -/
namespace Ruos.Fat

open Lib Vfs Block ErrorFree FatWriter Function List Meets Runs Vol Nat

variable {b : Bpb} {v v' : Vol} {P c n : Nat} {l l' : List Nat} {run : List (List UInt8)}

section

variable {rs : List (List UInt8)} {need i start count : Nat}

/-- `need` free records in a row from `start` on, with none right in front of them. -/
structure IsWindow (rs : List (List UInt8)) (need start : Nat) : Prop where
  inside : start + need ≤ rs.length
  free : ∀ j < need, ∃ r, rs[start + j]? = some r ∧ isFree r = true
  front : start = 0 ∨ ∃ r, rs[start - 1]? = some r ∧ isFree r = false

theorem IsWindow.inside_buf {buf : List UInt8} {n start : Nat} (h : IsWindow (records buf) n start) :
    start + n ≤ buf.length / 32 := length_pieces 32 buf ▸ h.inside

/-- The records in front of the search: `count` free ones, and none right before them. -/
structure Pending (front : List (List UInt8)) (count : Nat) : Prop where
  le : count ≤ front.length
  free : ∀ j, front.length - count ≤ j → j < front.length → ∃ r, front[j]? = some r ∧ isFree r = true
  front : front.length = count ∨ ∃ r, front[front.length - count - 1]? = some r ∧ isFree r = false

variable {front : List (List UInt8)} {r : List UInt8}

theorem Pending.free_cons (h : Pending front count) (hr : isFree r = true) : Pending (front ++ [r]) (count + 1) := by
  have hle := h.le
  have hlen : (front ++ [r]).length = front.length + 1 := by simp
  constructor
  · omega
  · intro j hlo hhi
    rcases lt_or_ge j front.length with hj | hj
    · rw [getElem?_append_left hj]
      exact h.free j (by omega) hj
    · have hje : j = front.length := by omega
      rw [hje, getElem?_concat_length]
      exact ⟨r, rfl, hr⟩
  · rcases h.front with hall | ⟨x, hx, hused⟩
    · left
      omega
    · right
      have hidx : (front ++ [r]).length - (count + 1) - 1 = front.length - count - 1 := by omega
      have hlt := (List.getElem?_eq_some_iff.mp hx).1
      rw [hidx, getElem?_append_left hlt]
      exact ⟨x, hx, hused⟩

theorem Pending.used_cons (hr : isFree r = false) : Pending (front ++ [r]) 0 := by
  constructor
  · exact zero_le _
  · omega
  · right
    have hidx : (front ++ [r]).length - 0 - 1 = front.length := by simp
    rw [hidx, getElem?_concat_length]
    exact ⟨r, rfl, hr⟩

theorem isWindow_of_findWindow (hneed : 0 < need) (hp : Pending front count) (hcount : count < need)
    (hstart : count ≠ 0 → start = front.length - count) (h : findWindow need front.length start count rs = some i) :
    IsWindow (front ++ rs) need i := by
  induction rs generalizing front start count with
  | nil => cases h
  | cons r rs ih =>
    have hlen : (front ++ [r]).length = front.length + 1 := by simp
    have happ : front ++ r :: rs = (front ++ [r]) ++ rs := by simp
    rw [findWindow] at h
    rw [happ]
    by_cases hr : isFree r = true
    · have hp' := hp.free_cons hr
      have hfrom : (if count = 0 then front.length else start) = (front ++ [r]).length - (count + 1) := by
        by_cases hz : count = 0
        · rw [if_pos hz]
          omega
        · rw [if_neg hz]
          omega
      simp only [hr, if_true, hfrom] at h
      by_cases hlast : count + 1 = need
      · rw [if_pos hlast] at h
        cases h
        have hle := hp'.le
        rw [hlast] at hle hp' ⊢
        constructor
        · have hsum : (front ++ [r] ++ rs).length = (front ++ [r]).length + rs.length := length_append
          omega
        · intro j hj
          obtain ⟨x, hx, hfree⟩ := hp'.free ((front ++ [r]).length - need + j) (by omega) (by omega)
          exact ⟨x, by rw [getElem?_append_left (by omega), hx], hfree⟩
        · rcases hp'.front with hall | ⟨x, hx, hused⟩
          · left
            omega
          · right
            have hlt := (List.getElem?_eq_some_iff.mp hx).1
            exact ⟨x, by rw [getElem?_append_left hlt, hx], hused⟩
      · rw [if_neg hlast, ← hlen] at h
        exact ih hp' (by omega) (fun _ => rfl) h
    · rw [if_neg hr, ← hlen] at h
      exact ih (Pending.used_cons (Bool.eq_false_iff.mpr hr)) hneed (fun habs => absurd rfl habs) h

theorem isWindow_of_search (hneed : 0 < need) (h : findWindow need 0 0 0 rs = some i) : IsWindow rs need i := by
  have hp : Pending [] 0 := ⟨zero_le _, fun j _ hj => absurd hj (not_lt_zero j), .inl rfl⟩
  exact isWindow_of_findWindow hneed hp hneed (fun habs => absurd rfl habs) h

theorem isWindow_one (hr : rs[i]? = some r) (hfree : isFree r = true) (hused : ∀ x ∈ rs.take i, isFree x = false) :
    IsWindow rs 1 i := by
  have hi := (List.getElem?_eq_some_iff.mp hr).1
  constructor
  · omega
  · intro j hj
    have hzero : j = 0 := by omega
    rw [hzero]
    exact ⟨r, hr, hfree⟩
  · rcases Nat.eq_zero_or_pos i with hzero | hpos
    · exact .inl hzero
    · right
      have hlt : i - 1 < (rs.take i).length := by
        rw [length_take]
        omega
      have hmem := getElem_mem hlt
      rw [getElem_take] at hmem
      exact ⟨_, getElem?_eq_getElem (by omega), hused _ hmem⟩

end

def retired (buf : List UInt8) : List UInt8 := ((records buf).map retire).flatten

variable {rec : List UInt8}

theorem length_retire (h : rec.length = 32) : (retire rec).length = 32 := by
  unfold retire
  split_ifs
  · rw [length_splice (by simp [h]), h]
  · exact h

theorem retire_eq_self (h : firstByte rec ≠ 0x00) : retire rec = rec := if_neg h

theorem firstByte_retire (rec : List UInt8) :
    firstByte (retire rec) = if firstByte rec = 0x00 then 0xE5 else firstByte rec := by
  unfold retire
  split_ifs <;> rfl

theorem isFree_retire (h : isFree (retire rec) = false) : retire rec = rec := by
  unfold retire at h ⊢
  split_ifs at h ⊢ with hzero
  · cases h
  · rfl

variable {buf : List UInt8}

theorem length_of_mem_retire {x : List UInt8} (hx : x ∈ (records buf).map retire) : x.length = 32 := by
  obtain ⟨r, hr, rfl⟩ := mem_map.mp hx
  exact length_retire (length_of_mem_pieces hr)

section

variable (h : buf.length = b.clusterBytes)
include h

theorem length_retired : (retired buf).length = b.clusterBytes := by
  have hcb : b.clusterBytes = 512 * b.secPerCluster := rfl
  rw [retired, length_flatten_of_length fun _ => length_of_mem_retire, length_map, records, length_pieces]
  omega

theorem records_retired : records (retired buf) = (records buf).map retire := by
  have hlen : ((records buf).map retire).length = b.clusterBytes / 32 := by
    rw [length_map, records, length_pieces, h]
  apply ext_getElem?
  intro i
  rw [records, getElem?_pieces, length_retired h]
  by_cases hi : i < b.clusterBytes / 32
  · rw [if_pos hi]
    exact slice_flatten (fun _ => length_of_mem_retire) (by omega)
  · rw [if_neg hi, getElem?_eq_none (by omega)]

theorem clusterSlots_retired :
    clusterSlots b c (retired buf) = (clusterSlots b c buf).map fun r => (r.1, retire r.2) := by
  apply ext_getElem?
  intro i
  rw [clusterSlots, records_retired h, getElem?_mapIdx, getElem?_map, getElem?_map, clusterSlots,
    getElem?_mapIdx, Option.map_map, Option.map_map]
  rfl

theorem retired_eq_self (hused : ∀ r ∈ records buf, firstByte r ≠ 0x00) : retired buf = buf := by
  have hmap : (records buf).map retire = records buf :=
    (map_congr_left fun r hr => retire_eq_self (hused r hr)).trans (map_id _)
  have hcb : b.clusterBytes = b.clusterBytes / 32 * 32 := by
    unfold Bpb.clusterBytes
    omega
  rw [retired, hmap]
  exact flatten_pieces (by decide) (h.trans hcb)

end

/-- What adding a run of records to the directory with the clusters `l` does: the volume and the clusters of the
directory afterwards. -/
inductive Filled (b : Bpb) (v : Vol) (l : List Nat) (run : List (List UInt8)) : Vol → List Nat → Prop
  | reuse {c start : Nat} {l₁ l₂ : List Nat} (hl : l = l₁ ++ c :: l₂)
      (hwin : IsWindow (records (v.clus c)) run.length start) :
      Filled b v l run (v.setClus c (splice (v.clus c) (start * 32) run.flatten)) l
  | grow {last n : Nat} (hlast : l.getLast? = some last) (hn : b.IsCluster n) (hfree : v.fat n = 0)
      (hfit : run.length ≤ b.entriesPerCluster) :
      Filled b v l run ((((v.setClus last (retired (v.clus last))).alloc b n).setFat last n).setClus n
        (splice (zeroCluster b) 0 run.flatten)) (l ++ [n])

theorem Added.filled {loc : Nat × Nat} (h : Added b v l rec loc v' l') (hsized : Sized b v)
    (hl : ∀ x ∈ l, b.IsCluster x) (hspc : 0 < b.secPerCluster) : Filled b v l [rec] v' l' := by
  cases h with
  | @reuse c i l₁ l₂ old hl hold hfree hused =>
    have hwin : IsWindow (records (v.clus c)) [rec].length i := by
      refine isWindow_one hold hfree fun x hx => ?_
      obtain ⟨j, hj, rfl⟩ := mem_iff_getElem.mp hx
      have hji : j < i ∧ j < (records (v.clus c)).length := by
        rw [length_take] at hj
        omega
      have hslot : (recordLoc b c j, (records (v.clus c))[j]) ∈ (clusterSlots b c (v.clus c)).take i := by
        refine mem_take_iff_getElem.mpr ⟨j, ?_, ?_⟩
        · rw [length_clusterSlots, ← length_pieces, ← records]
          omega
        · exact getElem_mapIdx ..
      have hfalse := hused _ (mem_append_right _ hslot)
      rwa [getElem_take]
    have hflat : rec = [rec].flatten := (flatten_singleton).symm
    conv => arg 5; rw [hflat]
    exact .reuse hl hwin
  | @grow last n hlast hn hfree hused =>
    have hlen := hsized last (hl last (mem_of_getLast? hlast))
    have hnone : ∀ r ∈ records (v.clus last), firstByte r ≠ 0x00 := by
      intro r hr hzero
      obtain ⟨i, hi, rfl⟩ := mem_iff_getElem.mp hr
      have hslot : (recordLoc b last i, (records (v.clus last))[i]) ∈ dirSlots b v l :=
        mem_flatMap.mpr ⟨last, mem_of_getLast? hlast, mem_mapIdx.mpr ⟨i, hi, rfl⟩⟩
      have hfalse := hused _ hslot
      simp only [isFree, hzero, decide_true, Bool.true_or] at hfalse
      cases hfalse
    have hsame : v.setClus last (retired (v.clus last)) = v := by
      rw [retired_eq_self hlen hnone, setClus, update_eq_self]
    have hfit : [rec].length ≤ b.entriesPerCluster := by
      simp only [length_singleton, Bpb.entriesPerCluster, Bpb.clusterBytes]
      omega
    have hgrow : Filled b v l [rec] _ _ := .grow hlast hn hfree hfit
    rw [hsame, flatten_singleton] at hgrow
    exact hgrow

theorem records_splice_zero (hrun : ∀ r ∈ run, r.length = 32) (hfit : run.length ≤ b.entriesPerCluster) :
    ∃ k, records (splice (zeroCluster b) 0 run.flatten) = run ++ replicate k (replicate 32 0) := by
  have hin : 0 + run.length ≤ (zeroCluster b).length / 32 := by
    rw [length_zeroCluster, zero_add]
    exact hfit
  have hpieces := pieces_splice (by decide) hrun hin
  rw [zeroCluster, pieces_replicate,
    drop_replicate] at hpieces
  exact ⟨_, hpieces⟩

namespace Filled

variable (h : Filled b v l run v' l')
include h

theorem chained {blocks : Nat} (hw : b.WellSized blocks) (hc : Chained b v.fat P l) : Chained b v'.fat P l' := by
  cases h with
  | reuse => exact hc
  | @grow last n hlast hn hfree =>
    exact Chained.grow hw hc hlast hn hfree

theorem same : SameElsewhere l v v' := by
  cases h with
  | reuse hl => exact same_setClus hl
  | grow hlast _ hfree => exact same_grow hlast hfree rfl fun _ hx => clus_setClus_of_ne hx v _

variable (hc : Chained b v.fat P l) (hsized : Sized b v) (hrun : ∀ r ∈ run, r.length = 32)
include hc hsized hrun

/-- The records of a cluster of the directory afterwards: those of a window were replaced, or retired, or nothing
happened; or the cluster is new. -/
theorem records_eq {x : Nat} (hx : x ∈ l') : (x ∈ l ∧ v'.clus x = v.clus x) ∨
      (x ∈ l ∧ ∃ start, IsWindow (records (v.clus x)) run.length start ∧ l' = l ∧
        clusterSlots b x (v'.clus x) = (clusterSlots b x (v.clus x)).take start ++
          run.mapIdx (fun j r => (recordLoc b x (start + j), r)) ++
          (clusterSlots b x (v.clus x)).drop (start + run.length)) ∨ (l.getLast? = some x ∧ (∃ n, l' = l ++ [n]) ∧
        clusterSlots b x (v'.clus x) = (clusterSlots b x (v.clus x)).map fun r => (r.1, retire r.2)) ∨
      (l' = l ++ [x] ∧ ∃ k, clusterSlots b x (v'.clus x) =
        (run ++ replicate k (replicate 32 0)).mapIdx fun j r => (recordLoc b x j, r)) := by
  cases h with
  | @reuse c start l₁ l₂ hl hwin =>
    by_cases hxc : x = c
    · subst hxc
      refine .inr (.inl ⟨hx, start, hwin, rfl, ?_⟩)
      rw [clus_setClus_self, clusterSlots_splice hrun hwin.inside_buf]
    · exact .inl ⟨hx, clus_setClus_of_ne hxc v _⟩
  | @grow last n hlast hn hfree hfit =>
    rcases mem_append.mp hx with hx | hx
    · have hne : x ≠ n := ne_of_mem_of_not_mem hx (hc.notMem_of_free hfree)
      have hclus : ((((v.setClus last (retired (v.clus last))).alloc b n).setFat last n).setClus n
          (splice (zeroCluster b) 0 run.flatten)).clus x = (v.setClus last (retired (v.clus last))).clus x := by
        rw [clus_setClus_of_ne hne]
        exact clus_alloc_of_ne hne
      rw [hclus]
      by_cases hxl : x = last
      · subst hxl
        refine .inr (.inr (.inl ⟨hlast, ⟨n, rfl⟩, ?_⟩))
        rw [clus_setClus_self, clusterSlots_retired (hsized x (hc.isCluster hx))]
      · exact .inl ⟨hx, clus_setClus_of_ne hxl v _⟩
    · obtain rfl := mem_singleton.mp hx
      obtain ⟨k, hk⟩ := records_splice_zero hrun hfit
      refine .inr (.inr (.inr ⟨rfl, k, ?_⟩))
      rw [clus_setClus_self, clusterSlots, hk]

end Filled

section

variable {S : Type} [BlockDevice S] [ErrorFree S]

theorem meets_placeRun {s₀ : S} (hw : b.WellSized (blocks s₀)) (hl : ∀ x ∈ l, b.IsCluster x)
    (hrun : ∀ r ∈ run, r.length = 32) (hne : run ≠ []) : Meets (Holds b s₀) (placeRun b run l) v fun r v' =>
      (∃ l₁ c l₂ start, l = l₁ ++ c :: l₂ ∧ IsWindow (records (v.clus c)) run.length start ∧ r = .ok true ∧
        v' = v.setClus c (splice (v.clus c) (start * 32) run.flatten)) ∨ (r = .ok false ∧ v' = v) := by
  refine of_sized fun hsized => ?_
  induction l with
  | nil => exact of_runs (pure false v) (.inr ⟨rfl, rfl⟩)
  | cons c l ih =>
    obtain ⟨hc, hl⟩ := forall_mem_cons.mp hl
    refine bind_runs (runs_readCluster hw hc) ?_
    cases hfind : findWindow run.length 0 0 0 (records (v.clus c)) with
    | some start =>
      have hwin := isWindow_of_search (length_pos_iff.mpr hne) hfind
      have hlen : (splice (v.clus c) (start * 32) run.flatten).length = b.clusterBytes := by
        have hin := hwin.inside_buf
        rw [length_splice (by rw [length_flatten_of_length hrun]; omega), hsized c hc]
      refine of_runs ((runs_writeCluster hw hc hlen).bind (pure _ _)) (.inl ?_)
      exact ⟨[], c, l, start, rfl, hwin, rfl, rfl⟩
    | none =>
      refine (ih hl).mono fun r v' hpost => ?_
      rcases hpost with ⟨l₁, c', l₂, start, hsplit, hwin, hr, hv⟩ | hnone
      · exact .inl ⟨c :: l₁, c', l₂, start, by rw [hsplit, cons_append], hwin, hr, hv⟩
      · exact .inr hnone

theorem runs_retireSlots {s₀ : S} (hw : b.WellSized (blocks s₀)) (hc : b.IsCluster c) :
    Runs (Holds b s₀) (retireSlots b c) v (.ok ()) (v.setClus c (retired (v.clus c))) := by
  refine of_sized fun hsized => (runs_readCluster hw hc).bind ?_
  by_cases hany : (records (v.clus c)).any (firstByte · = 0x00) = true
  · rw [if_pos hany]
    exact runs_writeCluster hw hc (length_retired (hsized c hc))
  · have hnone : ∀ r ∈ records (v.clus c), firstByte r ≠ 0x00 := by
      intro r hr hzero
      exact hany (any_eq_true.mpr ⟨r, hr, decide_eq_true hzero⟩)
    have hsame : v.setClus c (retired (v.clus c)) = v := by
      rw [retired_eq_self (hsized c hc) hnone, setClus, update_eq_self]
    rw [if_neg hany, hsame]
    exact pure () v

/-- What adding a run of records can do. Without room the end marks of the last cluster may be gone. -/
inductive AddsRun (b : Bpb) (v : Vol) (l : List Nat) (run : List (List UInt8)) : Except VfsError Unit → Vol → Prop
  | empty (hrun : run = []) : AddsRun b v l run (.ok ()) v
  | filled {v' : Vol} {l' : List Nat} (h : Filled b v l run v' l') : AddsRun b v l run (.ok ()) v'
  | tooLong (hlong : b.entriesPerCluster < run.length) : AddsRun b v l run (.error .noSpace) v
  | full {last : Nat} (hlast : l.getLast? = some last) :
      AddsRun b v l run (.error .noSpace) (v.setClus last (retired (v.clus last)))
  | noDir (hl : l = []) : AddsRun b v l run (.error .ioError) v

theorem meets_addDirRun {w₀ : FatWriter S} (hw : b.WellSized (blocks w₀)) (hc : Chained b v.fat P l)
    (hrun : ∀ r ∈ run, r.length = 32) : Meets (Holds b w₀) (addDirRun b P run) v (AddsRun b v l run) := by
  unfold addDirRun
  by_cases hnil : run = []
  · rw [if_pos hnil]
    exact of_runs (pure () v) (.empty hnil)
  rw [if_neg hnil]
  refine bind_runs (runs_chain hw hc) ?_
  by_cases hlong : b.entriesPerCluster < run.length
  · exact of_runs (failIf_true hlong _ v).bind_error (.tooLong hlong)
  refine bind_runs (failIf_false hlong _ v)
    ((meets_placeRun hw (fun x hx => hc.isCluster hx) hrun hnil).bind ?_ ?_)
  · rintro r v₁ (⟨l₁, c, l₂, start, hsplit, hwin, hr, rfl⟩ | ⟨hr, rfl⟩)
    · cases hr
      exact of_runs (pure () _) (.filled (.reuse hsplit hwin))
    · cases hr
      cases hlast : l.getLast? with
      | none => exact of_runs (throw _ _) (.noDir (getLast?_eq_none_iff.mp hlast))
      | some last =>
        have hlastc := hc.isCluster (mem_of_getLast? hlast)
        refine bind_runs (runs_retireSlots hw hlastc)
          (meets_alloc_bind (meets_writerAlloc hw _) (fun n hn hfree => ?_) fun _ => .full hlast)
        have hfit := Nat.le_of_not_lt hlong
        have hlen : (splice (zeroCluster b) 0 run.flatten).length = b.clusterBytes := by
          have hin : run.flatten.length ≤ b.clusterBytes := by
            rw [length_flatten_of_length hrun]
            unfold Bpb.entriesPerCluster at hfit
            omega
          rw [length_splice (by rw [length_zeroCluster, Nat.zero_add]; exact hin), length_zeroCluster]
        have hlink := runs_writeFatEntry (v := (v₁.setClus last (retired (v₁.clus last))).alloc b n) hw hlastc n
        rw [mod_of_isCluster hw hn] at hlink
        exact of_runs (hlink.bind (runs_writeCluster hw hn hlen)) (.filled (.grow hlast hn hfree hfit))
  · rintro e v₁ (⟨l₁, c, l₂, start, -, -, habs, -⟩ | ⟨habs, -⟩) <;> cases habs

end

end Ruos.Fat
