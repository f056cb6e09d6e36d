import Ruos.Fat.InsertRun
import Ruos.Fat.Lookup

/-! The end mark of a directory: behind a record that was never used there are only such records, and all of them are
in the last cluster. -/
namespace Ruos.Fat

open Lib Vfs Block ErrorFree FatWriter List Option Vol

variable {b : Bpb} {v v' : Vol} {P c n : Nat} {l l' : List Nat} {run : List (List UInt8)}

def Ended (rs : List (List UInt8)) : Prop := rs.Pairwise fun r r' => firstByte r = 0x00 → firstByte r' = 0x00

section

variable {rs rs' : List (List UInt8)} {i : Nat}

theorem ended_of_used (h : ∀ r ∈ rs, firstByte r ≠ 0x00) (h' : Ended rs') : Ended (rs ++ rs') := by
  refine pairwise_append.mpr ⟨?_, h', fun r hr r' _ hzero => absurd hzero (h r hr)⟩
  exact pairwise_iff_getElem.mpr fun i j hi _ _ hzero => absurd hzero (h _ (getElem_mem hi))

theorem ended_of_zero (h : ∀ r ∈ rs, firstByte r = 0x00) : Ended rs :=
  pairwise_iff_getElem.mpr fun _ _ _ hj _ _ => h _ (getElem_mem hj)

theorem Ended.used_of_window {need start : Nat} (h : Ended rs) (hwin : IsWindow rs need start) :
    ∀ r ∈ rs.take start, firstByte r ≠ 0x00 := by
  intro r hr hzero
  obtain ⟨j, hj, rfl⟩ := mem_iff_getElem.mp hr
  rw [getElem_take] at hzero
  rw [length_take] at hj
  rcases hwin.front with hstart | ⟨x, hx, hused⟩
  · omega
  · obtain ⟨hlt, rfl⟩ := List.getElem?_eq_some_iff.mp hx
    have hlast : firstByte rs[start - 1] = 0x00 := by
      rcases Nat.lt_or_ge j (start - 1) with hlt' | hge
      · exact pairwise_iff_getElem.mp h j (start - 1) _ hlt hlt' hzero
      · have hje : j = start - 1 := by omega
        simp only [← hje]
        exact hzero
    simp only [isFree, hlast, decide_true, Bool.true_or] at hused
    cases hused

theorem Ended.put {need start : Nat} (h : Ended rs) (hwin : IsWindow rs need start)
    (hrun : ∀ r ∈ run, firstByte r ≠ 0x00) : Ended (rs.take start ++ run ++ rs.drop (start + need)) := by
  refine ended_of_used (fun r hr => ?_) (h.sublist (drop_sublist _ _))
  rcases mem_append.mp hr with hr | hr
  · exact h.used_of_window hwin r hr
  · exact hrun r hr

end

/-- All end marks of a directory are in its last cluster, at the end of it. -/
structure Closed (b : Bpb) (v : Vol) (l : List Nat) : Prop where
  front : ∀ c ∈ l.dropLast, ∀ r ∈ records (v.clus c), firstByte r ≠ 0x00
  back : ∀ c, l.getLast? = some c → Ended (records (v.clus c))

theorem map_dirSlots (b : Bpb) (v : Vol) (l : List Nat) :
    (dirSlots b v l).map (·.2) = l.flatMap fun c => records (v.clus c) := by
  rw [dirSlots, map_flatMap]
  exact flatMap_congr fun c _ => map_clusterSlots b c _

namespace Closed

theorem ended (h : Closed b v l) : Ended ((dirSlots b v l).map (·.2)) := by
  rw [map_dirSlots]
  rcases eq_nil_or_concat l with rfl | ⟨init, last, rfl⟩
  · exact List.Pairwise.nil
  · have hfront := h.front
    have hback := h.back last (by simp)
    rw [concat_eq_append, dropLast_concat] at hfront
    rw [concat_eq_append, flatMap_append, flatMap_singleton]
    refine ended_of_used (fun r hr => ?_) hback
    obtain ⟨c, hc, hr⟩ := mem_flatMap.mp hr
    exact hfront c hc r hr

theorem congr (h : Closed b v l) (hsame : ∀ x ∈ l, v'.clus x = v.clus x) : Closed b v' l := by
  refine ⟨fun c hc => ?_, fun c hc => ?_⟩
  · rw [hsame c (dropLast_subset l hc)]
    exact h.front c hc
  · rw [hsame c (mem_of_getLast? hc)]
    exact h.back c hc

theorem retire (h : Closed b v l) (hl : ∀ x ∈ l, b.IsCluster x) (hsized : Sized b v) (hlast : l.getLast? = some c) :
    Closed b (v.setClus c (retired (v.clus c))) l ∧
      ∀ x ∈ l, ∀ r ∈ records ((v.setClus c (retired (v.clus c))).clus x), firstByte r ≠ 0x00 := by
  have hall : ∀ x ∈ l, ∀ r ∈ records ((v.setClus c (retired (v.clus c))).clus x), firstByte r ≠ 0x00 := by
    intro x hx r hr
    by_cases hxc : x = c
    · subst hxc
      rw [clus_setClus_self, records_retired (hsized x (hl x hx))] at hr
      obtain ⟨r', -, rfl⟩ := mem_map.mp hr
      rw [firstByte_retire]
      split_ifs with hzero
      · decide
      · exact hzero
    · obtain ⟨init, rfl⟩ := getLast?_eq_some_iff.mp hlast
      have hinit : x ∈ (init ++ [c]).dropLast := by
        rw [dropLast_concat]
        rcases mem_append.mp hx with hx | hx
        · exact hx
        · exact absurd (mem_singleton.mp hx) hxc
      rw [clus_setClus_of_ne hxc] at hr
      exact h.front x hinit r hr
  refine ⟨⟨fun x hx => hall x (dropLast_subset l hx), fun x hx => ?_⟩, hall⟩
  rw [← append_nil (records _)]
  exact ended_of_used (hall x (mem_of_getLast? hx)) List.Pairwise.nil

end Closed

namespace Filled

variable (h : Filled b v l run v' l') (hc : Chained b v.fat P l) (hsized : Sized b v)
  (hrun : ∀ r ∈ run, r.length = 32)
include h hc hsized hrun

theorem closed (hclosed : Closed b v l) (hused : ∀ r ∈ run, firstByte r ≠ 0x00) : Closed b v' l' := by
  cases h with
  | @reuse c start l₁ l₂ hl hwin =>
    have hrecords : records (splice (v.clus c) (start * 32) run.flatten) =
        (records (v.clus c)).take start ++ run ++ (records (v.clus c)).drop (start + run.length) :=
      pieces_splice (by decide) hrun hwin.inside_buf
    constructor
    · intro x hx r hr
      by_cases hxc : x = c
      · subst hxc
        have hold := hclosed.front x hx
        rw [clus_setClus_self, hrecords] at hr
        rcases mem_append.mp hr with hr | hr
        · rcases mem_append.mp hr with hr | hr
          · exact hold r (mem_of_mem_take hr)
          · exact hused r hr
        · exact hold r (mem_of_mem_drop hr)
      · rw [clus_setClus_of_ne hxc] at hr
        exact hclosed.front x hx r hr
    · intro x hx
      by_cases hxc : x = c
      · subst hxc
        rw [clus_setClus_self, hrecords]
        exact (hclosed.back x hx).put hwin hused
      · rw [clus_setClus_of_ne hxc]
        exact hclosed.back x hx
  | @grow last n hlast hn hfree hfit =>
    obtain ⟨-, hold⟩ := hclosed.retire (fun x hx => hc.isCluster hx) hsized hlast
    constructor
    · intro x hx r hr
      rw [dropLast_concat] at hx
      have hne : x ≠ n := ne_of_mem_of_not_mem hx (hc.notMem_of_free hfree)
      rw [clus_setClus_of_ne hne] at hr
      have hclus : ((v.setClus last (retired (v.clus last))).alloc b n).clus x =
          (v.setClus last (retired (v.clus last))).clus x := clus_alloc_of_ne hne
      rw [setFat, hclus] at hr
      exact hold x hx r hr
    · intro x hx
      obtain ⟨k, hk⟩ := records_splice_zero hrun hfit
      rw [getLast?_concat] at hx
      cases hx
      rw [clus_setClus_self, hk]
      refine ended_of_used hused (ended_of_zero fun r hr => ?_)
      rw [eq_of_mem_replicate hr]
      rfl

theorem kept {r : Located} (hr : r ∈ dirSlots b v l) (hused : isFree r.2 = false) : r ∈ dirSlots b v' l' := by
  obtain ⟨x, hx, hr⟩ := mem_flatMap.mp hr
  have hx' : x ∈ l' := by
    cases h with
    | reuse => exact hx
    | grow => exact mem_append_left _ hx
  refine mem_flatMap.mpr ⟨x, hx', ?_⟩
  rcases h.records_eq hc hsized hrun hx' with ⟨-, hsame⟩ | ⟨-, start, hwin, -, hslots⟩ | ⟨-, -, hslots⟩ | ⟨hl, -⟩
  · rwa [hsame]
  · rw [hslots]
    obtain ⟨i, hi, rfl⟩ := mem_iff_getElem.mp hr
    rcases Nat.lt_or_ge i start with hlt | hge
    · exact mem_append_left _ (mem_append_left _ (mem_take_iff_getElem.mpr ⟨i, by omega, rfl⟩))
    · rcases Nat.lt_or_ge i (start + run.length) with hlt | hge'
      · -- a record of the window was free
        obtain ⟨y, hy, hfree⟩ := hwin.free (i - start) (by omega)
        have hidx : start + (i - start) = i := by omega
        obtain ⟨hlt', rfl⟩ := List.getElem?_eq_some_iff.mp hy
        simp only [hidx] at hfree
        simp only [clusterSlots, getElem_mapIdx] at hused
        rw [hused] at hfree
        cases hfree
      · exact mem_append_right _ (mem_drop_iff_getElem.mpr
          ⟨i - (start + run.length), by omega, by simp only [Nat.add_sub_cancel' hge']⟩)
  · rw [hslots]
    have hsame : retire r.2 = r.2 := retire_eq_self fun hzero => by
      simp only [isFree, hzero, decide_true, Bool.true_or] at hused
      cases hused
    exact List.mem_map.mpr ⟨r, hr, by rw [hsame]⟩
  · cases h with
    | reuse => exact absurd hl (by simp)
    | @grow last n hlast hn hfree hfit =>
      obtain rfl : n = x := singleton_inj.mp (append_cancel_left hl)
      exact absurd hfree (hc.mem n hx).2

omit hc hsized in
theorem mem_new {rec : List UInt8} (hrec : rec ∈ run) : ∃ loc, (loc, rec) ∈ dirSlots b v' l' := by
  obtain ⟨j, hj, rfl⟩ := mem_iff_getElem.mp hrec
  cases h with
  | @reuse c start l₁ l₂ hl hwin =>
    have hmem : c ∈ l := hl ▸ mem_append_right _ mem_cons_self
    refine ⟨recordLoc b c (start + j), mem_flatMap.mpr ⟨c, hmem, ?_⟩⟩
    rw [clus_setClus_self, clusterSlots_splice hrun hwin.inside_buf]
    exact mem_append_left _ (mem_append_right _ (mem_mapIdx.mpr ⟨j, hj, rfl⟩))
  | @grow last n hlast hn hfree hfit =>
    obtain ⟨k, hk⟩ := records_splice_zero hrun hfit
    refine ⟨recordLoc b n j, mem_flatMap.mpr ⟨n, by simp, ?_⟩⟩
    rw [clus_setClus_self, clusterSlots, hk]
    exact mem_mapIdx.mpr ⟨j, by rw [length_append]; omega, by rw [getElem_append_left hj]⟩

theorem origin {r : Located} (hr : r ∈ dirSlots b v' l') (hused : isFree r.2 = false) :
    r ∈ dirSlots b v l ∨ r.2 ∈ run := by
  obtain ⟨x, hx, hr⟩ := mem_flatMap.mp hr
  rcases h.records_eq hc hsized hrun hx with ⟨hmem, hsame⟩ | ⟨hmem, start, -, -, hslots⟩ | ⟨hlast, -, hslots⟩ |
    ⟨-, k, hslots⟩
  · rw [hsame] at hr
    exact .inl (mem_flatMap.mpr ⟨x, hmem, hr⟩)
  · rw [hslots] at hr
    rcases mem_append.mp hr with hr | hr
    · rcases mem_append.mp hr with hr | hr
      · exact .inl (mem_flatMap.mpr ⟨x, hmem, mem_of_mem_take hr⟩)
      · obtain ⟨j, hj, rfl⟩ := mem_mapIdx.mp hr
        exact .inr (getElem_mem hj)
    · exact .inl (mem_flatMap.mpr ⟨x, hmem, mem_of_mem_drop hr⟩)
  · rw [hslots] at hr
    obtain ⟨r', hr', rfl⟩ := mem_map.mp hr
    have hsame := isFree_retire hused
    refine .inl (mem_flatMap.mpr ⟨x, mem_of_getLast? hlast, ?_⟩)
    rw [hsame]
    exact hr'
  · rw [hslots] at hr
    obtain ⟨j, hj, rfl⟩ := mem_mapIdx.mp hr
    rcases mem_append.mp (getElem_mem hj) with hin | hzero
    · exact .inr hin
    · rw [eq_of_mem_replicate hzero] at hused
      cases hused

end Filled

section

variable {A B : List Located} {r : Located}

theorem used_before (h : Ended ((A ++ r :: B).map (·.2))) (hr : firstByte r.2 ≠ 0x00) :
    ∀ x ∈ A, firstByte x.2 ≠ 0x00 := by
  intro x hx hzero
  rw [map_append, Ended, pairwise_append] at h
  exact hr (h.2.2 x.2 (mem_map_of_mem hx) r.2 (by simp) hzero)

theorem searched_reaches {α : Type} {look : List UInt8 → Option (Except VfsError α)} {absent : α}
    {y : Except VfsError α} (good : Except VfsError α → Prop) (hA : ∀ x ∈ A, ∀ y, look x.2 = some y → good y)
    (hr : look r.2 = some y) (hy : good y) : good (searched look absent (A ++ r :: B)) := by
  induction A with
  | nil =>
    rw [searched, nil_append, map_cons, findSome?_cons, hr]
    exact hy
  | cons x A ih =>
    obtain ⟨hx, hA⟩ := forall_mem_cons.mp hA
    rw [searched, cons_append, map_cons, findSome?_cons]
    cases hlook : look x.2 with
    | none => exact ih hA
    | some z => exact hx z hlook

theorem scan_open [Unicode] (hA : ∀ x ∈ A, firstByte x.2 ≠ 0x00) (p : Option LfnRun) : ∃ p', (scan p A).2 = some p' := by
  induction A generalizing p with
  | nil => exact ⟨p, rfl⟩
  | cons x A ih =>
    obtain ⟨hx, hA⟩ := forall_mem_cons.mp hA
    rw [scan]
    cases hslot : readSlot p x.2 with
    | finish =>
      unfold readSlot at hslot
      rw [if_neg hx] at hslot
      split_ifs at hslot
    | skip p' => exact ih hA p'
    | entry name => exact ih hA none

section

variable {rec : List UInt8} (hA : ∀ x ∈ A, firstByte x.2 ≠ 0x00) (hr : r.2 = rec)
  (hused : isFree rec = false) (hattr : recAttr rec ≠ 0x0F)
include hA hr hused hattr

theorem searched_short : searched (shortAt (slice rec 0 11)) false (A ++ r :: B) = .ok true := by
  simp only [isFree, Bool.or_eq_false_iff, decide_eq_false_iff_not] at hused
  have hlook : shortAt (slice rec 0 11) r.2 = some (.ok true) := by
    rw [hr, shortAt, if_neg hused.1, if_neg hused.2, if_neg hattr, if_pos rfl]
  refine searched_reaches (· = .ok true) (fun x hx y hy => ?_) hlook rfl
  unfold shortAt at hy
  rw [if_neg (hA x hx)] at hy
  split_ifs at hy
  exact (some.inj hy).symm

variable (hvol : recAttr rec &&& 0x08 = 0)
include hvol

theorem searched_subdir : searched (subdirAt (decodeShortName (slice rec 0 11))) none (A ++ r :: B) ≠ .ok none := by
  simp only [isFree, Bool.or_eq_false_iff, decide_eq_false_iff_not] at hused
  have hlook : ∃ y, subdirAt (decodeShortName (slice rec 0 11)) r.2 = some y ∧ y ≠ .ok none := by
    rw [hr, subdirAt, if_neg hused.1, if_neg hused.2, if_neg hattr, if_neg (not_not.mpr hvol), if_pos rfl]
    split_ifs <;> exact ⟨_, rfl, by simp⟩
  obtain ⟨y, hy, hne⟩ := hlook
  refine searched_reaches (· ≠ .ok none) (fun x hx y hy => ?_) hy hne
  unfold subdirAt at hy
  rw [if_neg (hA x hx)] at hy
  split_ifs at hy <;> simp [← some.inj hy]

variable [Unicode]

theorem scan_lists : ∃ p, slotName p rec = [] ∨ entryOf (slotName p rec) r ∈ (scan none (A ++ r :: B)).1 := by
  simp only [isFree, Bool.or_eq_false_iff, decide_eq_false_iff_not] at hused
  obtain ⟨p, hp⟩ := scan_open hA none
  refine ⟨p, ?_⟩
  by_cases hname : slotName p rec = []
  · exact .inl hname
  · right
    have hslot : readSlot p r.2 = .entry (slotName p rec) := by
      rw [hr, readSlot, if_neg hused.1, if_neg hused.2, if_neg hattr, if_neg (not_not.mpr hvol), if_neg hname]
    rw [scan_append, hp, elim_some, scan]
    simp only [hslot]
    exact mem_append_right _ mem_cons_self

end

variable [Unicode]

theorem isFree_of_entry {p : Option LfnRun} {rec : List UInt8} {name : Name} (h : readSlot p rec = .entry name) :
    isFree rec = false := by
  unfold readSlot at h
  split_ifs at h with hzero hdel
  simp [isFree, hzero, hdel]

theorem used_of_mem_scan {p : Option LfnRun} {e : DirEntry} (h : e ∈ (scan p A).1) :
    ∃ r ∈ A, e = entryOf e.name r ∧ isFree r.2 = false := by
  obtain ⟨p', r, hr, hslot, he⟩ := exists_slot_of_mem_scan h
  exact ⟨r, hr, he, isFree_of_entry hslot⟩

end

end Ruos.Fat
