import Ruos.Fat.WriterPaths
import Ruos.Fat.AuthoringRuns

/-! Calls that run out of space. What they took before they failed is not given back: such a call leaves the volume as
it was, with the same clusters in use and its directories and files reading the same, exactly if it could not take a
cluster at all. Retiring end marks does not count. -/
namespace Ruos.Fat

open Lib Vfs Block ErrorFree FatWriter List

variable [Unicode] {b : Bpb} {v v' v₁ v₂ : Vol} {P n : Nat} {dirs l : List Nat}

omit [Unicode] in
theorem isCluster_of_mem_chainOf {fat : Nat → Nat} {c x : Nat} (hx : x ∈ chainOf b fat c) : b.IsCluster x := by
  unfold chainOf at hx
  split_ifs at hx with hex
  · exact hex.choose_spec.isCluster hx
  · cases hx

omit [Unicode] in
theorem chainOf_congr {fat fat' : Nat → Nat} {c : Nat} (h : ∀ n, b.IsCluster n → fat' n = fat n) :
    chainOf b fat' c = chainOf b fat c := by
  have hswap : ∀ l, Chained b fat c l ↔ Chained b fat' c l := fun l =>
    ⟨fun hc => hc.congr fun y hy => h y (hc.isCluster hy), fun hc => hc.congr fun y hy => (h y (hc.isCluster hy)).symm⟩
  by_cases hex : ∃ l, Chained b fat c l
  · obtain ⟨l, hc⟩ := hex
    rw [hc.chainOf_eq, ((hswap l).mp hc).chainOf_eq]
  · have hex' : ¬ ∃ l, Chained b fat' c l := fun ⟨l, hc⟩ => hex ⟨l, (hswap l).mpr hc⟩
    rw [chainOf, chainOf, dif_neg hex, dif_neg hex']

noncomputable def contentsOf (b : Bpb) (v : Vol) (e : DirEntry) : List UInt8 :=
  (dataOf v (chainOf b v.fat e.cluster)).take e.size

/-- The same clusters are in use, and the directories have the same entries and the files the same contents. -/
structure Unchanged (b : Bpb) (dirs : List Nat) (v v' : Vol) : Prop where
  allocated : ∀ n, b.IsCluster n → (v'.fat n = 0 ↔ v.fat n = 0)
  entries : ∀ P ∈ dirs, dirEntries b v' P = dirEntries b v P
  contents : ∀ P ∈ dirs, ∀ e ∈ dirEntries b v P, e.isDir = false → contentsOf b v' e = contentsOf b v e

/-- A volume whose directories are in order, and whose files have chains of their own. -/
structure Orderly (b : Bpb) (v : Vol) (dirs : List Nat) : Prop extends Authored b v dirs [] where
  files : ∀ P ∈ dirs, ∀ e ∈ dirEntries b v P, e.isDir = false → ∀ Q ∈ dirs,
    (chainOf b v.fat e.cluster).Disjoint (chainOf b v.fat Q)

theorem Unchanged.refl (b : Bpb) (dirs : List Nat) (v : Vol) : Unchanged b dirs v v :=
  ⟨fun _ _ => Iff.rfl, fun _ _ => rfl, fun _ _ _ _ _ => rfl⟩

theorem Took.changed (h : Took b v v') : ¬ Unchanged b dirs v v' := by
  intro hu
  obtain ⟨n, hn, hfree, hused⟩ := h
  exact hused ((hu.allocated n hn).mpr hfree)

theorem Unchanged.of_mounted {blocks : Nat} {m : Mem} (h : Unchanged b dirs v v₁) (hw : b.WellSized blocks)
    (h₁ : Mounted b m v₁) (h₂ : Mounted b m v₂) : Unchanged b dirs v v₂ := by
  have hfat : ∀ n, b.IsCluster n → v₂.fat n = v₁.fat n := fun n hn =>
    (h₂.fat n (hw.entry_lt hn)).trans (h₁.fat n (hw.entry_lt hn)).symm
  have hchain : ∀ c, chainOf b v₂.fat c = chainOf b v₁.fat c := fun c => chainOf_congr hfat
  have hclus : ∀ c, ∀ x ∈ chainOf b v₁.fat c, v₂.clus x = v₁.clus x := by
    intro c x hx
    have hc := isCluster_of_mem_chainOf hx
    exact (h₂.clus x hc).trans (h₁.clus x hc).symm
  constructor
  · intro n hn
    rw [hfat n hn]
    exact h.allocated n hn
  · intro P hP
    rw [← h.entries P hP, dirEntries, dirEntries, hchain, dirSlots_congr (hclus P)]
  · intro P hP e he hfile
    rw [← h.contents P hP e he hfile, contentsOf, contentsOf, hchain, dataOf, dataOf,
      map_congr_left (hclus e.cluster)]

theorem scan_retire {rs : List Located} (h : Ended (rs.map (·.2))) (p : Option LfnRun) :
    (scan p (rs.map fun r => (r.1, retire r.2))).1 = (scan p rs).1 := by
  induction rs generalizing p with
  | nil => rfl
  | cons r rs ih =>
    rw [map_cons, Ended, pairwise_cons] at h
    by_cases hzero : firstByte r.2 = 0x00
    · have hall : ∀ x ∈ r :: rs, firstByte x.2 = 0x00 := by
        intro x hx
        rcases mem_cons.mp hx with rfl | hx
        · exact hzero
        · exact h.1 x.2 (List.mem_map_of_mem hx) hzero
      have hnone : ∀ {rs : List Located} {p : Option LfnRun}, (∀ x ∈ rs, firstByte x.2 = 0x00) →
          (scan p (rs.map fun r => (r.1, retire r.2))).1 = [] := by
        intro rs
        induction rs with
        | nil => exact fun _ => rfl
        | cons x rs ih =>
          intro p hrs
          obtain ⟨hx, hrs⟩ := forall_mem_cons.mp hrs
          have hslot : readSlot p (retire x.2) = .skip none := by
            rw [readSlot, firstByte_retire, if_pos hx, if_neg (by decide), if_pos rfl]
          simp only [map_cons, scan, hslot]
          exact ih hrs
      have hslot : readSlot p r.2 = .finish := by rw [readSlot, if_pos hzero]
      rw [hnone hall, scan, hslot]
    · rw [map_cons, retire_eq_self hzero, scan, scan]
      cases readSlot p r.2 with
      | finish => rfl
      | skip p' => exact ih h.2 p'
      | entry name =>
        rw [ih h.2 none]

theorem Orderly.retire (hsized : Sized b v) (h : Orderly b v dirs) (hP : P ∈ dirs)
    (hlast : (chainOf b v.fat P).getLast? = some n) : Unchanged b dirs v (v.setClus n (retired (v.clus n))) := by
  have hmem := mem_of_getLast? hlast
  have hne : ∀ {x : Nat} {l : List Nat}, l.Disjoint (chainOf b v.fat P) → x ∈ l → x ≠ n := fun hd hx heq =>
    hd hx (heq ▸ hmem)
  constructor
  · exact fun _ _ => Iff.rfl
  · intro Q hQ
    change (scan none (dirSlots b (v.setClus n (retired (v.clus n))) (chainOf b v.fat Q))).1 = _
    by_cases hQP : Q = P
    · subst hQP
      have hc := h.chained Q hQ
      obtain ⟨init, hinit⟩ := getLast?_eq_some_iff.mp hlast
      have hnodup := hc.nodup
      rw [hinit] at hnodup
      have hout : ∀ x ∈ init, x ≠ n := fun x hx heq =>
        (nodup_append.mp hnodup).2.2 x hx n mem_cons_self heq
      have hended : Ended ((clusterSlots b n (v.clus n)).map (·.2)) := by
        rw [map_clusterSlots]
        exact (h.closed Q hQ).back n hlast
      have hslots : dirSlots b (v.setClus n (retired (v.clus n))) [n] =
          (clusterSlots b n (v.clus n)).map fun r => (r.1, FatWriter.retire r.2) := by
        rw [dirSlots, flatMap_singleton, Vol.clus_setClus_self,
          clusterSlots_retired (hsized n (hc.isCluster hmem))]
      have hold : dirSlots b v [n] = clusterSlots b n (v.clus n) := by rw [dirSlots, flatMap_singleton]
      rw [dirEntries, hinit, dirSlots_append, dirSlots_append,
        dirSlots_congr fun x hx => Vol.clus_setClus_of_ne (hout x hx) v _, scan_append, scan_append, hslots, hold]
      cases (scan none (dirSlots b v init)).2 with
      | none => rfl
      | some p => exact congrArg ((scan none (dirSlots b v init)).1 ++ ·) (scan_retire hended p)
    · have hd := h.apart Q hQ P hP hQP
      rw [dirEntries, dirSlots_congr fun x hx => Vol.clus_setClus_of_ne (hne hd hx) v _]
  · intro Q hQ e he hfile
    have hd := h.files Q hQ e he hfile P hP
    change (dataOf (v.setClus n (retired (v.clus n))) (chainOf b v.fat e.cluster)).take e.size = _
    rw [contentsOf, dataOf, dataOf, map_congr_left fun x hx => Vol.clus_setClus_of_ne (hne hd hx) v _]

theorem Orderly.barely (hsized : Sized b v) (h : Orderly b v dirs) (hb : Barely b dirs v v') : Unchanged b dirs v v' := by
  rcases hb with rfl | ⟨Q, hQ, last, hlast, rfl⟩
  · exact Unchanged.refl b dirs v'
  · exact h.retire hsized hQ hlast
end Ruos.Fat

namespace Ruos.Fat

open Lib Vfs Block ErrorFree FatWriter List

variable {b : Bpb} {v v' : Vol} {dirs : List Nat}

theorem MakesIn.noSpace {isDir : Bool} {path : List Name} (h : MakesIn b v dirs isDir path (.error .noSpace) v') :
    (NoFree b v ∧ v' = v) ∨ (¬ NoFree b v ∧ Took b v v') := by
  rcases h with ⟨e, he, hne, -⟩ | ⟨P, hP, r₀, hmakes, hr⟩ | ⟨⟨e, he, hfull⟩, -⟩
  · exact absurd (Except.error.inj he).symm hne
  · cases hmakes with
    | made | noDir => cases hr
    | noSpace hfull => exact .inl ⟨hfull, rfl⟩
    | lost hn hfree => exact .inr ⟨fun hall => hall _ hn hfree, took_prepared hn hfree P isDir⟩
  · exact .inl (hfull (Except.error.inj he).symm)

section

variable [Unicode] {S : Type} [BlockDevice S] [ErrorFree S] {s : S} (hw : b.WellSized (blocks s))
  (hboot : Bpb.parse ((mem s).read 0 512) = .ok b) (h : Orderly b (volOf b (mem s)) dirs)
include hw hboot h

theorem makeIn_unchanged_iff {isDir : Bool} {path : List Name} {s' : S}
    (hrun : makeIn b isDir path s = .error .noSpace s') :
    Unchanged b dirs (volOf b (mem s)) (volOf b (mem s')) ↔ NoFree b (volOf b (mem s)) := by
  have hs : Holds b s s (volOf b (mem s)) := ⟨frame_refl s, mounted_volOf hboot⟩
  obtain ⟨v', ⟨-, hm'⟩, hmakes⟩ := (meets_makesIn hw h.toAuthored isDir path).of_error hs hrun
  have hview : ∀ hu : Unchanged b dirs (volOf b (mem s)) v', Unchanged b dirs (volOf b (mem s)) (volOf b (mem s')) :=
    fun hu => hu.of_mounted hw hm' (mounted_volOf hm'.boot)
  rcases hmakes.noSpace with ⟨hfull, rfl⟩ | ⟨hsome, htook⟩
  · exact ⟨fun _ => hfull, fun _ => hview (Unchanged.refl _ _ _)⟩
  · constructor
    · exact fun hu => absurd (hu.of_mounted hw (mounted_volOf hm'.boot) hm') htook.changed
    · exact fun hfull => absurd hfull hsome

omit h in
theorem write_unchanged_iff {f : Fat32File} {cs : List Nat} {d i : Nat} {buf : Buf} {o' : Opened S}
    (hcs : Known b (volOf b (mem s)) f.truncated cs) (hmem : ∀ x ∈ cs, b.IsCluster x) (hat : f.entry.At b d i)
    (hrun : Fat32File.write b buf ⟨s, f⟩ = .error (.err .noSpace) o') :
    Unchanged b dirs (volOf b (mem s)) (volOf b (mem o'.fs)) ↔ NoFree b (volOf b (mem s)) := by
  have hs : Opens b s ⟨s, f⟩ (volOf b (mem s), f) := ⟨⟨frame_refl s, mounted_volOf hboot⟩, rfl⟩
  have hne : buf.val ≠ [] := by
    intro hnil
    rw [Fat32File.write, if_pos hnil] at hrun
    cases hrun
  obtain ⟨⟨v', f'⟩, ⟨⟨-, hm'⟩, -⟩, hwrote⟩ := (meets_write hw hne hcs hmem hat).of_error hs hrun
  cases hwrote with
  | noSpace hext hlen hfull' =>
    constructor
    · intro hu n hn hfree
      exact hfull' n hn (((hu.of_mounted hw (mounted_volOf hm'.boot) hm').allocated n hn).mpr hfree)
    · intro hfull
      obtain ⟨rfl, -⟩ := hext.eq_of_noFree hfull
      exact (Unchanged.refl _ _ _).of_mounted hw hm' (mounted_volOf hm'.boot)

theorem writeFile_unchanged_iff {hint : Nat} {path : List Char} {data : List UInt8} {w' : FatWriter S}
    (hrun : writeFile b path data ⟨s, hint⟩ = .error .noSpace w') :
    Unchanged b dirs (volOf b (mem s)) (volOf b (mem w'.dev)) ↔ ¬ TakesClusters b (volOf b (mem s)) hint path data := by
  have hm := mounted_volOf hboot
  have hs : Hinted b (⟨s, hint⟩ : FatWriter S) ⟨s, hint⟩ (volOf b (mem s), hint) := ⟨⟨frame_refl s, hm⟩, rfl⟩
  have hwriter : b.WellSized (blocks (⟨s, hint⟩ : FatWriter S)) := hw
  have hmeets := meets_writeFile hwriter h.toAuthored hint path data
  obtain ⟨⟨v', h'⟩, ⟨⟨-, hm'⟩, -⟩, hpost⟩ := hmeets.of_error hs hrun
  obtain ⟨htakes, hkeeps⟩ := hpost rfl
  constructor
  · exact fun hu ht => (htakes ht).changed (hu.of_mounted hw (mounted_volOf hm'.boot) hm')
  · intro hnot
    have hsized : Sized b (volOf b (mem s)) := fun n hn => hm.length_clus hn
    exact (h.barely hsized (hkeeps hnot)).of_mounted hw hm' (mounted_volOf hm'.boot)

/-- A call that runs out of space leaves the volume as it was exactly if it could not take any cluster. For the calls
of the driver, no cluster is free. For `write_file`, no cluster is free from the hint on if a directory of the path is
missing, and otherwise there is no data or too few clusters are free for it. -/
theorem failed_calls_unchanged_iff : (∀ path s', create b path s = .error .noSpace s' →
      (Unchanged b dirs (volOf b (mem s)) (volOf b (mem s')) ↔ NoFree b (volOf b (mem s)))) ∧
    (∀ path s', Fat.mkdir b path s = .error .noSpace s' →
      (Unchanged b dirs (volOf b (mem s)) (volOf b (mem s')) ↔ NoFree b (volOf b (mem s)))) ∧
    (∀ f cs d i buf o', Known b (volOf b (mem s)) f.truncated cs → (∀ x ∈ cs, b.IsCluster x) → f.entry.At b d i →
      Fat32File.write b buf (⟨s, f⟩ : Opened S) = .error (.err .noSpace) o' →
      (Unchanged b dirs (volOf b (mem s)) (volOf b (mem o'.fs)) ↔ NoFree b (volOf b (mem s)))) ∧
    (∀ hint path data w', writeFile b path data (⟨s, hint⟩ : FatWriter S) = .error .noSpace w' →
      (Unchanged b dirs (volOf b (mem s)) (volOf b (mem w'.dev)) ↔
        ¬ TakesClusters b (volOf b (mem s)) hint path data)) := by
  have hunit : ∀ {α : Type} {x : FatM S α} {s s' : S} {e : VfsError}, (x >>= fun _ => pure ()) s = .error e s' →
      x s = .error e s' := by
    intro α x s s' e hx
    change EStateM.bind x _ s = _ at hx
    unfold EStateM.bind at hx
    cases hs : x s with
    | ok a t =>
      rw [hs] at hx
      cases hx
    | error e' t =>
      rw [hs] at hx
      cases hx
      rfl
  refine ⟨fun path s' hrun => ?_, fun path s' hrun => ?_, ?_, ?_⟩
  · rw [create_eq_makeIn] at hrun
    exact makeIn_unchanged_iff hw hboot h (hunit hrun)
  · rw [mkdir_eq_makeIn] at hrun
    exact makeIn_unchanged_iff hw hboot h (hunit hrun)
  · intro f cs d i buf o' hcs hmem hat hrun
    exact write_unchanged_iff hw hboot hcs hmem hat hrun
  · intro hint path data w' hrun
    exact writeFile_unchanged_iff hw hboot h hrun

end

/-- A volume of the given number of sectors: the boot sector, a FAT of one sector, and clusters of one sector, the
first of which is an empty root directory. -/
def bareDisk (sectors : Fin 128) : MemDisk where
  count := sectors
  count_lt := by omega
  bytes := ((((((((Mem.write (fun _ => 0) 510 (leBytes 2 0xAA55)).write 0x0B (leBytes 2 512)).write 0x0D [1]).write
    0x0E (leBytes 2 1)).write 0x10 [1]).write 0x20 (leBytes 4 sectors)).write 0x24 (leBytes 4 1)).write 0x2C
    (leBytes 4 2)).write 520 (leBytes 4 0x0FFFFFFF)

def bareBpb (sectors : Fin 128) : Bpb where
  bytesPerSec := 512
  secPerCluster := 1
  rsvdSecCnt := 1
  numFats := 1
  fatSz32 := 1
  rootClus := 2
  totSec32 := sectors

theorem bareDisk_parse : ∀ sectors ∈ [3, 4], Bpb.parse ((mem (bareDisk sectors)).read 0 512) = .ok (bareBpb sectors) := by
  decide +kernel

theorem bareBpb_wellSized : ∀ sectors ∈ [3, 4], (bareBpb sectors).WellSized (blocks (bareDisk sectors)) := by
  intro sectors hs
  simp only [mem_cons, not_mem_nil, or_false] at hs
  rcases hs with rfl | rfl
  · constructor <;> decide
  · constructor <;> decide

theorem bareDisk_orderly : ∀ sectors ∈ [3, 4],
    @Orderly Unicode.ascii (bareBpb sectors) (volOf (bareBpb sectors) (mem (bareDisk sectors))) [2] := by
  intro sectors hs
  let _ := Unicode.ascii
  have hfacts : ∀ sectors ∈ [3, 4], (bareBpb sectors).IsCluster 2 ∧
      let v := volOf (bareBpb sectors) (mem (bareDisk sectors))
      v.fat 2 = 0x0FFFFFFF ∧ (∀ rec ∈ records (v.clus 2), firstByte rec = 0) ∧
        (∀ r ∈ dirSlots (bareBpb sectors) v [2], isFree r.2 = true) ∧
          (scan none (dirSlots (bareBpb sectors) v [2])).1 = [] := by
    decide +kernel
  obtain ⟨htwo, hfat, hzero, hfree, hentries⟩ := hfacts sectors hs
  have hc := Chained.single htwo (by decide) hfat
  refine ⟨.of_root rfl hc (ended_of_zero hzero) fun r hr hused => ?_, ?_⟩
  · rw [hfree r hr] at hused
    cases hused
  · exact forall_mem_singleton.mpr ((dirEntries_eq hc).trans hentries ▸ fun e he => absurd he not_mem_nil)

/-- With no free cluster `create` fails and leaves the volume as it was. -/
theorem failed_create_unchanged :
    ∃ s', @create _ _ Unicode.ascii (bareBpb 3) [['a']] (bareDisk 3) = .error .noSpace s' ∧
      @Unchanged Unicode.ascii (bareBpb 3) [2] (volOf (bareBpb 3) (mem (bareDisk 3))) (volOf (bareBpb 3) (mem s')) := by
  let _ := Unicode.ascii
  have herr : (reply (create (bareBpb 3) [['a']]) (bareDisk 3)).1 = .error .noSpace := by decide +kernel
  have hrun := eq_outcome_reply (create (bareBpb 3) [['a']]) (bareDisk 3)
  rw [herr] at hrun
  have hfull : NoFree (bareBpb 3) (volOf (bareBpb 3) (mem (bareDisk 3))) := by
    intro n hn
    have htwo : n = 2 := by
      have hlt : n < 3 := hn.2
      have hge := hn.1
      omega
    rw [htwo]
    decide +kernel
  refine ⟨_, hrun, ?_⟩
  exact ((failed_calls_unchanged_iff (bareBpb_wellSized 3 (by decide)) (bareDisk_parse 3 (by decide))
    (bareDisk_orderly 3 (by decide))).1 _ _ hrun).mpr hfull

/-- A file for which there is no room leaves the directory on its path behind. -/
theorem failed_writeFile_leaves_directory :
    @Orderly Unicode.ascii (bareBpb 4) (volOf (bareBpb 4) (mem (bareDisk 4))) [2] ∧
      ∃ w', writeFile (bareBpb 4) ['d', '/', 'f'] [1] ⟨bareDisk 4, 2⟩ = .error .noSpace w' ∧
        (volOf (bareBpb 4) (mem (bareDisk 4))).fat 3 = 0 ∧ (volOf (bareBpb 4) (mem w'.dev)).fat 3 = 0x0FFFFFFF ∧
        ¬ @Unchanged Unicode.ascii (bareBpb 4) [2] (volOf (bareBpb 4) (mem (bareDisk 4)))
          (volOf (bareBpb 4) (mem w'.dev)) := by
  let _ := Unicode.ascii
  have hreply : (reply (writeFile (bareBpb 4) ['d', '/', 'f'] [1]) ⟨bareDisk 4, 2⟩).1 =
      .error .noSpace := by decide +kernel
  have hrun := eq_outcome_reply (writeFile (bareBpb 4) ['d', '/', 'f'] [1]) ⟨bareDisk 4, 2⟩
  rw [hreply] at hrun
  have hfree : (volOf (bareBpb 4) (mem (bareDisk 4))).fat 3 = 0 := by decide +kernel
  have hused : (volOf (bareBpb 4) (mem (reply (writeFile (bareBpb 4) ['d', '/', 'f'] [1])
      ⟨bareDisk 4, 2⟩).2.dev)).fat 3 = 0x0FFFFFFF := by decide +kernel
  refine ⟨bareDisk_orderly 4 (by decide), _, hrun, hfree, hused, fun hu => ?_⟩
  have hthree : (bareBpb 4).IsCluster 3 := by decide
  rw [(hu.allocated 3 hthree).mpr hfree] at hused
  cases hused

theorem flatMap_clus_fillAll {b : Bpb} {cs : List Nat} (hnodup : cs.Nodup) (v : Vol) {data : List UInt8}
    (hlen : data.length ≤ cs.length * b.clusterBytes) :
    cs.flatMap (fillAll b v cs data).clus = padded (cs.length * b.clusterBytes) data := by
  induction cs generalizing v data with
  | nil => simpa [padded] using hlen
  | cons c cs ih =>
    obtain ⟨hc, hnodup⟩ := nodup_cons.mp hnodup
    rw [length_cons, Nat.succ_mul] at hlen
    rw [flatMap_cons, fillAll, clus_fillAll_of_notMem hc, Vol.clus_setClus_self,
      ih hnodup _ (by rw [length_drop]; omega), ← padded_add, length_cons, Nat.succ_mul, Nat.add_comm]

/-- What `write_file` stores is read back along its chain, with zeros behind it, and no cluster in use is changed. -/
theorem contents_read_back {S : Type} [BlockDevice S] [ErrorFree S] {b : Bpb} {w₀ w w' : FatWriter S} {v : Vol}
    {h first : Nat} {data : List UInt8} (hs : Hinted b w₀ w (v, h)) (hw : b.WellSized (blocks w₀)) (hne : data ≠ [])
    (hrun : writeContents b data w = .ok first w') : ∃ cs v', Holds b w₀ w' v' ∧
      (∃ w'', chain b first w' = .ok cs w'') ∧ (∀ c ∈ cs, ∃ w'', readCluster b c w' = .ok (v'.clus c) w'') ∧
      cs.length = clustersFor b data.length ∧ cs.flatMap v'.clus = padded (cs.length * b.clusterBytes) data ∧
      ∀ n, v.fat n ≠ 0 → v'.fat n = v.fat n ∧ v'.clus n = v.clus n := by
  obtain ⟨⟨v', h'⟩, ⟨hheld, -⟩, ⟨c, cs, hlen, hnodup, hcs, hok, rfl, -⟩ | ⟨habs, -⟩⟩ :=
    (meets_writeContents hw v h hne).of_ok hs hrun
  · cases hok
    have hchain := chained_linkAll hw (fun x hx => (hcs x hx).1) hnodup v
    rw [← fat_fillAll b _ (first :: cs) data] at hchain
    obtain ⟨w'', hwalk, -⟩ := runs_chain hw hchain w' hheld
    have hsame := @same_newData b v (first :: cs) (fun x hx => (hcs x hx).2) data
    refine ⟨first :: cs, _, hheld, ⟨w'', hwalk⟩, fun x hx => ?_, hlen, flatMap_clus_fillAll hnodup _ ?_,
      fun n => hsame n not_mem_nil⟩
    · obtain ⟨w'', hread, -⟩ := runs_readCluster hw (hcs x hx).1 w' hheld
      exact ⟨w'', hread⟩
    · rw [hlen, Nat.mul_comm]
      exact le_smul_ceilDiv (Nat.mul_pos (by decide) hw.spc_pos)
  · cases habs

theorem contents_read_back_one : ∃ (w w' : FatWriter MemDisk) (v : Vol),
    writeContents (bareBpb 4) [1] ⟨bareDisk 4, 2⟩ = .ok 3 w ∧ ∃ cs, chain (bareBpb 4) 3 w = .ok cs w' ∧
      cs.flatMap v.clus = padded (cs.length * 512) [1] := by
  have hok : (reply (writeContents (bareBpb 4) [1]) ⟨bareDisk 4, 2⟩).1 = .ok 3 := by decide +kernel
  have hrun := eq_outcome_reply (writeContents (bareBpb 4) [1]) ⟨bareDisk 4, 2⟩
  rw [hok] at hrun
  have hs : Hinted (bareBpb 4) (⟨bareDisk 4, 2⟩ : FatWriter MemDisk) ⟨bareDisk 4, 2⟩
      (volOf _ (mem (bareDisk 4)), 2) :=
    ⟨⟨frame_refl _, mounted_volOf (bareDisk_parse 4 (by decide))⟩, rfl⟩
  obtain ⟨cs, v, -, ⟨w', hwalk⟩, -, -, hdata, -⟩ :=
    contents_read_back hs (bareBpb_wellSized 4 (by decide)) (by decide) hrun
  exact ⟨_, w', v, hrun, cs, hwalk, hdata⟩

end Ruos.Fat
