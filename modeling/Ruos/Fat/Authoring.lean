import Ruos.Fat.DriverRuns
import Ruos.Fat.EndMarks

/-! Filling a volume through the mounted driver and through `FatWriter`: the calls that put records into directories,
and what holds of the directories in between. -/
namespace Ruos.Fat

open Lib Vfs Block ErrorFree FatWriter List

/-- The calls that add records. The mounted driver takes paths, `FatWriter` the first cluster of a directory. -/
inductive AddCall where
  | make (isDir : Bool) (path : List Name)
  | openWriter
  | mkdir (parent : Nat) (name : Name)
  | addRecord (dir : Nat) (rec : List UInt8)
  | addRun (dir : Nat) (run : List (List UInt8))
  deriving DecidableEq, Repr

section

variable {S : Type} [BlockDevice S] [Unicode] (b : Bpb)

/-- `Fat32Fs::create` and `Fat32Fs::mkdir`, with the directory and the entry they make. -/
def makeIn (isDir : Bool) (path : List Name) : FatM S (Nat × DirEntry) := do
  let parent ← lookupParentAndName b path
  let e ← createEntry b isDir parent.1 parent.2
  pure (parent.1, e)

theorem create_eq_makeIn (path : List Name) : (create b path : FatM S Unit) = makeIn b false path >>= fun _ => pure () := by
  rw [makeIn, bind_assoc]
  refine bind_congr fun parent => ?_
  rw [bind_assoc]
  rfl

theorem mkdir_eq_makeIn (path : List Name) : (Fat.mkdir b path : FatM S Unit) = makeIn b true path >>= fun _ => pure () := by
  rw [makeIn, bind_assoc]
  refine bind_congr fun parent => ?_
  rw [bind_assoc]
  rfl

def dotPair (P n : Nat) : List (List UInt8) :=
  [dirRecord dotName 0x10 n 0, dirRecord dotdotName 0x10 (if P = b.rootClus then 0 else P) 0]

/-- A volume with the directories that were made on it and the records that were written: each with the directory it
was written into. -/
structure Authoring (S : Type) where
  fs : FatWriter S
  dirs : List Nat
  written : List (Nat × List UInt8)

namespace Authoring

/-- A file or directory `name` was made in the directory `P`. -/
def made (s : Authoring S) (fs : FatWriter S) (P : Nat) (name : Name) (isDir : Bool) (n : Nat) : Authoring S where
  fs := fs
  dirs := if isDir then n :: s.dirs else s.dirs
  written := s.written ++ (if isDir then (dotPair b P n).map (n, ·) else []) ++ [(P, newRecord name isDir n)]

def step (s : Authoring S) : AddCall → Authoring S
  | .make isDir path =>
    match makeIn b isDir path s.fs with
    | .ok (P, e) fs => s.made b fs P (path.getLast?.getD []) isDir e.cluster
    | .error _ fs => { s with fs }
  | .openWriter =>
    match openDev s.fs with
    | .ok (_, n) fs => { s with fs := { fs with nextFree := n } }
    | .error _ fs => { s with fs }
  | .mkdir P name =>
    match FatWriter.mkdir b P name s.fs with
    | .ok n fs => s.made b fs P name true n
    | .error _ fs => { s with fs }
  | .addRecord P rec =>
    match FatWriter.addRecord b P rec s.fs with
    | .ok () fs => { s with fs, written := s.written ++ [(P, rec)] }
    | .error _ fs => { s with fs }
  | .addRun P run =>
    match addDirRun b P run s.fs with
    | .ok () fs => { s with fs, written := s.written ++ run.map (P, ·) }
    | .error _ fs => { s with fs }

end Authoring
end

/-- A directory record names a directory of the volume; 0 stands for the root. -/
def NamesDir (dirs : List Nat) (rec : List UInt8) : Prop :=
  recAttr rec &&& 0x10 ≠ 0 → recCluster rec = 0 ∨ recCluster rec ∈ dirs

/-- The directories of a volume are chains of their own, with their end marks in place; their directory records name
directories; and the records written so far are in them. -/
structure Authored (b : Bpb) (v : Vol) (dirs : List Nat) (written : List (Nat × List UInt8)) : Prop where
  root : b.rootClus ∈ dirs
  chained : ∀ P ∈ dirs, Chained b v.fat P (chainOf b v.fat P)
  nonempty : ∀ P ∈ dirs, chainOf b v.fat P ≠ []
  closed : ∀ P ∈ dirs, Closed b v (chainOf b v.fat P)
  apart : ∀ P ∈ dirs, ∀ Q ∈ dirs, P ≠ Q → (chainOf b v.fat P).Disjoint (chainOf b v.fat Q)
  named : ∀ P ∈ dirs, ∀ r ∈ dirSlots b v (chainOf b v.fat P), isFree r.2 = false → NamesDir dirs r.2
  kept : ∀ x ∈ written, x.1 ∈ dirs ∧ isFree x.2 = false ∧ ∃ loc, (loc, x.2) ∈ dirSlots b v (chainOf b v.fat x.1)

namespace Authored

variable {b : Bpb} {v v' : Vol} {P n : Nat} {l' : List Nat} {dirs : List Nat} {written : List (Nat × List UInt8)}

/-- A volume whose only directory is a root of one cluster. -/
theorem of_root (hroot : b.rootClus = 2) (hc : Chained b v.fat 2 [2]) (hended : Ended (records (v.clus 2)))
    (hnamed : ∀ r ∈ dirSlots b v [2], isFree r.2 = false → NamesDir [2] r.2) : Authored b v [2] [] := by
  have hself : chainOf b v.fat 2 = [2] := hc.chainOf_eq
  refine ⟨hroot ▸ mem_cons_self, ?_, ?_, ?_, ?_, ?_, fun x hx => absurd hx not_mem_nil⟩
  · exact forall_mem_singleton.mpr (hself.symm ▸ hc)
  · exact forall_mem_singleton.mpr (hself.symm ▸ cons_ne_nil _ _)
  · refine forall_mem_singleton.mpr (hself.symm ▸ ⟨fun c hc => absurd hc not_mem_nil, fun c hc => ?_⟩)
    obtain rfl : 2 = c := Option.some.inj hc
    exact hended
  · exact forall_mem_singleton.mpr (forall_mem_singleton.mpr fun hne => absurd rfl hne)
  · exact forall_mem_singleton.mpr (hself.symm ▸ hnamed)

/-- One directory changes: it keeps its records in use, the new ones name directories, and clusters it gained were
free. -/
theorem change (h : Authored b v dirs written) (hP : P ∈ dirs) (hc : Chained b v'.fat P l') (hne : l' ≠ [])
    (hsame : SameElsewhere (chainOf b v.fat P) v v') (hgrown : ∀ m ∈ l', m ∈ chainOf b v.fat P ∨ v.fat m = 0)
    (hclosed : Closed b v' l')
    (hkept : ∀ r ∈ dirSlots b v (chainOf b v.fat P), isFree r.2 = false → r ∈ dirSlots b v' l')
    (hnamed : ∀ r ∈ dirSlots b v' l', isFree r.2 = false → NamesDir dirs r.2) : Authored b v' dirs written := by
  have hself : chainOf b v'.fat P = l' := hc.chainOf_eq
  have hother : ∀ Q ∈ dirs, Q ≠ P → Chained b v'.fat Q (chainOf b v.fat Q) ∧
      ∀ x ∈ chainOf b v.fat Q, v'.clus x = v.clus x := by
    intro Q hQ hQP
    have hd := h.apart Q hQ P hP hQP
    exact ⟨hsame.chained (h.chained Q hQ) hd, fun x hx => (hsame x (hd hx) ((h.chained Q hQ).mem x hx).2).2⟩
  have hchain : ∀ Q ∈ dirs, Q ≠ P → chainOf b v'.fat Q = chainOf b v.fat Q := fun Q hQ hQP =>
    (hother Q hQ hQP).1.chainOf_eq
  have hslots : ∀ Q ∈ dirs, Q ≠ P → dirSlots b v' (chainOf b v'.fat Q) = dirSlots b v (chainOf b v.fat Q) := by
    intro Q hQ hQP
    rw [hchain Q hQ hQP]
    exact dirSlots_congr (hother Q hQ hQP).2
  have hdisj : ∀ Q ∈ dirs, Q ≠ P → l'.Disjoint (chainOf b v.fat Q) := by
    intro Q hQ hQP m hm hmQ
    rcases hgrown m hm with hold | hfree
    · exact h.apart P hP Q hQ hQP.symm hold hmQ
    · exact ((h.chained Q hQ).mem m hmQ).2 hfree
  constructor
  · exact h.root
  · intro Q hQ
    by_cases hQP : Q = P
    · rw [hQP, hself]
      exact hc
    · rw [hchain Q hQ hQP]
      exact (hother Q hQ hQP).1
  · intro Q hQ
    by_cases hQP : Q = P
    · rw [hQP, hself]
      exact hne
    · rw [hchain Q hQ hQP]
      exact h.nonempty Q hQ
  · intro Q hQ
    by_cases hQP : Q = P
    · rw [hQP, hself]
      exact hclosed
    · rw [hchain Q hQ hQP]
      exact (h.closed Q hQ).congr (hother Q hQ hQP).2
  · intro Q hQ R hR hne
    by_cases hQP : Q = P
    · subst hQP
      rw [hself, hchain R hR hne.symm]
      exact hdisj R hR hne.symm
    · rw [hchain Q hQ hQP]
      by_cases hRP : R = P
      · rw [hRP, hself]
        exact fun m hm hm' => hdisj Q hQ hQP hm' hm
      · rw [hchain R hR hRP]
        exact h.apart Q hQ R hR hne
  · intro Q hQ
    by_cases hQP : Q = P
    · rw [hQP, hself]
      exact hnamed
    · rw [hslots Q hQ hQP]
      exact h.named Q hQ
  · intro x hx
    obtain ⟨hdir, hused, loc, hloc⟩ := h.kept x hx
    refine ⟨hdir, hused, loc, ?_⟩
    by_cases hQP : x.1 = P
    · rw [hQP] at hloc ⊢
      rw [hself]
      exact hkept _ hloc hused
    · rw [hslots x.1 hdir hQP]
      exact hloc

theorem same (h : Authored b v dirs written) (hs : SameElsewhere [] v v') : Authored b v' dirs written := by
  have hP := h.root
  have hc := h.chained _ hP
  have hclus : ∀ x ∈ chainOf b v.fat b.rootClus, v'.clus x = v.clus x := fun x hx =>
    (hs x (not_mem_nil) (hc.mem x hx).2).2
  refine h.change hP (hs.chained hc (disjoint_nil_right _)) (h.nonempty _ hP) (fun x _ => hs x not_mem_nil)
    (fun m hm => .inl hm) ((h.closed _ hP).congr hclus) ?_ ?_
  · rw [dirSlots_congr hclus]
    exact fun r hr _ => hr
  · rw [dirSlots_congr hclus]
    exact h.named _ hP

theorem fill {blocks : Nat} (hw : b.WellSized blocks) (hsized : Sized b v) (h : Authored b v dirs written) (hP : P ∈ dirs)
    {run : List (List UInt8)} (hf : Filled b v (chainOf b v.fat P) run v' l') (hrun : ∀ r ∈ run, r.length = 32)
    (hused : ∀ r ∈ run, isFree r = false) (hnamed : ∀ r ∈ run, NamesDir dirs r) :
    Authored b v' dirs (written ++ run.map (P, ·)) := by
  have hc := h.chained P hP
  have hc' := hf.chained hw hc
  have hgrown : ∀ m ∈ l', m ∈ chainOf b v.fat P ∨ v.fat m = 0 := by
    intro m hm
    cases hf with
    | reuse => exact .inl hm
    | @grow last n hlast hn hfree hfit =>
      rcases mem_append.mp hm with hm | hm
      · exact .inl hm
      · rw [mem_singleton.mp hm]
        exact .inr hfree
  have hne : l' ≠ [] := by
    cases hf with
    | reuse => exact h.nonempty P hP
    | grow => simp
  have hold : Authored b v' dirs written := by
    refine h.change hP hc' hne hf.same hgrown
      (hf.closed hc hsized hrun (h.closed P hP) fun r hr => firstByte_ne_zero_of_used (hused r hr))
      (fun r hr hu => hf.kept hc hsized hrun hr hu) fun r hr hu => ?_
    rcases hf.origin hc hsized hrun hr hu with hin | hin
    · exact h.named P hP r hin hu
    · exact hnamed r.2 hin
  refine { hold with kept := fun x hx => ?_ }
  rcases mem_append.mp hx with hx | hx
  · exact hold.kept x hx
  · obtain ⟨rec, hrec, rfl⟩ := mem_map.mp hx
    obtain ⟨loc, hloc⟩ := hf.mem_new hrun hrec
    refine ⟨hP, hused rec hrec, loc, ?_⟩
    rw [hc'.chainOf_eq]
    exact hloc

theorem retire (hsized : Sized b v) (h : Authored b v dirs written) (hP : P ∈ dirs)
    (hlast : (chainOf b v.fat P).getLast? = some n) : Authored b (v.setClus n (retired (v.clus n))) dirs written := by
  have hc := h.chained P hP
  have hmem := mem_of_getLast? hlast
  have hslots : ∀ r, isFree r.2 = false → (r ∈ dirSlots b (v.setClus n (retired (v.clus n))) (chainOf b v.fat P) ↔
      r ∈ dirSlots b v (chainOf b v.fat P)) := by
    intro r hu
    simp only [dirSlots, mem_flatMap]
    refine exists_congr fun x => and_congr_right fun hx => ?_
    by_cases hxn : x = n
    · subst hxn
      rw [Vol.clus_setClus_self, clusterSlots_retired (hsized x (hc.isCluster hx)), mem_map]
      constructor
      · rintro ⟨r', hr', rfl⟩
        rw [isFree_retire hu]
        exact hr'
      · exact fun hr => ⟨r, hr, by rw [retire_eq_self (firstByte_ne_zero_of_used hu)]⟩
    · rw [Vol.clus_setClus_of_ne hxn]
  refine h.change hP hc (h.nonempty P hP) (fun x hx hu => ⟨rfl, ?_⟩)
    (fun m hm => .inl hm) ((h.closed P hP).retire (fun x hx => hc.isCluster hx) hsized hlast).1
    (fun r hr hu => (hslots r hu).mpr hr) (fun r hr hu => h.named P hP r ((hslots r hu).mp hr) hu)
  exact Vol.clus_setClus_of_ne (ne_of_mem_of_not_mem hmem hx).symm v _
end Authored

variable {b : Bpb} {v v' : Vol} {P n : Nat} {dirs : List Nat} {written : List (Nat × List UInt8)} {name : Name}
  {isDir : Bool}

theorem NamesDir.mono {rec : List UInt8} {dirs' : List Nat} (h : NamesDir dirs rec) (hsub : dirs ⊆ dirs') :
    NamesDir dirs' rec := fun hattr => (h hattr).imp_right fun hin => hsub hin

theorem namesDir_newRecord (hn : n < 2 ^ 32) (h : isDir = true → n ∈ dirs) : NamesDir dirs (newRecord name isDir n) := by
  intro hattr
  have hlen := length_encodeShortName name
  rw [newRecord, recAttr_dirRecord hlen] at hattr
  have hdir : isDir = true := by
    cases isDir with
    | true => rfl
    | false => exact absurd (by decide) hattr
  rw [newRecord, recCluster_dirRecord hlen hn]
  exact .inr (h hdir)

theorem isFree_dirRecord {name : List UInt8} {attr : UInt8} {c size : Nat} (hlen : name.length = 11) :
    isFree (dirRecord name attr c size) = isFree name := by
  simp only [isFree, firstByte_dirRecord hlen]

theorem used_of_mem_dotPair {rec : List UInt8} (hn : n < 2 ^ 32) (hparent : (if P = b.rootClus then 0 else P) < 2 ^ 32)
    (hP : P ∈ dirs) (hrec : rec ∈ dotPair b P n) : isFree rec = false ∧ NamesDir (n :: dirs) rec := by
  simp only [dotPair, mem_cons, not_mem_nil, or_false] at hrec
  rcases hrec with rfl | rfl
  · refine ⟨(isFree_dirRecord rfl).trans (by decide), fun _ => .inr ?_⟩
    rw [recCluster_dirRecord rfl hn]
    exact mem_cons_self
  · refine ⟨(isFree_dirRecord rfl).trans (by decide), fun _ => ?_⟩
    rw [recCluster_dirRecord rfl hparent]
    by_cases hroot : P = b.rootClus
    · exact .inl (if_pos hroot)
    · rw [if_neg hroot]
      exact .inr (mem_cons_of_mem n hP)

namespace Authored

section

variable (h : Authored b v dirs written) (hn : b.IsCluster n) (hfree : v.fat n = 0)
include h hfree

theorem prepared (P : Nat) (isDir : Bool) : Authored b (prepared b v P isDir n) dirs written :=
  h.same (same_prepared hfree)

include hn in
theorem newDir {blocks : Nat} (hw : b.WellSized blocks) (hP : P ∈ dirs) :
    Authored b (Fat.prepared b v P true n) (n :: dirs) (written ++ (dotPair b P n).map (n, ·)) := by
  have hold := h.prepared hfree P true
  have hsub : dirs ⊆ n :: dirs := subset_cons_self n dirs
  have hchain : Chained b (Fat.prepared b v P true n).fat n [n] := chained_alloc hw v hn
  have hself : chainOf b (Fat.prepared b v P true n).fat n = [n] := hchain.chainOf_eq
  have hclus : (Fat.prepared b v P true n).clus n = dotRecords b n P := Vol.clus_setClus_self _ _ _
  obtain ⟨Z, hslots, hzero⟩ := slots_dotRecords (b := b) (n := n) (P := P) hw.spc_pos
  have hdir : dirSlots b (Fat.prepared b v P true n) [n] =
      ((b.clusterSector n, 0), dirRecord dotName 0x10 n 0) ::
        (recordLoc b n 1, dirRecord dotdotName 0x10 (if P = b.rootClus then 0 else P) 0) :: Z := by
    rw [dirSlots, flatMap_singleton, hclus, hslots]
  have hrecords : records (dotRecords b n P) = dotPair b P n ++ Z.map (·.2) := by
    rw [← map_clusterSlots b n, hslots]
    rfl
  have hapart : ∀ Q ∈ dirs, n ∉ chainOf b (Fat.prepared b v P true n).fat Q := by
    intro Q hQ hin
    have hcQ : Chained b (Fat.prepared b v P true n).fat Q (chainOf b v.fat Q) := (h.chained Q hQ).prepared hfree
    rw [hcQ.chainOf_eq] at hin
    exact (h.chained Q hQ).notMem_of_free hfree hin
  have hPcluster : (if P = b.rootClus then 0 else P) < 2 ^ 32 := by
    split_ifs
    · decide
    · have hcP := h.chained P hP
      exact lt_of_isCluster hw (hcP.isCluster (mem_of_head? (hcP.walk.head?_of_ne_nil (h.nonempty P hP))))
  have hpair : ∀ rec ∈ dotPair b P n, isFree rec = false ∧ NamesDir (n :: dirs) rec := fun rec hrec =>
    used_of_mem_dotPair (lt_of_isCluster hw hn) hPcluster hP hrec
  constructor
  · exact hsub hold.root
  · intro Q hQ
    rcases mem_cons.mp hQ with rfl | hQ
    · rw [hself]
      exact hchain
    · exact hold.chained Q hQ
  · intro Q hQ
    rcases mem_cons.mp hQ with rfl | hQ
    · rw [hself]
      exact cons_ne_nil _ _
    · exact hold.nonempty Q hQ
  · intro Q hQ
    rcases mem_cons.mp hQ with rfl | hQ
    · rw [hself]
      refine ⟨fun c hc => absurd hc not_mem_nil, fun c hc => ?_⟩
      obtain rfl : Q = c := Option.some.inj hc
      rw [hclus, hrecords]
      refine ended_of_used (fun r hr => firstByte_ne_zero_of_used (hpair r hr).1) (ended_of_zero fun r hr => ?_)
      obtain ⟨x, hx, rfl⟩ := mem_map.mp hr
      rw [hzero x hx]
      rfl
    · exact hold.closed Q hQ
  · intro Q hQ R hR hne
    rcases mem_cons.mp hQ with rfl | hQold
    · rcases mem_cons.mp hR with rfl | hR
      · exact absurd rfl hne
      · rw [hself]
        exact fun m hm hm' => hapart R hR (mem_singleton.mp hm ▸ hm')
    · rcases mem_cons.mp hR with rfl | hR
      · rw [hself]
        exact fun m hm hm' => hapart Q hQold (mem_singleton.mp hm' ▸ hm)
      · exact hold.apart Q hQold R hR hne
  · intro Q hQ r hr hu
    rcases mem_cons.mp hQ with rfl | hQ
    · rw [hself, hdir] at hr
      have hcase : r.2 ∈ dotPair b P Q ∨ r ∈ Z := by
        rcases mem_cons.mp hr with rfl | hr
        · exact .inl (by simp [dotPair])
        · rcases mem_cons.mp hr with rfl | hr
          · exact .inl (by simp [dotPair])
          · exact .inr hr
      rcases hcase with hrec | hz
      · exact (hpair r.2 hrec).2
      · have habs : isFree (replicate 32 0) = true := by decide
        rw [hzero r hz, habs] at hu
        cases hu
    · exact (hold.named Q hQ r hr hu).mono hsub
  · intro x hx
    rcases mem_append.mp hx with hx | hx
    · obtain ⟨hdir, hrest⟩ := hold.kept x hx
      exact ⟨hsub hdir, hrest⟩
    · obtain ⟨rec, hrec, rfl⟩ := mem_map.mp hx
      refine ⟨mem_cons_self, (hpair rec hrec).1, ?_⟩
      rw [hself, hdir]
      simp only [dotPair, mem_cons, not_mem_nil, or_false] at hrec
      rcases hrec with rfl | rfl
      · exact ⟨_, mem_cons_self⟩
      · exact ⟨_, mem_cons_of_mem _ mem_cons_self⟩

end

theorem sized_prepared (hsized : Sized b v) (hspc : 0 < b.secPerCluster) : Sized b (Fat.prepared b v P isDir n) := by
  intro x hx
  by_cases hxn : x = n
  · subst hxn
    cases isDir with
    | true =>
      rw [Fat.prepared, if_pos rfl, Vol.clus_setClus_self]
      exact length_dotRecords hspc
    | false =>
      rw [Fat.prepared, if_neg Bool.false_ne_true, clus_alloc_self]
      exact length_zeroCluster b
  · rw [clus_prepared_of_ne hxn]
    exact hsized x hx

/-- What a volume is like after a file or directory was made in `P`. -/
def AfterMake (b : Bpb) (dirs : List Nat) (written : List (Nat × List UInt8)) (P : Nat) (name : Name) (isDir : Bool)
    (n : Nat) (v' : Vol) : Prop :=
  Authored b v' (if isDir then n :: dirs else dirs)
    (written ++ (if isDir then (dotPair b P n).map (n, ·) else []) ++ [(P, newRecord name isDir n)])

theorem isFree_newRecord (name : Name) (isDir : Bool) (n : Nat) :
    isFree (newRecord name isDir n) = isFree (encodeShortName name) :=
  isFree_dirRecord (length_encodeShortName name)

theorem makes {blocks : Nat} (hw : b.WellSized blocks) (hsized : Sized b v) (h : Authored b v dirs written) (hP : P ∈ dirs)
    (hplain : isFree (encodeShortName name) = false) {full : Vol → Prop} {r : Except VfsError DirEntry}
    (hm : Makes b full v P (chainOf b v.fat P) name isDir r v') : (∀ e, r = .error e → Authored b v' dirs written) ∧
      ∀ e, r = .ok e → AfterMake b dirs written P name isDir e.cluster v' := by
  cases hm with
  | @made n loc _ l' hmade =>
    refine ⟨fun e he => (nomatch he), fun e he => ?_⟩
    cases he
    have hold := h.prepared hmade.free P isDir
    have hchain : Chained b (Fat.prepared b v P isDir n).fat P (chainOf b v.fat P) := (h.chained P hP).prepared hmade.free
    have hadded := hmade.added
    rw [← hchain.chainOf_eq] at hadded
    have hfilled := hadded.filled (sized_prepared hsized hw.spc_pos) (fun x hx => (hold.chained P hP).isCluster hx)
      hw.spc_pos
    have hcluster := lt_of_isCluster hw hmade.isCluster
    have hone : ∀ {dirs' : List Nat} {written' : List (Nat × List UInt8)},
        Authored b (Fat.prepared b v P isDir n) dirs' written' → P ∈ dirs' → (isDir = true → n ∈ dirs') →
        Authored b v' dirs' (written' ++ [(P, newRecord name isDir n)]) := by
      intro dirs' written' hmid hP' hn'
      refine hmid.fill hw (sized_prepared hsized hw.spc_pos) hP' hfilled ?_ ?_ ?_
      · intro rec hrec
        rw [mem_singleton.mp hrec]
        exact length_newRecord name isDir n
      · intro rec hrec
        rw [mem_singleton.mp hrec, isFree_newRecord]
        exact hplain
      · intro rec hrec
        rw [mem_singleton.mp hrec]
        exact namesDir_newRecord hcluster hn'
    cases isDir with
    | true =>
      have hdir := h.newDir hmade.isCluster hmade.free hw hP
      exact hone hdir (mem_cons_of_mem n hP) fun _ => mem_cons_self
    | false =>
      change Authored b v' dirs (written ++ [] ++ [_])
      rw [append_nil]
      exact hone hold hP fun habs => (nomatch habs)
  | noSpace => exact ⟨fun _ _ => h, fun e he => (nomatch he)⟩
  | lost hn hfree => exact ⟨fun _ _ => h.prepared hfree P isDir, fun e he => (nomatch he)⟩
  | noDir hl => exact absurd hl (h.nonempty P hP)

end Authored

end Ruos.Fat
