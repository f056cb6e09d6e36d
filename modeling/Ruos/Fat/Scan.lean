import Ruos.Fat.Access

/-! The records of a directory, and what reading, looking up and walking through directories
return for the volume that a device holds. -/
namespace Ruos.Fat

open Lib Vfs Block ErrorFree List Runs

section

variable [Unicode]

theorem scan_append (p : Option LfnRun) (xs ys : List Located) : scan p (xs ++ ys) =
      ((scan p xs).1 ++ ((scan p xs).2.elim [] fun p' => (scan p' ys).1), (scan p xs).2.bind fun p' => (scan p' ys).2) := by
  induction xs generalizing p with
  | nil => simp [scan]
  | cons r xs ih =>
    simp only [cons_append, scan]
    cases readSlot p r.2 with
    | finish => simp
    | skip p' => exact ih p'
    | entry name => simp [ih none]

theorem scan_zeros {Z : List Located} (hZ : ∀ r ∈ Z, r.2 = replicate 32 0) : (scan none Z).1 = [] := by
  cases Z with
  | nil => rfl
  | cons r Z =>
    have hzero : readSlot none r.2 = .finish := by
      rw [hZ r mem_cons_self, readSlot, if_pos (by decide)]
    rw [scan, hzero]

end

variable {b : Bpb} {v : Vol} {c : Nat} {l : List Nat}

def dirSlots (b : Bpb) (v : Vol) (l : List Nat) : List Located := l.flatMap fun c => clusterSlots b c (v.clus c)

theorem dirSlots_cons (b : Bpb) (v : Vol) (c : Nat) (l : List Nat) :
    dirSlots b v (c :: l) = clusterSlots b c (v.clus c) ++ dirSlots b v l := flatMap_cons

theorem dirSlots_append (b : Bpb) (v : Vol) (l l' : List Nat) :
    dirSlots b v (l ++ l') = dirSlots b v l ++ dirSlots b v l' := flatMap_append

variable {v' : Vol}

theorem dirSlots_congr (h : ∀ c ∈ l, v'.clus c = v.clus c) : dirSlots b v' l = dirSlots b v l := by
  induction l with
  | nil => rfl
  | cons c l ih =>
    obtain ⟨hc, hl⟩ := forall_mem_cons.mp h
    rw [dirSlots_cons, dirSlots_cons, hc, ih hl]

theorem length_clusterSlots (b : Bpb) (c : Nat) (buf : List UInt8) :
    (clusterSlots b c buf).length = buf.length / 32 := by
  rw [clusterSlots, length_mapIdx, records, length_pieces]

theorem mem_dirSlots {r : Located} (h : r ∈ dirSlots b v l) :
    ∃ d ∈ l, ∃ i, i < (v.clus d).length / 32 ∧ r = (recordLoc b d i, slice (v.clus d) (i * 32) 32) := by
  obtain ⟨d, hd, hr⟩ := mem_flatMap.mp h
  obtain ⟨i, hi, rfl⟩ := mem_mapIdx.mp hr
  have hlt : i < (v.clus d).length / 32 := by rwa [records, length_pieces] at hi
  refine ⟨d, hd, i, hlt, ?_⟩
  simp [records, pieces]

theorem clusterSlots_splice {buf : List UInt8} {i : Nat} {run : List (List UInt8)} (hrun : ∀ r ∈ run, r.length = 32)
    (hi : i + run.length ≤ buf.length / 32) : clusterSlots b c (splice buf (i * 32) run.flatten) =
      (clusterSlots b c buf).take i ++ run.mapIdx (fun j r => (recordLoc b c (i + j), r)) ++
        (clusterSlots b c buf).drop (i + run.length) := by
  have hpieces := pieces_splice (by norm_num) hrun hi
  have htake : ((pieces 32 buf).take i).length = i := by
    rw [length_take, length_pieces]
    omega
  apply ext_getElem?
  intro j
  simp only [clusterSlots, records, hpieces, getElem?_mapIdx]
  rw [append_assoc, append_assoc]
  by_cases hlow : j < i
  · rw [getElem?_append_left (by omega), getElem?_append_left (by simp; rw [length_pieces]; omega),
      getElem?_take_of_lt hlow, getElem?_take_of_lt hlow, getElem?_mapIdx]
  · obtain ⟨t, rfl⟩ := Nat.exists_eq_add_of_le (Nat.le_of_not_lt hlow)
    have htake' : (((pieces 32 buf).mapIdx fun j r => (recordLoc b c j, r)).take i).length = i := by
      rw [length_take, length_mapIdx, length_pieces]
      omega
    rw [getElem?_append_right (Nat.le_trans (Nat.le_of_eq htake) (Nat.le_add_right i t)),
      getElem?_append_right (Nat.le_trans (Nat.le_of_eq htake') (Nat.le_add_right i t)), htake, htake',
      Nat.add_sub_cancel_left]
    by_cases hin : t < run.length
    · rw [getElem?_append_left hin, getElem?_append_left (by rwa [length_mapIdx]), getElem?_mapIdx]
    · have hidx : i + run.length + (t - run.length) = i + t := by omega
      have hlen : (run.mapIdx fun j r => (recordLoc b c (i + j), r)).length ≤ t := by
        rw [length_mapIdx]
        omega
      rw [getElem?_append_right (Nat.le_of_not_lt hin), getElem?_append_right hlen, length_mapIdx,
        getElem?_drop, getElem?_drop, getElem?_mapIdx, hidx]

theorem clusterSlots_splice_one {buf rec : List UInt8} {i : Nat} (hrec : rec.length = 32) (hi : i < buf.length / 32) :
    clusterSlots b c (splice buf (i * 32) rec) =
      (clusterSlots b c buf).take i ++ (recordLoc b c i, rec) :: (clusterSlots b c buf).drop (i + 1) := by
  have hslots := @clusterSlots_splice b c buf i [rec] (by simpa using hrec) hi
  rw [flatten_singleton, mapIdx_cons,
    append_assoc] at hslots
  exact hslots

theorem dirSlots_split {l₁ l₂ : List Nat} (v : Vol) :
    dirSlots b v (l₁ ++ c :: l₂) = dirSlots b v l₁ ++ (clusterSlots b c (v.clus c) ++ dirSlots b v l₂) := by
  rw [dirSlots_append, dirSlots_cons]

theorem dirSlots_setClus {l₁ l₂ : List Nat} {data : List UInt8} (hnodup : (l₁ ++ c :: l₂).Nodup) :
    dirSlots b (v.setClus c data) (l₁ ++ c :: l₂) =
      dirSlots b v l₁ ++ (clusterSlots b c data ++ dirSlots b v l₂) := by
  have hne : ∀ x ∈ l₁ ++ l₂, x ≠ c := by
    intro x hx heq
    have hmid := nodup_middle.mp hnodup
    exact (nodup_cons.mp hmid).1 (heq ▸ hx)
  have hclus : ∀ x ∈ l₁ ++ l₂, (v.setClus c data).clus x = v.clus x := fun x hx =>
    Function.update_of_ne (hne x hx) _ _
  have hself : (v.setClus c data).clus c = data := Function.update_self _ _ _
  rw [dirSlots_split, hself, dirSlots_congr fun x hx => hclus x (mem_append_left _ hx),
    dirSlots_congr fun x hx => hclus x (mem_append_right _ hx)]

open Classical in
/-- The clusters of the chain from `c`, if it has an end inside the volume. -/
noncomputable def chainOf (b : Bpb) (fat : Nat → Nat) (c : Nat) : List Nat :=
  if h : ∃ l, Chained b fat c l then h.choose else []

theorem Chained.chainOf_eq {fat : Nat → Nat} (h : Chained b fat c l) : chainOf b fat c = l := by
  have hex : ∃ l, Chained b fat c l := ⟨l, h⟩
  rw [chainOf, dif_pos hex]
  exact hex.choose_spec.unique h

variable [Unicode]

/-- What `read_dir_entries` finds in a directory. -/
noncomputable def dirEntries (b : Bpb) (v : Vol) (c : Nat) : List DirEntry :=
  (scan none (dirSlots b v (chainOf b v.fat c))).1

theorem dirEntries_eq (h : Chained b v.fat c l) : dirEntries b v c = (scan none (dirSlots b v l)).1 := by
  rw [dirEntries, h.chainOf_eq]

noncomputable def walkIn (b : Bpb) (v : Vol) : (cur : Nat) → (ps : List Name) → Except VfsError Nat
  | cur, [] => .ok cur
  | cur, p :: ps =>
    match findName (dirEntries b v cur) p with
    | none => .error .notFound
    | some e => if e.isDir then walkIn b v e.cluster ps else .error .notDirectory

/-- The directories that a walk reads are chains inside the volume, apart from the clusters `l`. -/
def PathOk (b : Bpb) (v : Vol) (l : List Nat) : (cur : Nat) → (ps : List Name) → Prop
  | _, [] => True
  | cur, p :: ps => (∃ l', Chained b v.fat cur l' ∧ l'.Disjoint l) ∧
    ∀ e, findName (dirEntries b v cur) p = some e → e.isDir = true → PathOk b v l e.cluster ps

/-- Clusters in use outside `l` are the same in both volumes. -/
def SameElsewhere (l : List Nat) (v v' : Vol) : Prop :=
  ∀ x, x ∉ l → v.fat x ≠ 0 → v'.fat x = v.fat x ∧ v'.clus x = v.clus x

omit [Unicode] in
theorem SameElsewhere.chained {l' : List Nat} (h : SameElsewhere l v v') (hc : Chained b v.fat c l')
    (hd : l'.Disjoint l) : Chained b v'.fat c l' :=
  hc.congr fun x hx => (h x (hd hx) (hc.mem x hx).2).1

theorem SameElsewhere.dirEntries {l' : List Nat} (h : SameElsewhere l v v') (hc : Chained b v.fat c l')
    (hd : l'.Disjoint l) : dirEntries b v' c = dirEntries b v c := by
  rw [dirEntries_eq (h.chained hc hd), dirEntries_eq hc,
    dirSlots_congr fun x hx => (h x (hd hx) (hc.mem x hx).2).2]

theorem SameElsewhere.walkIn (h : SameElsewhere l v v') {ps : List Name} (hp : PathOk b v l c ps) :
    walkIn b v' c ps = walkIn b v c ps ∧ PathOk b v' l c ps := by
  induction ps generalizing c with
  | nil => exact ⟨rfl, trivial⟩
  | cons p ps ih =>
    obtain ⟨⟨l', hc, hd⟩, hnext⟩ := hp
    have hent := h.dirEntries hc hd
    refine ⟨?_, ⟨l', h.chained hc hd, hd⟩, fun e he hdir => ?_⟩
    · rw [Fat.walkIn, Fat.walkIn, hent]
      cases he : findName (Fat.dirEntries b v c) p with
      | none => rfl
      | some e =>
        cases hdir : e.isDir with
        | false => simp [hdir]
        | true =>
          simp only [hdir, if_true]
          exact (ih (hnext e he hdir)).1
    · rw [hent] at he
      exact (ih (hnext e he hdir)).2

/-- A walk does not leave what its directories are among. -/
theorem walk_invariant {I : Nat → Prop} (hchain : ∀ c, I c → ∃ l, Chained b v.fat c l)
    (hnext : ∀ c p e, I c → findName (dirEntries b v c) p = some e → e.isDir = true → I e.cluster) (hc : I c)
    (ps : List Name) : PathOk b v [] c ps ∧ ∀ P, walkIn b v c ps = .ok P → I P := by
  induction ps generalizing c with
  | nil =>
    refine ⟨trivial, fun P hP => ?_⟩
    cases hP
    exact hc
  | cons p ps ih =>
    obtain ⟨l, hl⟩ := hchain c hc
    refine ⟨⟨⟨l, hl, disjoint_nil_right _⟩, fun e he hdir => (ih (hnext c p e hc he hdir)).1⟩, fun P hP => ?_⟩
    rw [walkIn] at hP
    cases he : findName (dirEntries b v c) p with
    | none =>
      rw [he] at hP
      cases hP
    | some e =>
      rw [he] at hP
      dsimp only at hP
      split_ifs at hP with hdir
      exact (ih (hnext c p e hc he hdir)).2 P hP

def found : Option DirEntry → Except VfsError DirEntry
  | some e => .ok e
  | none => .error .notFound

omit [Unicode] in
theorem found_inj {x y : Option DirEntry} (h : found x = found y) : x = y := by
  cases x <;> cases y <;> cases h <;> rfl

section

variable {S : Type} [BlockDevice S]

theorem lookupFrom_eq (b : Bpb) (cur : Nat) (ps : List Name) (p : Name) :
    (lookupFrom b cur (ps ++ [p]) : FatM S DirEntry) = walkDirs b cur ps >>= fun c => findEntry b c p := by
  induction ps generalizing cur with
  | nil => simp [lookupFrom, walkDirs]
  | cons q ps ih =>
    obtain ⟨q', ps', hps⟩ : ∃ q' ps', ps ++ [p] = q' :: ps' := by
      cases ps with
      | nil => exact ⟨p, [], rfl⟩
      | cons q' ps => exact ⟨q', ps ++ [p], rfl⟩
    rw [cons_append, hps, walkDirs, bind_assoc]
    refine bind_congr fun e => ?_
    rw [bind_assoc, ← hps]
    exact bind_congr fun _ => ih e.cluster

variable [ErrorFree S] {s₀ : S} (hw : b.WellSized (blocks s₀))
include hw

theorem runs_readClusters (hl : ∀ c ∈ l, b.IsCluster c) (p : Option LfnRun) :
    Runs (Holds b s₀) (readClusters b l p) v (.ok (scan p (dirSlots b v l)).1) v := by
  induction l generalizing p with
  | nil => exact pure [] v
  | cons c l ih =>
    obtain ⟨hc, hl⟩ := forall_mem_cons.mp hl
    refine (runs_readCluster hw hc).bind ?_
    rw [dirSlots_cons, scan_append]
    cases hscan : scan p (clusterSlots b c (v.clus c)) with
    | mk es p' =>
      cases p' with
      | none =>
        simp only [Option.elim_none, append_nil]
        exact pure es v
      | some p' =>
        exact (ih hl p').bind (pure _ v)

theorem runs_readDirEntries (h : Chained b v.fat c l) :
    Runs (Holds b s₀) (readDirEntries b c) v (.ok (dirEntries b v c)) v := by
  rw [dirEntries_eq h]
  exact (runs_chain hw h).bind (runs_readClusters hw (fun x hx => h.isCluster hx) none)

theorem runs_readdir_root (h : Chained b v.fat b.rootClus l) :
    Runs (Holds b s₀) (readdir b []) v (.ok ((dirEntries b v b.rootClus).map direntOf)) v := by
  exact (pure b.rootClus v).bind ((runs_readDirEntries hw h).bind (pure _ v))

theorem runs_findEntry (h : Chained b v.fat c l) (p : Name) :
    Runs (Holds b s₀) (findEntry b c p) v (found (findName (dirEntries b v c) p)) v := by
  refine (runs_readDirEntries hw h).bind ?_
  cases findName (dirEntries b v c) p with
  | some e => exact pure e v
  | none => exact throw _ v

theorem runs_walkDirs {ps : List Name} (h : PathOk b v l c ps) :
    Runs (Holds b s₀) (walkDirs b c ps) v (walkIn b v c ps) v := by
  induction ps generalizing c with
  | nil => exact pure c v
  | cons p ps ih =>
    obtain ⟨⟨l', hl, -⟩, hnext⟩ := h
    have hfind := runs_findEntry hw hl p
    rw [walkIn]
    cases he : findName (dirEntries b v c) p with
    | none =>
      rw [he] at hfind
      exact hfind.bind_error
    | some e =>
      rw [he] at hfind
      refine hfind.bind ?_
      cases hdir : e.isDir with
      | false =>
        simp only [hdir, Bool.false_eq_true, if_false]
        exact (failIf_true (by simp) _ v).bind_error
      | true =>
        simp only [hdir, if_true]
        exact (failIf_false (by simp) _ v).bind (ih (hnext e he hdir))

end
end Ruos.Fat
