import Ruos.Vfs.TmpfsRefinement

/-! The mount table and the path-based calls that are routed through it (`vfs/mod.rs`,
`vfs/fs.rs`). FAT32 and ISO 9660 volumes are parameters here: neither supports `rename`. -/
namespace Ruos.Vfs

open List Option Prod Except

/-- `FsImpl`; a mounted tmpfs carries the proof that its inodes form a tree. -/
inductive FsImpl (F I : Type) where
  | tmpfs (fs : { t : Tmpfs // t.Tree })
  | fat32 (fs : F)
  | iso9660 (fs : I)

variable {F I : Type}

def FsImpl.rename (src dst : List Name) : FsImpl F I → Except VfsError Unit × FsImpl F I
  | .tmpfs t => ((t.1.rename src dst).1, .tmpfs ⟨(t.1.rename src dst).2, (t.2.rename_simulates src dst).tree⟩)
  | .fat32 fs => (.error .unsupported, .fat32 fs)
  | .iso9660 fs => (.error .unsupported, .iso9660 fs)

/-- `MOUNTS`: the prefix of each mount and its file system. -/
abbrev Mounts (F I : Type) := List (List Char × FsImpl F I)

namespace Mounts

def mount (mounts : Mounts F I) (point : List Char) (fs : FsImpl F I) : Except VfsError (Mounts F I) :=
  if point.head? ≠ some '/' then .error .invalidPath else .ok (mounts ++ [(point, fs)])

def isMounted (mounts : Mounts F I) (point : List Char) : Bool :=
  mounts.any fun m => m.1 = point

/-- `is_busy`: a file of the volume is still open. -/
def unmount (isBusy : F → Bool) (mounts : Mounts F I) (point : List Char) : Except VfsError (Mounts F I) :=
  if point = ['/'] then .error .invalidPath
  else
    match mounts.findIdx? fun m => m.1 = point with
    | none => .error .notFound
    | some idx =>
      match mounts[idx]? with
      | some (_, .fat32 fs) => if isBusy fs then .error .busy else .ok (mounts.eraseIdx idx)
      | _ => .ok (mounts.eraseIdx idx)

def want (point : List Char) : List Name := (point.splitOn '/').filter (· ≠ [])

/-- The loop of `resolve` from mount `idx` on. -/
def resolveFrom (abspath : List Name) : Mounts F I → (idx bestIdx bestDepth : Nat) → Nat × Nat
  | [], _, bestIdx, bestDepth => (bestIdx, bestDepth)
  | (point, _) :: mounts, idx, bestIdx, bestDepth =>
    if point = ['/'] then resolveFrom abspath mounts (idx + 1) bestIdx bestDepth
    else if abspath.length < (want point).length then resolveFrom abspath mounts (idx + 1) bestIdx bestDepth
    else if abspath.take (want point).length = want point ∧ bestDepth < (want point).length then
      resolveFrom abspath mounts (idx + 1) idx (want point).length
    else resolveFrom abspath mounts (idx + 1) bestIdx bestDepth

def resolve (mounts : Mounts F I) (abspath : List Name) : Except VfsError (Nat × List Name) :=
  if mounts = [] then .error .notFound
  else
    let best := resolveFrom abspath mounts 0 0 0
    .ok (best.1, abspath.drop best.2)

def rename (mounts : Mounts F I) (src dst : List Char) : Except VfsError Unit × Mounts F I :=
  let resolved : Except VfsError (Nat × List Name × List Name) := do
    let sp ← Path.split src
    let dp ← Path.split dst
    let (idx, srcSub) ← mounts.resolve sp
    let (_, dstSub) ← mounts.resolve dp
    return (idx, srcSub, dstSub)
  match resolved with
  | .error e => (.error e, mounts)
  | .ok (idx, srcSub, dstSub) =>
    match mounts[idx]? with
    | none => (.error .other, mounts)
    | some (point, fs) =>
      ((fs.rename srcSub dstSub).1, mounts.set idx (point, (fs.rename srcSub dstSub).2))

def numPairs : Nat := 8

/-- The nodes that `init` makes, in its order. -/
def initNodes : List (List Name × TmpKind) :=
  [(["dev".toList], .dir), (["tmp".toList], .dir), (["bin".toList], .dir), (["etc".toList], .dir),
    (["mnt".toList], .dir), (["dev".toList, "console".toList], .devConsole),
    (["dev".toList, "null".toList], .devNull), (["dev".toList, "zero".toList], .devZero),
    (["dev".toList, "pts".toList], .dir)] ++
  (List.range numPairs).map fun i => (["dev".toList, "pts".toList, Nat.toDigits 10 i], .ptySlave i)

def populate (fs : { t : Tmpfs // t.Tree }) :
    List (List Name × TmpKind) → Except VfsError { t : Tmpfs // t.Tree }
  | [] => .ok fs
  | (path, kind) :: nodes =>
    let out := fs.1.insertNew path ⟨kind, ∅, .empty⟩
    match out.1 with
    | .error e => .error e
    | .ok () => populate ⟨out.2, (fs.2.insertNew_simulates path rfl).tree⟩ nodes

def init (mounts : Mounts F I) : Except VfsError (Nat × Mounts F I) := do
  if mounts ≠ [] then throw .alreadyExists
  let fs ← populate ⟨.new, Tmpfs.tree_new⟩ initNodes
  let mounts ← mounts.mount ['/'] (.tmpfs fs)
  return (mounts.length, mounts)

/-- The root mount comes first, as `init` leaves it; `resolve` falls back on the first mount. -/
def RootFirst (mounts : Mounts F I) : Prop := ∃ fs rest, mounts = (['/'], fs) :: rest

variable {mounts : Mounts F I} {abspath : List Name}

theorem init_ok : ∃ fs, init ([] : Mounts F I) = .ok (1, [(['/'], .tmpfs fs)]) := by
  have hok : (populate ⟨.new, Tmpfs.tree_new⟩ initNodes).isOk := by decide +kernel
  cases hp : populate ⟨.new, Tmpfs.tree_new⟩ initNodes with
  | error e => simp [hp, Except.isOk, Except.toBool] at hok
  | ok fs => exact ⟨fs, by simp [init, hp, mount, bind, Except.bind, pure, Except.pure]⟩

theorem RootFirst.mount (h : mounts.RootFirst) {point : List Char} {fs : FsImpl F I} {mounts' : Mounts F I}
    (hm : mounts.mount point fs = .ok mounts') : mounts'.RootFirst := by
  obtain ⟨root, rest, rfl⟩ := h
  unfold Mounts.mount at hm
  split_ifs at hm
  cases hm
  exact ⟨root, rest ++ [(point, fs)], rfl⟩

theorem RootFirst.unmount (h : mounts.RootFirst) {isBusy : F → Bool} {point : List Char}
    {mounts' : Mounts F I} (hm : mounts.unmount isBusy point = .ok mounts') : mounts'.RootFirst := by
  obtain ⟨root, rest, rfl⟩ := h
  unfold Mounts.unmount at hm
  split_ifs at hm with hpoint
  have hskip : findIdx? (fun m => decide (m.1 = point)) ((['/'], root) :: rest) =
      (rest.findIdx? fun m => decide (m.1 = point)).map (· + 1) := by
    simp [findIdx?_cons, Ne.symm hpoint]
  rw [hskip] at hm
  cases hidx : rest.findIdx? fun m => decide (m.1 = point) with
  | none => simp [hidx] at hm
  | some idx =>
    have hmounts : mounts' = (['/'], root) :: rest.eraseIdx idx := by
      simp only [hidx, map_some, eraseIdx_cons_succ] at hm
      split at hm
      · split_ifs at hm
        exact (ok.inj hm).symm
      · exact (ok.inj hm).symm
    exact ⟨root, rest.eraseIdx idx, hmounts⟩

/-- `best` is one of the mounts that are numbered from `idx`, and its prefix covers the path. -/
def Matches (abspath : List Name) (mounts : Mounts F I) (idx : Nat) (best : Nat × Nat) : Prop :=
  ∃ k m, mounts[k]? = some m ∧ abspath.take (want m.1).length = want m.1 ∧ best = (idx + k, (want m.1).length)

variable {m : List Char × FsImpl F I} {idx : Nat}

theorem Matches.tail {best : Nat × Nat} (h : Matches abspath mounts (idx + 1) best) :
    Matches abspath (m :: mounts) idx best := by
  obtain ⟨k, m', hm', htake, rfl⟩ := h
  exact ⟨k + 1, m', hm', htake, by congr 1; omega⟩

theorem resolveFrom_cases (mounts : Mounts F I) (abspath : List Name) (idx bestIdx bestDepth : Nat) :
    resolveFrom abspath mounts idx bestIdx bestDepth = (bestIdx, bestDepth) ∨
      Matches abspath mounts idx (resolveFrom abspath mounts idx bestIdx bestDepth) := by
  induction mounts generalizing idx bestIdx bestDepth with
  | nil => exact .inl rfl
  | cons m ms ih =>
    obtain ⟨point, fs⟩ := m
    unfold resolveFrom
    split_ifs with hroot hlong hmatch
    · exact (ih ..).imp_right .tail
    · exact (ih ..).imp_right .tail
    · rcases ih (idx + 1) idx (want point).length with hkeep | hlater
      · rw [hkeep]
        exact .inr ⟨0, _, rfl, hmatch.1, rfl⟩
      · exact .inr hlater.tail
    · exact (ih ..).imp_right .tail

theorem resolve_spec (hroot : mounts.RootFirst) {sub : List Name} (h : mounts.resolve abspath = .ok (idx, sub)) :
    ∃ m, mounts[idx]? = some m ∧ abspath = want m.1 ++ sub := by
  obtain ⟨fs, rest, rfl⟩ := hroot
  obtain ⟨rfl, rfl⟩ : (resolveFrom abspath ((['/'], fs) :: rest) 0 0 0).1 = idx ∧
      abspath.drop (resolveFrom abspath ((['/'], fs) :: rest) 0 0 0).2 = sub := by
    simpa [resolve] using h
  rcases resolveFrom_cases ((['/'], fs) :: rest) abspath 0 0 0 with hdefault | ⟨k, m, hm, htake, hbest⟩
  · rw [hdefault]
    exact ⟨(['/'], fs), rfl, rfl⟩
  · rw [hbest]
    refine ⟨m, by simpa using hm, ?_⟩
    conv_lhs => rw [← take_append_drop (want m.1).length abspath, htake]

theorem resolve_ok (hroot : mounts.RootFirst) (abspath : List Name) :
    ∃ idx sub, mounts.resolve abspath = .ok (idx, sub) := by
  obtain ⟨fs, rest, rfl⟩ := hroot
  exact ⟨_, _, if_neg (cons_ne_nil _ _)⟩

theorem resolveFrom_congr {mounts mounts' : Mounts F I} (h : mounts.map fst = mounts'.map fst)
    (abspath : List Name) (idx bestIdx bestDepth : Nat) :
    resolveFrom abspath mounts idx bestIdx bestDepth = resolveFrom abspath mounts' idx bestIdx bestDepth := by
  induction mounts generalizing mounts' idx bestIdx bestDepth with
  | nil =>
    cases mounts' with
    | nil => rfl
    | cons m' ms' => simp at h
  | cons m ms ih =>
    cases mounts' with
    | nil => simp at h
    | cons m' ms' =>
      obtain ⟨hpoint, hrest⟩ : m.1 = m'.1 ∧ ms.map fst = ms'.map fst := by simpa using h
      simp only [resolveFrom, hpoint, ih hrest]

theorem resolve_set (hm : mounts[idx]? = some m) (fs : FsImpl F I) (abspath : List Name) :
    resolve (mounts.set idx (m.1, fs)) abspath = mounts.resolve abspath := by
  have hpoints : (mounts.set idx (m.1, fs)).map fst = mounts.map fst := by
    obtain ⟨hlt, rfl⟩ := List.getElem?_eq_some_iff.mp hm
    rw [map_set, ← getElem_map fst, set_getElem_self]
    simpa using hlt
  have hnil : mounts.set idx (m.1, fs) = [] ↔ mounts = [] := by simp
  unfold resolve
  rw [resolveFrom_congr hpoints]
  by_cases h : mounts = []
  · rw [if_pos h, if_pos (hnil.mpr h)]
  · rw [if_neg h, if_neg (mt hnil.mp h)]

variable {N : Type} (fatNode : F → List Name → Option N) (isoNode : I → List Name → Option N)

/-- What the components below a mount lead to; the nodes of the other two file systems are
whatever their lookups say. -/
def node (sub : List Name) : FsImpl F I → Option (NodeId ⊕ N)
  | .tmpfs t => (t.1.at? sub).map .inl
  | .fat32 fs => (fatNode fs sub).map .inr
  | .iso9660 fs => (isoNode fs sub).map .inr

/-- The node a path leads to, with the number of the mount it is on. -/
def nodeAt (mounts : Mounts F I) (abspath : List Name) : Option (Nat × (NodeId ⊕ N)) :=
  match mounts.resolve abspath with
  | .error _ => none
  | .ok (idx, sub) => mounts[idx]?.bind fun m => (node fatNode isoNode sub m.2).map fun n => (idx, n)

variable {fatNode isoNode} in
theorem nodeAt_of_resolve {sub : List Name} (h : mounts.resolve abspath = .ok (idx, sub))
    (hm : mounts[idx]? = some m) :
    nodeAt fatNode isoNode mounts abspath = (node fatNode isoNode sub m.2).map fun n => (idx, n) := by
  simp [nodeAt, h, hm]

theorem FsImpl.node_rename {fs fs' : FsImpl F I} {src dst : List Name}
    (h : fs.rename src dst = (.ok (), fs')) (hne : src ≠ dst) :
    (∃ n, node fatNode isoNode src fs = some n ∧ node fatNode isoNode dst fs' = some n) ∧
      node fatNode isoNode src fs' = none ∧
      ∀ q, ¬ src <+: q → ¬ dst <+: q → node fatNode isoNode q fs' = node fatNode isoNode q fs := by
  cases fs with
  | tmpfs t =>
    obtain ⟨hok, rfl⟩ := Prod.mk.inj h
    obtain ⟨⟨c, hc, hc'⟩, hsrc, hother⟩ := t.2.rename_ok (Prod.ext hok rfl) hne
    refine ⟨⟨.inl c, by simp [node, hc], by simp [node, hc']⟩, by simp [node, hsrc], fun q hsq hdq => ?_⟩
    simp [node, hother q hsq hdq]
  | fat32 | iso9660 => cases h

theorem FsImpl.rename_self (fs : FsImpl F I) (p : List Name) : (fs.rename p p).2 = fs := by
  cases fs with
  | tmpfs t => simp [FsImpl.rename, Tmpfs.rename]
  | fat32 | iso9660 => rfl

theorem rename_eq {src dst : List Char} {sp dp : List Name} (hsp : Path.split src = .ok sp)
    (hdp : Path.split dst = .ok dp) {idx didx : Nat} {ssub dsub : List Name}
    (hs : mounts.resolve sp = .ok (idx, ssub)) (hd : mounts.resolve dp = .ok (didx, dsub))
    (hm : mounts[idx]? = some m) :
    mounts.rename src dst = ((m.2.rename ssub dsub).1, mounts.set idx (m.1, (m.2.rename ssub dsub).2)) := by
  simp [rename, hsp, hdp, hs, hd, hm, bind, Except.bind, pure, Except.pure]

/-- Renaming within one mount: an identical pair of paths is left as it is; otherwise the
node of the source is found at the destination and nowhere else, and paths outside the two
subtrees lead where they led. -/
theorem rename_within_mount (mounts : Mounts F I) (hroot : mounts.RootFirst) (src dst : List Char)
    (sp dp : List Name) (hsp : Path.split src = .ok sp) (hdp : Path.split dst = .ok dp)
    (hsame : (mounts.resolve sp).map Prod.fst = (mounts.resolve dp).map Prod.fst)
    (mounts' : Mounts F I) (hok : mounts.rename src dst = (.ok (), mounts')) : if sp = dp then mounts' = mounts else
      (∃ n, nodeAt fatNode isoNode mounts sp = some n ∧ nodeAt fatNode isoNode mounts' dp = some n) ∧
        nodeAt fatNode isoNode mounts' sp = none ∧ ∀ q, ¬ sp <+: q → ¬ dp <+: q →
          nodeAt fatNode isoNode mounts' q = nodeAt fatNode isoNode mounts q := by
  obtain ⟨idx, ssub, hs⟩ := resolve_ok hroot sp
  obtain ⟨didx, dsub, hd⟩ := resolve_ok hroot dp
  obtain rfl : idx = didx := by simpa [hs, hd, Except.map] using hsame
  obtain ⟨m, hm, rfl⟩ := resolve_spec hroot hs
  obtain ⟨m', hm', rfl⟩ := resolve_spec hroot hd
  obtain rfl : m = m' := some.inj (hm.symm.trans hm')
  rw [rename_eq hsp hdp hs hd hm] at hok
  obtain ⟨hres, rfl⟩ := Prod.mk.inj hok
  have hset := resolve_set hm (m.2.rename ssub dsub).2
  have hm' : (mounts.set idx (m.1, (m.2.rename ssub dsub).2))[idx]? = some (m.1, (m.2.rename ssub dsub).2) := by
    simp [(List.getElem?_eq_some_iff.mp hm).1]
  split_ifs with heq
  · obtain rfl : ssub = dsub := append_cancel_left heq
    obtain ⟨hlt, rfl⟩ := List.getElem?_eq_some_iff.mp hm
    rw [FsImpl.rename_self]
    exact set_getElem_self hlt
  · have hne : ssub ≠ dsub := fun h => heq (by rw [h])
    obtain ⟨⟨n, hn, hn'⟩, hnone, hother⟩ := FsImpl.node_rename fatNode isoNode (Prod.ext hres rfl) hne
    refine ⟨⟨(idx, n), ?_, ?_⟩, ?_, fun q hsq hdq => ?_⟩
    · rw [nodeAt_of_resolve hs hm, hn]
      rfl
    · rw [nodeAt_of_resolve ((hset _).trans hd) hm', hn']
      rfl
    · rw [nodeAt_of_resolve ((hset _).trans hs) hm', hnone]
      rfl
    · obtain ⟨j, sub, hq⟩ := resolve_ok hroot q
      obtain ⟨mq, hmq, rfl⟩ := resolve_spec hroot hq
      rw [nodeAt_of_resolve hq hmq]
      by_cases hj : idx = j
      · subst hj
        obtain rfl : m = mq := some.inj (hm.symm.trans hmq)
        rw [nodeAt_of_resolve ((hset _).trans hq) hm', hother sub]
        · rwa [prefix_append_right_inj] at hsq
        · rwa [prefix_append_right_inj] at hdq
      · rw [nodeAt_of_resolve ((hset _).trans hq) (by rw [getElem?_set_ne hj, hmq])]

theorem rename_within_mount_tmp : ∃ mounts : Mounts Unit Unit, init [] = .ok (1, mounts) ∧
      (mounts.rename "/tmp".toList "/var".toList).1 = .ok () ∧
      nodeAt (fun _ _ => (none : Option Unit)) (fun _ _ => none)
        (mounts.rename "/tmp".toList "/var".toList).2 ["tmp".toList] = none := by
  have hrun : ((init ([] : Mounts Unit Unit)).map fun x =>
      (x.2.rename "/tmp".toList "/var".toList).1) = .ok (.ok ()) := by decide +kernel
  obtain ⟨fs, hinit⟩ := @init_ok Unit Unit
  rw [hinit] at hrun
  have hok := ok.inj hrun
  have hthm := rename_within_mount (fun _ _ => (none : Option Unit)) (fun _ _ => none)
    [(['/'], .tmpfs fs)] ⟨_, _, rfl⟩ "/tmp".toList "/var".toList ["tmp".toList] ["var".toList]
    (by decide) (by decide) rfl _ (Prod.ext hok rfl)
  exact ⟨_, hinit, hok, hthm.2.1⟩

/-- Renaming a path to itself succeeds and leaves the source where it is. -/
theorem rename_self_keeps_source : ∃ mounts : Mounts Unit Unit, init [] = .ok (1, mounts) ∧
      (mounts.rename "/tmp".toList "/tmp".toList).1 = .ok () ∧
      nodeAt (fun _ _ => (none : Option Unit)) (fun _ _ => none)
        (mounts.rename "/tmp".toList "/tmp".toList).2 ["tmp".toList] ≠ none := by
  have hrun : ((init ([] : Mounts Unit Unit)).map fun x =>
      let out := x.2.rename "/tmp".toList "/tmp".toList
      (out.1, (nodeAt (fun _ _ => (none : Option Unit)) (fun _ _ => none) out.2 ["tmp".toList]).isSome)) =
      .ok (.ok (), true) := by decide +kernel
  obtain ⟨fs, hinit⟩ := @init_ok Unit Unit
  rw [hinit] at hrun
  obtain ⟨hok, hsome⟩ := mk.inj (ok.inj hrun)
  exact ⟨_, hinit, hok, isSome_iff_ne_none.mp hsome⟩

/-- A call of `mount` or `unmount`, or any work of the file system at `idx`. -/
inductive TableCall (F I : Type) where
  | mount (point : List Char) (fs : FsImpl F I)
  | unmount (isBusy : F → Bool) (point : List Char)
  | work (idx : Nat) (f : FsImpl F I → FsImpl F I)

def call (mounts : Mounts F I) : TableCall F I → Mounts F I
  | .mount point fs => (mounts.mount point fs).toOption.getD mounts
  | .unmount isBusy point => (mounts.unmount isBusy point).toOption.getD mounts
  | .work idx f => mounts.modify idx (map id f)

theorem RootFirst.call (h : mounts.RootFirst) (c : TableCall F I) : (mounts.call c).RootFirst := by
  rcases c with ⟨point, fs⟩ | ⟨isBusy, point⟩ | ⟨idx, f⟩ <;> rw [Mounts.call]
  · cases hm : mounts.mount point fs with
    | error => exact h
    | ok => exact h.mount hm
  · cases hm : mounts.unmount isBusy point with
    | error => exact h
    | ok => exact h.unmount hm
  · obtain ⟨root, rest, rfl⟩ := h
    cases idx with
    | zero => exact ⟨f root, rest, rfl⟩
    | succ idx => exact ⟨root, rest.modify idx (map id f), rfl⟩

/-- No prefix of the path is deeper than the one that the loop ends with. -/
theorem le_resolveFrom (mounts : Mounts F I) (idx bestIdx bestDepth : Nat) :
    bestDepth ≤ (resolveFrom abspath mounts idx bestIdx bestDepth).2 ∧ ∀ m ∈ mounts, want m.1 <+: abspath →
      (want m.1).length ≤ (resolveFrom abspath mounts idx bestIdx bestDepth).2 := by
  induction mounts generalizing idx bestIdx bestDepth with
  | nil => simp [resolveFrom]
  | cons m ms ih =>
    rw [forall_mem_cons, resolveFrom]
    split_ifs with hroot hlong hmatch
    · exact ⟨(ih ..).1, fun _ => hroot ▸ Nat.zero_le _, (ih ..).2⟩
    · exact ⟨(ih ..).1, fun h => absurd h.length_le (by omega), (ih ..).2⟩
    · exact ⟨hmatch.2.le.trans (ih ..).1, fun _ => (ih ..).1, (ih ..).2⟩
    · refine ⟨(ih ..).1, fun h => ?_, (ih ..).2⟩
      have hdepth := not_and.mp hmatch (prefix_iff_eq_take.mp h).symm
      exact (not_lt.mp hdepth).trans (ih ..).1

/-- Whatever has been mounted and unmounted, a path is routed to the deepest mount that covers it. -/
theorem resolve_deepest (fs : FsImpl F I) (cs : List (TableCall F I)) (abspath : List Name) :
    ∃ idx m sub, (cs.foldl call [(['/'], fs)]).resolve abspath = .ok (idx, sub) ∧
      (cs.foldl call [(['/'], fs)])[idx]? = some m ∧ abspath = want m.1 ++ sub ∧
      ∀ m' ∈ cs.foldl call [(['/'], fs)], want m'.1 <+: abspath → (want m'.1).length ≤ (want m.1).length := by
  have hroot : (cs.foldl call [(['/'], fs)]).RootFirst :=
    foldlRecOn cs call ⟨fs, [], rfl⟩ fun _ h c _ => RootFirst.call h c
  generalize cs.foldl call [(['/'], fs)] = mounts at hroot
  obtain ⟨idx, sub, hok⟩ := resolve_ok hroot abspath
  obtain ⟨m, hm, hpath⟩ := resolve_spec hroot hok
  refine ⟨idx, m, sub, hok, hm, hpath, fun m' hm' hcovers => ?_⟩
  have hdeep := (le_resolveFrom mounts 0 0 0).2 m' hm' hcovers
  have hsub : abspath.drop (resolveFrom abspath mounts 0 0 0).2 = sub := by
    rw [resolve] at hok
    split_ifs at hok
    exact congrArg snd (ok.inj hok)
  have hlen := congrArg length hsub
  have hsum := congrArg length hpath
  have hle := hcovers.length_le
  rw [length_drop] at hlen
  rw [length_append] at hsum
  omega

end Mounts
end Ruos.Vfs
