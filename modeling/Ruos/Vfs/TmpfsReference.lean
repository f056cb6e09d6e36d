import Ruos.Vfs.TmpfsTree

/-! The reference for tmpfs: a map from component paths to nodes, with the bytes of each
file beside it, and the refinement of the inode heap to it. -/
noncomputable section
namespace Ruos.Vfs

open Std List Option

/-- A path leads to the identity and kind of a node; a file keeps its bytes under its
identity, so that an open file outlives its path. -/
structure TmpfsRef where
  node : List Name → Option (NodeId × TmpKind)
  content : NodeId → Buf
  next : NodeId

namespace TmpfsRef

abbrev Reply (α : Type) := Except VfsError α × TmpfsRef

def new : TmpfsRef := ⟨fun p => if p = [] then some (0, .dir) else none, fun _ => .empty, 1⟩

open Classical in
/-- A path that leads nowhere fails with `NotDirectory` if it runs through something that
is no directory, and with `NotFound` otherwise. -/
def resolve (r : TmpfsRef) (p : List Name) : Except VfsError (NodeId × TmpKind) :=
  match r.node p with
  | some x => .ok x
  | none =>
    if ∃ q x, q <+: p ∧ r.node q = some x ∧ x.2 ≠ .dir then .error .notDirectory else .error .notFound

def parent (r : TmpfsRef) (p : List Name) : Except VfsError (NodeId × TmpKind) :=
  if p = [] then .error .invalidPath else r.resolve p.dropLast

def add (r : TmpfsRef) (p : List Name) (kind : TmpKind) (content : Buf) : TmpfsRef :=
  ⟨Function.update r.node p (some (r.next, kind)), Function.update r.content r.next content, r.next + 1⟩

def remove (r : TmpfsRef) (p : List Name) : TmpfsRef :=
  { r with node := Function.update r.node p none }

/-- The subtree of `src` becomes the subtree of `dst`. -/
def move (r : TmpfsRef) (src dst : List Name) : TmpfsRef :=
  { r with node := fun q =>
      if dst <+: q then r.node (src ++ q.drop dst.length) else if src <+: q then none else r.node q }

def insertNew (r : TmpfsRef) (p : List Name) (kind : TmpKind) (content : Buf) : Reply Unit :=
  match r.parent p with
  | .error e => (.error e, r)
  | .ok x =>
    if x.2 ≠ .dir then (.error .notDirectory, r)
    else if (r.node p).isSome then (.error .alreadyExists, r)
    else (.ok (), r.add p kind content)

def openFile (r : TmpfsRef) (p : List Name) (flags : OpenFlags) : Reply FileImpl :=
  match r.resolve p with
  | .ok x => (openNode x.1 x.2, r)
  | .error _ =>
    if ¬ flags.create then (.error .notFound, r)
    else
      match r.parent p with
      | .error e => (.error e, r)
      | .ok x =>
        if x.2 ≠ .dir then (.error .notDirectory, r)
        else (.ok (.tmp ⟨r.next, 0⟩), r.add p .reg .empty)

def unlink (r : TmpfsRef) (p : List Name) : Reply Unit :=
  match r.parent p with
  | .error e => (.error e, r)
  | .ok _ =>
    match r.node p with
    | none => (.error .notFound, r)
    | some x => if x.2 = .dir then (.error .isDirectory, r) else (.ok (), r.remove p)

open Classical in
def rmdir (r : TmpfsRef) (p : List Name) : Reply Unit :=
  match r.parent p with
  | .error e => (.error e, r)
  | .ok _ =>
    match r.node p with
    | none => (.error .notFound, r)
    | some x =>
      if x.2 ≠ .dir then (.error .notDirectory, r)
      else if ∃ n, (r.node (p ++ [n])).isSome then (.error .notPermitted, r)
      else (.ok (), r.remove p)

def IsListing (f : Name → Option VfsKind) (l : List VfsDirent) : Prop :=
  l.Pairwise (fun a b => compare a.name b.name = .lt) ∧ ∀ n k, ⟨n, k⟩ ∈ l ↔ f n = some k

open Classical in
def listing (f : Name → Option VfsKind) : List VfsDirent :=
  if h : ∃ l, IsListing f l then h.choose else []

def readdir (r : TmpfsRef) (p : List Name) : Except VfsError (List VfsDirent) :=
  match r.resolve p with
  | .error e => .error e
  | .ok x =>
    if x.2 ≠ .dir then .error .notDirectory
    else .ok (listing fun n => (r.node (p ++ [n])).map fun y => y.2.vfsKind)

def stat (r : TmpfsRef) (p : List Name) : Except VfsError VfsStat :=
  (r.resolve p).map fun x => ⟨x.2.vfsKind, if x.2 = .reg then (r.content x.1).1.length else 0⟩

def rename (r : TmpfsRef) (src dst : List Name) : Reply Unit :=
  if src = dst then (.ok (), r)
  else if src <+: dst then (.error .invalid, r)
  else
    match r.parent src with
    | .error e => (.error e, r)
    | .ok x =>
      match r.parent dst with
      | .error e => (.error e, r)
      | .ok y =>
        if x.1 = y.1 then
          if r.node src = none then (.error .notFound, r)
          else if (r.node dst).isSome then (.error .alreadyExists, r)
          else (.ok (), r.move src dst)
        else if y.2 ≠ .dir then (.error .notDirectory, r)
        else if (r.node dst).isSome then (.error .alreadyExists, r)
        else if r.node src = none then (.error .notFound, r)
        else (.ok (), r.move src dst)

def read (r : TmpfsRef) (f : TmpfsFile) (len : Nat) : List UInt8 × TmpfsFile :=
  let bytes := ((r.content f.node).1.drop f.pos).take len
  (bytes, { f with pos := f.pos + bytes.length })

/-- The bytes after `buf` is stored at `start`; a gap before `start` reads as zero. -/
def stored (content : List UInt8) (start : Nat) (buf : List UInt8) : List UInt8 :=
  (List.range (max content.length (start + buf.length))).map fun k =>
    if start ≤ k ∧ k < start + buf.length then buf.getD (k - start) 0 else content.getD k 0

def write (r : TmpfsRef) (f : TmpfsFile) (buf : Buf) : Option (Except VfsError Nat × TmpfsFile × TmpfsRef) :=
  let bytes := stored (r.content f.node).1 f.pos buf.1
  if h : bytes.length ≤ vecMax then
    some (.ok buf.1.length, { f with pos := f.pos + buf.1.length },
      { r with content := Function.update r.content f.node ⟨bytes, h⟩ })
  else none

def seek (r : TmpfsRef) (f : TmpfsFile) (off : Int) (whence : Whence) : Except VfsError Nat × TmpfsFile :=
  let base : Nat := match whence with
    | .set => 0
    | .cur => f.pos
    | .fromEnd => (r.content f.node).1.length
  let new := base + off
  if 0 ≤ new ∧ new < 2 ^ 63 then (.ok new.toNat, { f with pos := new.toNat }) else (.error .invalid, f)

variable {f : Name → Option VfsKind}

theorem isListing_unique {l l' : List VfsDirent} (h : IsListing f l) (h' : IsListing f l') : l = l' := by
  have hirr : ∀ a : VfsDirent, ¬ compare a.name a.name = .lt := by simp
  have hmem : ∀ a, a ∈ l ↔ a ∈ l' := fun a => (h.2 a.name a.kind).trans (h'.2 a.name a.kind).symm
  have hnd : l.Nodup := h.1.imp fun hlt heq => by subst heq; exact hirr _ hlt
  have hnd' : l'.Nodup := h'.1.imp fun hlt heq => by subst heq; exact hirr _ hlt
  refine ((perm_ext_iff_of_nodup hnd hnd').mpr hmem).eq_of_pairwise (fun a b _ _ hab hba => ?_) h.1 h'.1
  exact absurd (Std.OrientedCmp.gt_of_lt hab) (by rw [hba]; decide)

theorem listing_eq {l : List VfsDirent} (h : IsListing f l) : listing f = l := by
  have hex : ∃ l, IsListing f l := ⟨l, h⟩
  rw [listing, dif_pos hex]
  exact isListing_unique hex.choose_spec h

end TmpfsRef

namespace Tmpfs

def abs (t : Tmpfs) : TmpfsRef where
  node p := (t.at? p).map fun i => (i, (t.heap i).kind)
  content i := (t.heap i).content
  next := t.next

variable {t : Tmpfs}

theorem abs_node_fst (t : Tmpfs) (p : List Name) : (t.abs.node p).map Prod.fst = t.at? p := by
  simp only [abs, Option.map_map]
  exact Option.map_id'

theorem abs_new : abs Tmpfs.new = TmpfsRef.new := by
  have hat : ∀ p, Tmpfs.new.at? p = if p = [] then some 0 else none := by
    intro p
    rcases eq_nil_or_concat p with rfl | ⟨q, n, rfl⟩
    · rfl
    · rw [concat_eq_append, tree_new.at?_snoc]
      simp [Tmpfs.new, TmpInode.newDir]
  simp only [abs, TmpfsRef.new, hat]
  congr 1
  funext p
  split_ifs <;> rfl

variable {p : List Name}

theorem walk_eq_ok_iff {i : NodeId} : t.walk p = .ok i ↔ t.at? p = some i := by
  unfold at?
  cases t.walk p <;> simp [Except.toOption]

theorem Tree.dir_of_prefix (h : Tree t) {p r : List Name} {i j : NodeId} (hp : t.at? p = some i)
    (hq : t.at? (p ++ r) = some j) (hr : r ≠ []) : (t.heap i).kind = .dir := by
  obtain ⟨n, r, rfl⟩ := exists_cons_of_ne_nil hr
  have hpre : p ++ n :: r = p ++ [n] ++ r := by simp
  obtain ⟨c, hc⟩ := isSome_iff_exists.mp (h.at?_prefix (hpre ▸ hq))
  obtain ⟨i', hi', hc'⟩ := h.at?_snoc_eq_some.mp hc
  obtain rfl : i = i' := some.inj (hp.symm.trans hi')
  exact h.dir_of_child hc'

theorem Tree.walk_error (h : Tree t) {e : VfsError} (he : t.walk p = .error e) :
    ((∃ q i, q <+: p ∧ t.at? q = some i ∧ (t.heap i).kind ≠ .dir) ∧ e = .notDirectory) ∨
      ((¬ ∃ q i, q <+: p ∧ t.at? q = some i ∧ (t.heap i).kind ≠ .dir) ∧ e = .notFound) := by
  induction p using reverseRecOn generalizing e with
  | nil => cases he
  | append_singleton p n ih =>
    have hnone : t.at? (p ++ [n]) = none := by simp [at?, he, Except.toOption]
    rw [walk_snoc] at he
    cases hw : t.walk p with
    | error e' =>
      obtain rfl : e' = e := by simpa [hw, Except.bind] using he
      rcases ih hw with ⟨⟨q, i, hq, hi, hk⟩, rfl⟩ | ⟨hno, rfl⟩
      · exact .inl ⟨⟨q, i, hq.trans (prefix_append _ _), hi, hk⟩, rfl⟩
      · refine .inr ⟨?_, rfl⟩
        rintro ⟨q, i, hq, hi, hk⟩
        rcases prefix_concat_iff.mp hq with heq | hpre
        · simp [heq, hnone] at hi
        · exact hno ⟨q, i, hpre, hi, hk⟩
    | ok i =>
      have hi := walk_eq_ok_iff.mp hw
      by_cases hk : (t.heap i).kind = .dir
      · have he' : e = .notFound := by
          cases hc : (t.heap i).children[n]? with
          | none => simpa [hw, Except.bind, walkFrom, hk, hc, eq_comm] using he
          | some c => simp [hw, Except.bind, walkFrom, hk, hc] at he
        refine .inr ⟨?_, he'⟩
        rintro ⟨q, j, hq, hj, hkj⟩
        rcases prefix_concat_iff.mp hq with heq | ⟨r, rfl⟩
        · simp [heq, hnone] at hj
        · by_cases hr : r = []
          · subst hr
            obtain rfl : i = j := by
              have : t.at? q = some i := by simpa using hi
              exact some.inj (this.symm.trans hj)
            exact hkj hk
          · exact hkj (h.dir_of_prefix hj hi hr)
      · refine .inl ⟨⟨p, i, prefix_append _ _, hi, hk⟩, ?_⟩
        simpa [hw, Except.bind, walkFrom, hk, eq_comm] using he

theorem Tree.resolve_abs (h : Tree t) (p : List Name) :
    t.abs.resolve p = (t.walk p).map fun i => (i, (t.heap i).kind) := by
  unfold TmpfsRef.resolve abs
  cases hw : t.walk p with
  | ok i =>
    simp only [walk_eq_ok_iff.mp hw]
    rfl
  | error e =>
    have hnone : t.at? p = none := by simp [at?, hw, Except.toOption]
    have hiff : (∃ q x, q <+: p ∧ (t.at? q).map (fun i => (i, (t.heap i).kind)) = some x ∧ x.2 ≠ .dir) ↔
        ∃ q i, q <+: p ∧ t.at? q = some i ∧ (t.heap i).kind ≠ .dir := by
      constructor
      · rintro ⟨q, x, hq, hx, hk⟩
        obtain ⟨i, hi, rfl⟩ := map_eq_some_iff.mp hx
        exact ⟨q, i, hq, hi, hk⟩
      · rintro ⟨q, i, hq, hi, hk⟩
        exact ⟨q, (i, (t.heap i).kind), hq, by simp [hi], hk⟩
    simp only [hnone, map_none]
    rcases h.walk_error hw with ⟨hex, rfl⟩ | ⟨hno, rfl⟩
    · rw [if_pos (hiff.mpr hex)]; rfl
    · rw [if_neg (mt hiff.mp hno)]; rfl

@[simp] theorem parentAndName_nil (t : Tmpfs) : t.parentAndName [] = .error .invalidPath := rfl

@[simp] theorem parentAndName_snoc (t : Tmpfs) (p : List Name) (n : Name) :
    t.parentAndName (p ++ [n]) = (t.walk p).map fun i => (i, n) := by
  simp [parentAndName]

@[simp] theorem parent_nil (r : TmpfsRef) : r.parent [] = .error .invalidPath := rfl

@[simp] theorem parent_snoc (r : TmpfsRef) (p : List Name) (n : Name) : r.parent (p ++ [n]) = r.resolve p := by
  simp [TmpfsRef.parent]

theorem Tree.node_abs_snoc (h : Tree t) {i : NodeId} (hp : t.at? p = some i) (n : Name) :
    t.abs.node (p ++ [n]) = (t.heap i).children[n]?.map fun c => (c, (t.heap c).kind) := by
  simp [abs, h.at?_snoc, hp]

theorem Tree.abs_addEntry (h : Tree t) {i : NodeId} {n : Name} {inode : TmpInode} (hp : t.at? p = some i)
    (hdir : (t.heap i).kind = .dir) (hfresh : (t.heap i).children[n]? = none) (hempty : inode.children = ∅) :
    abs (t.addEntry i n inode) = t.abs.add (p ++ [n]) inode.kind inode.content := by
  have hlt := h.at?_lt hp
  simp only [abs, TmpfsRef.add, h.at?_addEntry hp hdir hfresh hempty]
  congr 1
  · funext q
    by_cases hq : q = p ++ [n]
    · subst hq
      simp [addEntry_kind hlt]
    · rw [if_neg hq, Function.update_of_ne hq]
      cases hj : t.at? q with
      | none => rfl
      | some j => simp [addEntry_kind hlt, Nat.ne_of_lt (h.at?_lt hj)]
  · funext j
    rw [addEntry_heap hlt]
    by_cases hj : j = i
    · subst hj
      simp [Nat.ne_of_lt hlt]
    · by_cases hn : j = t.next
      · subst hn
        simp [hj]
      · simp [hj, hn]

theorem Tree.abs_removed {t' : Tmpfs} {i c : NodeId} {n : Name} (h : Tree t) (hr : Relinked t t')
    (hrem : Removed t t' i n) (hp : t.at? p = some i) (hc : (t.heap i).children[n]? = some c)
    (hleaf : (t.heap c).children = ∅) : abs t' = t.abs.remove (p ++ [n]) := by
  simp only [abs, TmpfsRef.remove, h.at?_removed hr hrem hp hc hleaf, hr.kind, hr.content, hr.next]
  congr 1
  funext q
  by_cases hq : q = p ++ [n] <;> simp [hq]

theorem Tree.abs_moved {t' : Tmpfs} {sp dp : List Name} {i j c : NodeId} {n m : Name} (h : Tree t)
    (hr : Relinked t t') (hm : Moved t t' i n j m c) (hi : t.at? sp = some i) (hj : t.at? dp = some j)
    (hc : (t.heap i).children[n]? = some c) (hfree : (t.heap j).children[m]? = none)
    (hkind : (t.heap j).kind = .dir) (hbelow : ¬ (sp ++ [n]) <+: (dp ++ [m])) :
    abs t' = t.abs.move (sp ++ [n]) (dp ++ [m]) := by
  have hnone : t.at? (dp ++ [m]) = none := by rw [h.at?_snoc, hj]; exact hfree
  simp only [abs, TmpfsRef.move, h.at?_moved hr hm hi hj hc hnone hkind hbelow, hr.kind, hr.content, hr.next]
  congr 1
  funext q
  split_ifs <;> rfl

end Tmpfs
end Ruos.Vfs
end
