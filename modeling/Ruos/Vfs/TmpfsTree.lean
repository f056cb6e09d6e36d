import Ruos.Vfs.Tmpfs

/-! The inode heap of a tmpfs is a tree: the invariant on parent links, and how the three
ways of changing a directory change the node that each path leads to. -/
namespace Ruos.Vfs.Tmpfs

open Std List Option

def at? (t : Tmpfs) (p : List Name) : Option NodeId := (t.walk p).toOption

/-- Only directories have children, every node has at most one parent entry and the root
has none. -/
structure Tree (t : Tmpfs) : Prop where
  rootDir : (t.heap t.root).kind = .dir
  onlyDirs : ∀ i, (t.heap i).kind ≠ .dir → (t.heap i).children = ∅
  rootLt : t.root < t.next
  childLt : ∀ {i : NodeId} {n : Name} {c : NodeId},
    (t.heap i).children[n]? = some c → i < t.next ∧ c < t.next
  oneParent : ∀ {i j : NodeId} {n m : Name} {c : NodeId}, (t.heap i).children[n]? = some c →
    (t.heap j).children[m]? = some c → i = j ∧ n = m
  rootTop : ∀ (i : NodeId) (n : Name), (t.heap i).children[n]? ≠ some t.root

/-- What the invariant is for: finitely many paths lead to a node, no two of them to the
same one, and only directories have children. -/
structure FiniteTree (t : Tmpfs) : Prop where
  finite : {p | (t.at? p).isSome}.Finite
  unique : ∀ {p q : List Name} {i : NodeId}, t.at? p = some i → t.at? q = some i → p = q
  onlyDirs : ∀ {p : List Name} {i : NodeId}, t.at? p = some i → (t.heap i).kind ≠ .dir →
    (t.heap i).children = ∅

theorem tree_new : Tree new where
  rootDir := rfl
  onlyDirs _ h := absurd rfl h
  rootLt := by decide
  childLt h := by simp [new, TmpInode.newDir] at h
  oneParent h := by simp [new, TmpInode.newDir] at h
  rootTop := by simp [new, TmpInode.newDir]

@[simp] theorem at?_nil (t : Tmpfs) : t.at? [] = some t.root := rfl

theorem walkFrom_append (t : Tmpfs) (i : NodeId) (p q : List Name) :
    t.walkFrom i (p ++ q) = (t.walkFrom i p).bind fun j => t.walkFrom j q := by
  induction p generalizing i with
  | nil => rfl
  | cons c cs ih =>
    simp only [cons_append, walkFrom]
    split_ifs
    · rfl
    · cases (t.heap i).children[c]? with
      | none => rfl
      | some n => exact ih n

theorem walk_snoc (t : Tmpfs) (p : List Name) (n : Name) :
    t.walk (p ++ [n]) = (t.walk p).bind fun i => t.walkFrom i [n] :=
  walkFrom_append t t.root p [n]

variable {t : Tmpfs}

variable {i : NodeId}

theorem Tree.dir_of_child (h : Tree t) {n : Name} {c : NodeId} (hc : (t.heap i).children[n]? = some c) :
    (t.heap i).kind = .dir := by
  by_contra hk
  simp [h.onlyDirs i hk] at hc

theorem Tree.at?_snoc (h : Tree t) (p : List Name) (n : Name) :
    t.at? (p ++ [n]) = (t.at? p).bind fun i => (t.heap i).children[n]? := by
  unfold at?
  rw [walk_snoc]
  cases t.walk p with
  | error e => rfl
  | ok i =>
    by_cases hk : (t.heap i).kind = .dir
    · cases hc : (t.heap i).children[n]? <;>
        simp [Except.bind, walkFrom, hk, hc, Except.toOption]
    · simp [Except.bind, walkFrom, hk, h.onlyDirs i hk, Except.toOption]

variable {p : List Name}

theorem Tree.at?_snoc_eq_some (h : Tree t) {n : Name} {c : NodeId} :
    t.at? (p ++ [n]) = some c ↔ ∃ i, t.at? p = some i ∧ (t.heap i).children[n]? = some c := by
  rw [h.at?_snoc, bind_eq_some_iff]

theorem Tree.at?_lt (h : Tree t) (hp : t.at? p = some i) : i < t.next := by
  rcases eq_nil_or_concat p with rfl | ⟨q, n, rfl⟩
  · obtain rfl : t.root = i := by simpa using hp
    exact h.rootLt
  · obtain ⟨j, -, hc⟩ := h.at?_snoc_eq_some.mp (by simpa using hp)
    exact (h.childLt hc).2

theorem Tree.at?_inj (h : Tree t) {p q : List Name} (hp : t.at? p = some i) (hq : t.at? q = some i) : p = q := by
  induction p using reverseRecOn generalizing q i with
  | nil =>
    rcases eq_nil_or_concat q with rfl | ⟨q', m, rfl⟩
    · rfl
    · obtain ⟨j, -, hc⟩ := h.at?_snoc_eq_some.mp (by simpa using hq)
      obtain rfl : t.root = i := by simpa using hp
      exact absurd hc (h.rootTop j m)
  | append_singleton p n ih =>
    obtain ⟨j, hj, hc⟩ := h.at?_snoc_eq_some.mp hp
    rcases eq_nil_or_concat q with rfl | ⟨q', m, rfl⟩
    · obtain rfl : t.root = i := by simpa using hq
      exact absurd hc (h.rootTop j n)
    · rw [concat_eq_append] at hq ⊢
      obtain ⟨k, hk, hc'⟩ := h.at?_snoc_eq_some.mp hq
      obtain ⟨rfl, rfl⟩ := h.oneParent hc hc'
      rw [ih hj hk]

theorem Tree.finiteTree (h : Tree t) : FiniteTree t where
  finite := by
    have himage : Set.Finite ((fun p => (t.at? p).getD 0) '' {p | (t.at? p).isSome}) := by
      apply (Set.finite_lt_nat t.next).subset
      rintro _ ⟨p, hp, rfl⟩
      obtain ⟨i, hi⟩ := isSome_iff_exists.mp hp
      simpa [hi] using h.at?_lt hi
    apply Set.Finite.of_finite_image himage
    intro p hp q hq heq
    obtain ⟨i, hi⟩ := isSome_iff_exists.mp hp
    obtain ⟨j, hj⟩ := isSome_iff_exists.mp hq
    obtain rfl : i = j := by simpa [hi, hj] using heq
    exact h.at?_inj hi hj
  unique hp hq := h.at?_inj hp hq
  onlyDirs _ hk := h.onlyDirs _ hk

theorem Tree.at?_prefix (h : Tree t) {p q : List Name} (hq : t.at? (p ++ q) = some i) : (t.at? p).isSome := by
  induction q using reverseRecOn generalizing i with
  | nil => simp_all
  | append_singleton q n ih =>
    rw [← append_assoc] at hq
    obtain ⟨j, hj, -⟩ := h.at?_snoc_eq_some.mp hq
    exact ih hj

/-- The state after a fresh inode has been entered under `name`. -/
def addEntry (t : Tmpfs) (parent : NodeId) (name : Name) (inode : TmpInode) : Tmpfs :=
  (t.alloc inode).2.setChildren parent ((t.heap parent).children.insert name t.next)

variable {parent : NodeId}

theorem addEntry_heap (hlt : parent < t.next) (name : Name) (inode : TmpInode) (i : NodeId) :
    (t.addEntry parent name inode).heap i =
      if i = parent then { t.heap parent with children := (t.heap parent).children.insert name t.next }
      else if i = t.next then inode else t.heap i := by
  have hne : parent ≠ t.next := Nat.ne_of_lt hlt
  by_cases hi : i = parent
  · subst hi
    simp [addEntry, setChildren, alloc, Function.update_of_ne hne]
  · by_cases hn : i = t.next
    · subst hn
      simp [addEntry, setChildren, alloc, hi]
    · simp [addEntry, setChildren, alloc, hi, hn]

theorem addEntry_kind (hlt : parent < t.next) (name : Name) (inode : TmpInode) (i : NodeId) :
    ((t.addEntry parent name inode).heap i).kind = if i = t.next then inode.kind else (t.heap i).kind := by
  rw [addEntry_heap hlt]
  by_cases hi : i = parent
  · simp [hi, Nat.ne_of_lt hlt]
  · by_cases hn : i = t.next
    · subst hn
      simp [hi]
    · simp [hi, hn]

theorem addEntry_child (hlt : parent < t.next) (name : Name) {inode : TmpInode} (hempty : inode.children = ∅)
    (hnext : (t.heap t.next).children = ∅) (i : NodeId) (n : Name) :
    ((t.addEntry parent name inode).heap i).children[n]? =
      if i = parent ∧ n = name then some t.next else (t.heap i).children[n]? := by
  rw [addEntry_heap hlt]
  by_cases hi : i = parent
  · subst hi
    by_cases hn : n = name
    · simp [hn]
    · simp [ExtTreeMap.getElem?_insert, hn, Ne.symm hn]
  · by_cases hn : i = t.next
    · subst hn
      simp [hi, hempty, hnext]
    · simp [hi, hn]

theorem Tree.next_children (h : Tree t) : (t.heap t.next).children = ∅ := by
  apply ExtTreeMap.ext_getElem?
  intro n
  cases hc : (t.heap t.next).children[n]? with
  | none => simp
  | some c => exact absurd (h.childLt hc).1 (Nat.lt_irrefl _)

variable {parent : NodeId} {name : Name} {inode : TmpInode}

theorem Tree.addEntry (h : Tree t) (hlt : parent < t.next) (hdir : (t.heap parent).kind = .dir)
    (hempty : inode.children = ∅) : Tree (t.addEntry parent name inode) := by
  have hchild := addEntry_child hlt name hempty h.next_children
  have hnew : ∀ {i : NodeId} {n : Name} {c : NodeId},
      ((t.addEntry parent name inode).heap i).children[n]? = some c →
      (i = parent ∧ n = name ∧ c = t.next) ∨ (t.heap i).children[n]? = some c := by
    intro i n c hc
    rw [hchild] at hc
    split_ifs at hc with hin
    · exact .inl ⟨hin.1, hin.2, (some.inj hc).symm⟩
    · exact .inr hc
  refine ⟨?_, fun i hi => ?_, Nat.lt_succ_of_lt h.rootLt, fun hc => ?_, fun hc hc' => ?_, fun i n hc => ?_⟩
  · have hr : t.root ≠ t.next := Nat.ne_of_lt h.rootLt
    change ((t.addEntry parent name inode).heap t.root).kind = .dir
    rw [addEntry_kind hlt, if_neg hr, h.rootDir]
  · rw [addEntry_kind hlt] at hi
    apply ExtTreeMap.ext_getElem?
    intro n
    rw [hchild]
    by_cases hp : i = parent
    · rw [if_neg (by rw [hp]; exact Nat.ne_of_lt hlt), hp, hdir] at hi
      exact absurd rfl hi
    · split_ifs at hi with hn
      · subst hn
        simp [hp, h.next_children]
      · simp [hp, h.onlyDirs i hi]
  · rcases hnew hc with ⟨rfl, -, rfl⟩ | hold
    · exact ⟨Nat.lt_succ_of_lt hlt, Nat.lt_succ_self _⟩
    · exact ⟨Nat.lt_succ_of_lt (h.childLt hold).1, Nat.lt_succ_of_lt (h.childLt hold).2⟩
  · rcases hnew hc with ⟨rfl, rfl, rfl⟩ | hold
    · rcases hnew hc' with ⟨rfl, rfl, -⟩ | hold'
      · exact ⟨rfl, rfl⟩
      · exact absurd (h.childLt hold').2 (Nat.lt_irrefl _)
    · rcases hnew hc' with ⟨-, -, rfl⟩ | hold'
      · exact absurd (h.childLt hold).2 (Nat.lt_irrefl _)
      · exact h.oneParent hold hold'
  · rcases hnew hc with ⟨-, -, hroot⟩ | hold
    · exact absurd h.rootLt (by rw [show t.root = t.next from hroot]; exact Nat.lt_irrefl _)
    · exact h.rootTop i n hold

/-- The entry of a directory at a path is the one at the longer path. -/
theorem Tree.entry_iff (h : Tree t) {q : List Name} {i : NodeId} {n : Name} (hi : t.at? q = some i)
    (hp : t.at? p = some parent) : (i = parent ∧ n = name) ↔ q ++ [n] = p ++ [name] := by
  constructor
  · rintro ⟨rfl, rfl⟩
    rw [h.at?_inj hi hp]
  · intro heq
    obtain ⟨rfl, hn⟩ := append_inj' heq rfl
    exact ⟨some.inj (hi.symm.trans hp), by simpa using hn⟩

theorem Tree.at?_addEntry (h : Tree t) (hp : t.at? p = some parent) (hdir : (t.heap parent).kind = .dir)
    (hfresh : (t.heap parent).children[name]? = none) (hempty : inode.children = ∅) (q : List Name) :
    (t.addEntry parent name inode).at? q = if q = p ++ [name] then some t.next else t.at? q := by
  have hlt := h.at?_lt hp
  have h' : Tree (t.addEntry parent name inode) := h.addEntry hlt hdir hempty
  have hnone : t.at? (p ++ [name]) = none := by rw [h.at?_snoc, hp]; exact hfresh
  induction q using reverseRecOn with
  | nil => simp [Tmpfs.addEntry, setChildren, alloc]
  | append_singleton q n ih =>
    rw [h'.at?_snoc, ih]
    by_cases hq : q = p ++ [name]
    · have hne : parent ≠ t.next := Nat.ne_of_lt hlt
      rw [h.at?_snoc, hq, hnone]
      simp [addEntry_child hlt name hempty h.next_children, Ne.symm hne, h.next_children]
    · rw [if_neg hq]
      cases hi : t.at? q with
      | none =>
        have hne : q ++ [n] ≠ p ++ [name] := by
          intro heq
          obtain ⟨rfl, -⟩ := append_inj' heq rfl
          simp [hp] at hi
        rw [if_neg hne, h.at?_snoc, hi]
        rfl
      | some i =>
        simp [addEntry_child hlt name hempty h.next_children, h.entry_iff hi hp, h.at?_snoc, hi]

/-- `t'` differs from `t` in directory entries only. -/
structure Relinked (t t' : Tmpfs) : Prop where
  root : t'.root = t.root
  next : t'.next = t.next
  kind : ∀ i, (t'.heap i).kind = (t.heap i).kind
  content : ∀ i, (t'.heap i).content = (t.heap i).content

theorem Relinked.trans {t₁ t₂ t₃ : Tmpfs} (h₁ : Relinked t₁ t₂) (h₂ : Relinked t₂ t₃) : Relinked t₁ t₃ where
  root := h₂.root.trans h₁.root
  next := h₂.next.trans h₁.next
  kind i := (h₂.kind i).trans (h₁.kind i)
  content i := (h₂.content i).trans (h₁.content i)

theorem setChildren_children (t : Tmpfs) (i : NodeId) (ch : Children) (x : NodeId) :
    ((t.setChildren i ch).heap x).children = if x = i then ch else (t.heap x).children := by
  by_cases hx : x = i
  · subst hx; simp [setChildren]
  · simp [setChildren, hx]

theorem relinked_setChildren (t : Tmpfs) (i : NodeId) (ch : Children) : Relinked t (t.setChildren i ch) := by
  refine ⟨rfl, rfl, fun x => ?_, fun x => ?_⟩ <;>
    by_cases hx : x = i
  · subst hx; simp [setChildren]
  · simp [setChildren, hx]
  · subst hx; simp [setChildren]
  · simp [setChildren, hx]

theorem setChildren_self (t : Tmpfs) (i : NodeId) : t.setChildren i (t.heap i).children = t := by
  simp [setChildren]

/-- The entry `(parent, name)` is gone and all others are as before. -/
def Removed (t t' : Tmpfs) (parent : NodeId) (name : Name) : Prop :=
  ∀ (i : NodeId) (n : Name), (t'.heap i).children[n]? =
    if i = parent ∧ n = name then none else (t.heap i).children[n]?

theorem removed_erase (t : Tmpfs) (parent : NodeId) (name : Name) :
    Removed t (t.setChildren parent ((t.heap parent).children.erase name)) parent name := by
  intro i n
  rw [setChildren_children]
  by_cases hi : i = parent
  · subst hi
    by_cases hn : n = name
    · simp [hn]
    · simp [ExtTreeMap.getElem?_erase, hn, Ne.symm hn]
  · simp [hi]

theorem Tree.removed {t' : Tmpfs} (h : Tree t) (hr : Relinked t t') (hrem : Removed t t' parent name) : Tree t' := by
  have hold : ∀ {i : NodeId} {n : Name} {c : NodeId}, (t'.heap i).children[n]? = some c →
      (t.heap i).children[n]? = some c := by
    intro i n c hc
    rw [hrem] at hc
    split_ifs at hc
    exact hc
  refine ⟨?_, fun i hi => ?_, ?_, fun hc => ?_, fun hc hc' => h.oneParent (hold hc) (hold hc'), fun i n => ?_⟩
  · rw [hr.root, hr.kind, h.rootDir]
  · rw [hr.kind] at hi
    apply ExtTreeMap.ext_getElem?
    intro n
    rw [hrem, h.onlyDirs i hi]
    simp
  · rw [hr.root, hr.next]; exact h.rootLt
  · rw [hr.next]; exact h.childLt (hold hc)
  · rw [hr.root]
    intro hc
    exact h.rootTop i n (hold hc)

theorem Tree.at?_removed {t' : Tmpfs} {c : NodeId} (h : Tree t) (hr : Relinked t t')
    (hrem : Removed t t' parent name) (hp : t.at? p = some parent) (hc : (t.heap parent).children[name]? = some c)
    (hleaf : (t.heap c).children = ∅) (q : List Name) : t'.at? q = if q = p ++ [name] then none else t.at? q := by
  have h' := h.removed hr hrem
  have hcp : t.at? (p ++ [name]) = some c := by rw [h.at?_snoc, hp]; exact hc
  induction q using reverseRecOn with
  | nil => simp [hr.root]
  | append_singleton q n ih =>
    rw [h'.at?_snoc, ih]
    by_cases hq : q = p ++ [name]
    · rw [h.at?_snoc, hq, hcp]
      simp [hleaf]
    · rw [if_neg hq]
      cases hi : t.at? q with
      | none =>
        rw [h.at?_snoc, hi]
        simp
      | some i =>
        simp [hrem i n, h.entry_iff hi hp, h.at?_snoc, hi]

/-- The entry `(i, n)` has moved to `(j, m)`. -/
def Moved (t t' : Tmpfs) (i : NodeId) (n : Name) (j : NodeId) (m : Name) (c : NodeId) : Prop :=
  ∀ (x : NodeId) (k : Name), (t'.heap x).children[k]? =
    if x = j ∧ k = m then some c else if x = i ∧ k = n then none else (t.heap x).children[k]?

section
variable {t' : Tmpfs} {i j c : NodeId} {n m : Name}

theorem moved_erase_insert (t : Tmpfs) (hij : i ≠ j) (n m : Name) (c : NodeId) :
    let t₁ := t.setChildren i ((t.heap i).children.erase n)
    Moved t (t₁.setChildren j ((t₁.heap j).children.insert m c)) i n j m c := by
  intro t₁ x k
  rw [setChildren_children]
  by_cases hx : x = j
  · subst hx
    simp only [t₁, setChildren_children, if_neg hij.symm]
    by_cases hk : k = m
    · simp [hk]
    · simp [ExtTreeMap.getElem?_insert, hk, Ne.symm hk, hij.symm]
  · simp only [hx, if_false, false_and]
    exact removed_erase t i n x k

theorem moved_in_place (t : Tmpfs) (i : NodeId) (n m : Name) (c : NodeId) :
    Moved t (t.setChildren i (((t.heap i).children.erase n).insert m c)) i n i m c := by
  intro x k
  rw [setChildren_children]
  by_cases hx : x = i
  · subst hx
    by_cases hk : k = m
    · simp [hk]
    · by_cases hkn : k = n
      · subst hkn
        simp [hk, Ne.symm hk]
      · simp [ExtTreeMap.getElem?_insert, ExtTreeMap.getElem?_erase, hk, Ne.symm hk, hkn, Ne.symm hkn]
  · simp [hx]

theorem Moved.cases (hm : Moved t t' i n j m c) {x : NodeId} {k : Name} {d : NodeId}
    (hd : (t'.heap x).children[k]? = some d) :
    (x = j ∧ k = m ∧ d = c) ∨ (¬ (x = i ∧ k = n) ∧ (t.heap x).children[k]? = some d) := by
  rw [hm] at hd
  split_ifs at hd with h₁ h₂
  · exact .inl ⟨h₁.1, h₁.2, (some.inj hd).symm⟩
  · exact .inr ⟨h₂, hd⟩

theorem Tree.moved (h : Tree t) (hr : Relinked t t') (hm : Moved t t' i n j m c)
    (hc : (t.heap i).children[n]? = some c) (hj : (t.heap j).kind = .dir) (hjlt : j < t.next) : Tree t' := by
  refine ⟨?_, fun x hx => ?_, ?_, fun hd => ?_, fun hd hd' => ?_, fun x k => ?_⟩
  · rw [hr.root, hr.kind, h.rootDir]
  · rw [hr.kind] at hx
    apply ExtTreeMap.ext_getElem?
    intro k
    have hxj : x ≠ j := by
      rintro rfl
      exact hx hj
    rw [hm, h.onlyDirs x hx]
    simp [hxj]
  · rw [hr.root, hr.next]; exact h.rootLt
  · rw [hr.next]
    rcases hm.cases hd with ⟨rfl, -, rfl⟩ | ⟨-, hold⟩
    · exact ⟨hjlt, (h.childLt hc).2⟩
    · exact h.childLt hold
  · rcases hm.cases hd with ⟨rfl, rfl, rfl⟩ | ⟨hne, hold⟩
    · rcases hm.cases hd' with ⟨rfl, rfl, -⟩ | ⟨hne', hold'⟩
      · exact ⟨rfl, rfl⟩
      · obtain ⟨rfl, rfl⟩ := h.oneParent hold' hc
        exact absurd ⟨rfl, rfl⟩ hne'
    · rcases hm.cases hd' with ⟨-, -, rfl⟩ | ⟨-, hold'⟩
      · obtain ⟨rfl, rfl⟩ := h.oneParent hold hc
        exact absurd ⟨rfl, rfl⟩ hne
      · exact h.oneParent hold hold'
  · rw [hr.root]
    intro hd
    rcases hm.cases hd with ⟨-, -, hroot⟩ | ⟨-, hold⟩
    · exact h.rootTop i n (hroot ▸ hc)
    · exact h.rootTop x k hold

theorem prefix_snoc {p q : List Name} : (p ++ [n]) <+: (q ++ [m]) ↔ (p = q ∧ n = m) ∨ (p ++ [n]) <+: q := by
  simp [prefix_concat_iff]

/-- The whole subtree of `src` is found below `dst`, and nothing else has moved. The
target does not lie below the source, so the move closes no cycle. -/
theorem Tree.at?_moved (h : Tree t) {sp dp : List Name} (hr : Relinked t t')
    (hm : Moved t t' i n j m c) (hi : t.at? sp = some i) (hj : t.at? dp = some j)
    (hc : (t.heap i).children[n]? = some c) (hfree : t.at? (dp ++ [m]) = none)
    (hkind : (t.heap j).kind = .dir) (hbelow : ¬ (sp ++ [n]) <+: (dp ++ [m])) (q : List Name) : t'.at? q =
      if (dp ++ [m]) <+: q then t.at? (sp ++ [n] ++ q.drop (dp ++ [m]).length)
      else if (sp ++ [n]) <+: q then none else t.at? q := by
  have h' : Tree t' := h.moved hr hm hc hkind (h.at?_lt hj)
  have hsrc : t.at? (sp ++ [n]) = some c := by rw [h.at?_snoc, hi]; exact hc
  induction q using reverseRecOn with
  | nil =>
    simp [hr.root]
  | append_singleton q k ih =>
    rw [h'.at?_snoc, ih]
    by_cases hd : (dp ++ [m]) <+: q
    · obtain ⟨r, rfl⟩ := hd
      have hlong : (dp ++ [m]) <+: (dp ++ [m] ++ r ++ [k]) := ⟨r ++ [k], by simp⟩
      rw [if_pos (prefix_append _ _), if_pos hlong, append_assoc (dp ++ [m]) r [k],
        drop_left, drop_left, ← append_assoc (sp ++ [n]) r [k], h.at?_snoc]
      cases hx : t.at? (sp ++ [n] ++ r) with
      | none => rfl
      | some x =>
        have hxj : ¬ (x = j ∧ k = m) := by
          rintro ⟨rfl, rfl⟩
          exact hbelow (h.at?_inj hx hj ▸ (prefix_append _ _).trans (prefix_append _ _))
        have hxi : ¬ (x = i ∧ k = n) := by
          rintro ⟨rfl, rfl⟩
          have := congrArg List.length (h.at?_inj hx hi)
          simp at this
        simp [hm x k, if_neg hxj, if_neg hxi]
    · rw [if_neg hd]
      by_cases hdq : (dp ++ [m]) <+: (q ++ [k])
      · obtain ⟨rfl, rfl⟩ := (prefix_snoc.mp hdq).resolve_right hd
        have hsdp : ¬ (sp ++ [n]) <+: dp := fun hp => hbelow (hp.trans (prefix_append _ _))
        rw [if_neg hsdp, hj]
        simp [hm j m, hsrc]
      · rw [if_neg hdq]
        by_cases hs : (sp ++ [n]) <+: q
        · rw [if_pos hs, if_pos (hs.trans (prefix_append _ _))]
          rfl
        · rw [if_neg hs]
          cases hx : t.at? q with
          | none =>
            rw [h.at?_snoc, hx]
            simp
          | some x =>
            have hxj : ¬ (x = j ∧ k = m) := by
              rintro ⟨rfl, rfl⟩
              exact hdq (by rw [h.at?_inj hx hj])
            by_cases hxi : x = i ∧ k = n
            · obtain ⟨rfl, rfl⟩ := hxi
              have hq : q = sp := h.at?_inj hx hi
              rw [if_pos (by rw [hq])]
              simp [hm x k, hxj]
            · have hsq : ¬ (sp ++ [n]) <+: (q ++ [k]) := by
                intro hpre
                obtain ⟨rfl, rfl⟩ := (prefix_snoc.mp hpre).resolve_right hs
                exact hxi ⟨some.inj (hx.symm.trans hi), rfl⟩
              rw [if_neg hsq, h.at?_snoc, hx]
              simp [hm x k, if_neg hxj, if_neg hxi]

end

theorem setContent_heap (t : Tmpfs) (i : NodeId) (content : Buf) (j : NodeId) :
    ((t.setContent i content).heap j).kind = (t.heap j).kind ∧
      ((t.setContent i content).heap j).children = (t.heap j).children := by
  by_cases hj : j = i
  · subst hj
    simp [setContent]
  · simp [setContent, hj]

theorem walkFrom_setContent (t : Tmpfs) (i : NodeId) (content : Buf) (j : NodeId) (p : List Name) :
    (t.setContent i content).walkFrom j p = t.walkFrom j p := by
  induction p generalizing j with
  | nil => rfl
  | cons c cs ih =>
    obtain ⟨hkind, hchildren⟩ := setContent_heap t i content j
    simp only [walkFrom, hkind, hchildren, ih]

theorem at?_setContent (t : Tmpfs) (i : NodeId) (content : Buf) (p : List Name) :
    (t.setContent i content).at? p = t.at? p :=
  congrArg Except.toOption (walkFrom_setContent t i content t.root p)

theorem Tree.setContent (h : Tree t) (i : NodeId) (content : Buf) : Tree (t.setContent i content) where
  rootDir := (setContent_heap t i content t.root).1.trans h.rootDir
  onlyDirs j hj := by
    obtain ⟨hkind, hchildren⟩ := setContent_heap t i content j
    rw [hchildren]
    exact h.onlyDirs j (hkind ▸ hj)
  rootLt := h.rootLt
  childLt {j n c} hc := by
    rw [(setContent_heap t i content j).2] at hc
    exact h.childLt hc
  oneParent {j k n m c} hc hc' := by
    rw [(setContent_heap t i content _).2] at hc hc'
    exact h.oneParent hc hc'
  rootTop j n hc := by
    rw [(setContent_heap t i content j).2] at hc
    exact h.rootTop j n hc

end Ruos.Vfs.Tmpfs
