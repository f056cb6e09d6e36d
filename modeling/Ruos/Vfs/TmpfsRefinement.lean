import Ruos.Vfs.TmpfsReference

/-! Every tmpfs call simulates the reference call: same reply, the abstraction of the new
heap is the new reference state, the heap stays a tree, and an error changes nothing. -/
namespace Ruos.Vfs.Tmpfs

open Std List Option ExtTreeMap TmpfsRef

variable {t : Tmpfs} {α : Type}

/-- The outcome of a call on `t` against the outcome of the reference call on `abs t`. -/
structure Simulates (t : Tmpfs) (out : Reply α) (ref : TmpfsRef.Reply α) : Prop where
  tree : Tree out.2
  refines : (out.1, out.2.abs) = ref
  unchanged : ∀ e, out.1 = .error e → out.2 = t

theorem Simulates.same (h : Tree t) (r : Except VfsError α) : Simulates t (r, t) (r, t.abs) :=
  ⟨h, rfl, fun _ _ => rfl⟩

theorem Simulates.ok {t' : Tmpfs} {ref : TmpfsRef} {a : α} (h : Tree t') (habs : t'.abs = ref) :
    Simulates t (.ok a, t') (.ok a, ref) :=
  ⟨h, by rw [habs], fun e he => by cases he⟩

section

variable (h : Tree t)
include h

theorem Tree.insertNew_simulates (p : List Name) {inode : TmpInode} (hempty : inode.children = ∅) :
    Simulates t (t.insertNew p inode) (t.abs.insertNew p inode.kind inode.content) := by
  rcases eq_nil_or_concat p with rfl | ⟨p, n, rfl⟩
  · exact .same h _
  rw [concat_eq_append]
  unfold insertNew TmpfsRef.insertNew
  rw [parentAndName_snoc, parent_snoc, h.resolve_abs]
  cases hw : t.walk p with
  | error e => exact .same h _
  | ok i =>
    have hi := walk_eq_ok_iff.mp hw
    simp only [Except.map, h.node_abs_snoc hi, contains_eq_isSome_getElem?, isSome_map]
    by_cases hk : (t.heap i).kind = .dir
    · cases hc : (t.heap i).children[n]? with
      | none =>
        simp only [hk, ne_eq, not_true_eq_false, isSome_none, Bool.false_eq_true, if_false]
        exact .ok (h.addEntry (h.at?_lt hi) hk hempty) (h.abs_addEntry hi hk hc hempty)
      | some c =>
        simp only [hk, ne_eq, not_true_eq_false, isSome_some, if_false, if_true]
        exact .same h _
    · simp only [hk, ne_eq, not_false_eq_true, if_true]
      exact .same h _

theorem Tree.openFile_simulates (p : List Name) (flags : OpenFlags) :
    Simulates t (t.openFile p flags) (t.abs.openFile p flags) := by
  unfold openFile TmpfsRef.openFile
  rw [h.resolve_abs]
  cases hw : t.walk p with
  | ok i => exact .same h _
  | error e =>
    by_cases hf : flags.create
    · simp only [hf, Except.map, not_true_eq_false, if_false]
      rcases eq_nil_or_concat p with rfl | ⟨p, n, rfl⟩
      · cases hw
      rw [concat_eq_append]
      rw [parentAndName_snoc, parent_snoc, h.resolve_abs]
      cases hp : t.walk p with
      | error e => exact .same h _
      | ok i =>
        have hi := walk_eq_ok_iff.mp hp
        by_cases hk : (t.heap i).kind = .dir
        · have hc : (t.heap i).children[n]? = none := by
            cases hc : (t.heap i).children[n]? with
            | none => rfl
            | some c => simp [walk_snoc, hp, Except.bind, walkFrom, hk, hc] at hw
          simp only [Except.map, hk, hc, not_true_eq_false, ne_eq, if_false]
          exact .ok (h.addEntry (h.at?_lt hi) hk rfl) (h.abs_addEntry hi hk hc rfl)
        · simp only [Except.map, hk, ne_eq, not_false_eq_true, if_true]
          exact .same h _
    · simp only [hf, Except.map, not_false_eq_true, if_true, Bool.false_eq_true]
      exact .same h _

theorem Tree.remove_simulates {p : List Name} {i c : NodeId} {n : Name} (hi : t.at? p = some i)
    (hc : (t.heap i).children[n]? = some c) (hleaf : (t.heap c).children = ∅) :
    Simulates t (.ok (), t.setChildren i ((t.heap i).children.erase n)) (.ok (), t.abs.remove (p ++ [n])) :=
  have hr := relinked_setChildren t i ((t.heap i).children.erase n)
  .ok (h.removed hr (removed_erase t i n)) (h.abs_removed hr (removed_erase t i n) hi hc hleaf)

theorem Tree.removals_simulate (p : List Name) :
    Simulates t (t.unlink p) (t.abs.unlink p) ∧ Simulates t (t.rmdir p) (t.abs.rmdir p) := by
  rcases eq_nil_or_concat p with rfl | ⟨p, n, rfl⟩
  · exact ⟨.same h _, .same h _⟩
  rw [concat_eq_append]
  unfold unlink TmpfsRef.unlink rmdir TmpfsRef.rmdir
  rw [parentAndName_snoc, parent_snoc, h.resolve_abs]
  cases hw : t.walk p with
  | error e => exact ⟨.same h _, .same h _⟩
  | ok i =>
    have hi := walk_eq_ok_iff.mp hw
    simp only [Except.map, h.node_abs_snoc hi]
    cases hc : (t.heap i).children[n]? with
    | none => exact ⟨.same h _, .same h _⟩
    | some c =>
      by_cases hk : (t.heap c).kind = .dir
      · have hat : t.at? (p ++ [n]) = some c := h.at?_snoc_eq_some.mpr ⟨i, hi, hc⟩
        have hiff : (∃ m, (t.abs.node (p ++ [n] ++ [m])).isSome) ↔ ¬ (t.heap c).children.isEmpty := by
          simp only [h.node_abs_snoc hat, isSome_map, ExtTreeMap.isEmpty_iff]
          constructor
          · rintro ⟨m, hm⟩ hempty
            simp [hempty] at hm
          · intro hne
            by_contra hno
            push Not at hno
            exact hne (ExtTreeMap.ext_getElem? fun m => by simpa using hno m)
        simp only [map_some, hk, ne_eq, not_true_eq_false, if_true, if_false]
        refine ⟨.same h _, ?_⟩
        by_cases hempty : (t.heap c).children.isEmpty
        · have hleaf : (t.heap c).children = ∅ := by simpa using hempty
          rw [if_neg (not_not.mpr hempty), if_neg (mt hiff.mp (not_not.mpr hempty))]
          exact h.remove_simulates hi hc hleaf
        · rw [if_pos hempty, if_pos (hiff.mpr hempty)]
          exact .same h _
      · simp only [map_some, hk, ne_eq, not_false_eq_true, if_true, if_false]
        exact ⟨h.remove_simulates hi hc (h.onlyDirs c hk), .same h _⟩

theorem Tree.readdir_abs (p : List Name) : t.readdir p = t.abs.readdir p := by
  unfold readdir TmpfsRef.readdir
  rw [h.resolve_abs]
  cases hw : t.walk p with
  | error e => rfl
  | ok i =>
    have hi := walk_eq_ok_iff.mp hw
    by_cases hk : (t.heap i).kind = .dir
    · simp only [Except.map, hk, ne_eq, not_true_eq_false, if_false, h.node_abs_snoc hi]
      refine congrArg Except.ok (TmpfsRef.listing_eq ⟨?_, fun n k => ?_⟩).symm
      · rw [pairwise_map]
        exact ordered_keys_toList
      · simp only [List.mem_map, VfsDirent.mk.injEq, Option.map_map, map_eq_some_iff,
          Function.comp_apply, Prod.exists, mem_toList_iff_getElem?_eq_some]
        constructor
        · rintro ⟨m, c, hc, rfl, hkind⟩
          exact ⟨c, hc, hkind⟩
        · rintro ⟨c, hc, hkind⟩
          exact ⟨n, c, hc, rfl, hkind⟩
    · simp [Except.map, hk]

theorem Tree.stat_abs (p : List Name) : t.stat p = t.abs.stat p := by
  unfold stat TmpfsRef.stat
  rw [h.resolve_abs]
  cases t.walk p <;> rfl

end

theorem erase_insert_self {ch : Children} {n : Name} {c : NodeId} (hc : ch[n]? = some c) :
    (ch.erase n).insert n c = ch := by
  apply ExtTreeMap.ext_getElem?
  intro k
  by_cases hk : n = k
  · subst hk
    simp [hc]
  · simp [ExtTreeMap.getElem?_insert, ExtTreeMap.getElem?_erase, hk]

theorem Tree.renameInPlace_simulates (h : Tree t) {p : List Name} {i : NodeId} {n m : Name}
    (hi : t.at? p = some i) (hne : n ≠ m) : Simulates t (t.renameInPlace i n m)
      (if t.abs.node (p ++ [n]) = none then (.error .notFound, t.abs)
      else if (t.abs.node (p ++ [m])).isSome then (.error .alreadyExists, t.abs)
      else (.ok (), t.abs.move (p ++ [n]) (p ++ [m]))) := by
  have hkeep : ((t.heap i).children.erase n)[m]? = (t.heap i).children[m]? := by
    simp [getElem?_erase, hne]
  simp only [renameInPlace, h.node_abs_snoc hi, contains_eq_isSome_getElem?, hkeep,
    isSome_map, map_eq_none_iff]
  cases hc : (t.heap i).children[n]? with
  | none => exact .same h _
  | some c =>
    cases hd : (t.heap i).children[m]? with
    | some d =>
      simp only [isSome_some, if_true, erase_insert_self hc, setChildren_self]
      exact .same h _
    | none =>
      have hbelow : ¬ (p ++ [n]) <+: (p ++ [m]) := by
        intro hpre
        exact hne (by simpa using hpre.eq_of_length (by simp))
      have hr := relinked_setChildren t i (((t.heap i).children.erase n).insert m c)
      have hm := moved_in_place t i n m c
      have hk := h.dir_of_child hc
      exact .ok (h.moved hr hm hc hk (h.at?_lt hi)) (h.abs_moved hr hm hi hi hc hd hk hbelow)

variable {src dst : List Name}

theorem take_eq_iff_prefix (hne : src ≠ dst) : src.length < dst.length ∧ dst.take src.length = src ↔ src <+: dst := by
  constructor
  · rintro ⟨-, h⟩
    exact prefix_iff_eq_take.mpr h.symm
  · intro h
    have hlen : src.length ≠ dst.length := fun hlen => hne (h.eq_of_length hlen)
    exact ⟨Nat.lt_of_le_of_ne h.length_le hlen, (prefix_iff_eq_take.mp h).symm⟩

theorem Tree.rename_simulates (h : Tree t) (src dst : List Name) :
    Simulates t (t.rename src dst) (t.abs.rename src dst) := by
  unfold rename TmpfsRef.rename
  by_cases heq : src = dst
  · simp only [heq, if_true]
    exact .same h _
  simp only [heq, if_false, take_eq_iff_prefix heq]
  by_cases hpre : src <+: dst
  · simp only [hpre, if_true]
    exact .same h _
  simp only [hpre, if_false]
  rcases eq_nil_or_concat src with rfl | ⟨sp, n, rfl⟩
  · exact absurd nil_prefix hpre
  rw [concat_eq_append] at heq hpre ⊢
  rw [parentAndName_snoc, parent_snoc, h.resolve_abs]
  cases hs : t.walk sp with
  | error e => exact .same h _
  | ok i =>
    have hi := walk_eq_ok_iff.mp hs
    rcases eq_nil_or_concat dst with rfl | ⟨dp, m, rfl⟩
    · exact .same h _
    rw [concat_eq_append] at heq hpre ⊢
    rw [parentAndName_snoc, parent_snoc, h.resolve_abs]
    cases hd : t.walk dp with
    | error e => exact .same h _
    | ok j =>
      have hj := walk_eq_ok_iff.mp hd
      simp only [Except.map]
      by_cases hij : i = j
      · subst hij
        obtain rfl : sp = dp := h.at?_inj hi hj
        have hnm : n ≠ m := fun hnm => heq (by rw [hnm])
        simp only [if_true]
        exact h.renameInPlace_simulates hi hnm
      · simp only [hij, if_false]
        by_cases hk : (t.heap j).kind = .dir
        · simp only [hk, ne_eq, not_true_eq_false, if_false, h.node_abs_snoc hi, h.node_abs_snoc hj,
            contains_eq_isSome_getElem?, isSome_map, map_eq_none_iff]
          cases hfree : (t.heap j).children[m]? with
          | some d =>
            exact .same h _
          | none =>
            cases hc : (t.heap i).children[n]? with
            | none => exact .same h _
            | some c =>
              have hr := (relinked_setChildren t i ((t.heap i).children.erase n)).trans
                (relinked_setChildren _ j (((t.setChildren i ((t.heap i).children.erase n)).heap j).children.insert m c))
              have hm := moved_erase_insert t hij n m c
              exact .ok (h.moved hr hm hc hk (h.at?_lt hj)) (h.abs_moved hr hm hi hj hc hfree hk hpre)
        · simp only [hk, ne_eq, not_false_eq_true, if_true]
          exact .same h _

theorem ref_rename_ok {r r' : TmpfsRef} (hr : r.rename src dst = (.ok (), r')) (hne : src ≠ dst) :
    ¬ src <+: dst ∧ r.node src ≠ none ∧ r.node dst = none ∧ r' = r.move src dst := by
  unfold TmpfsRef.rename at hr
  rw [if_neg hne] at hr
  by_cases hpre : src <+: dst
  · rw [if_pos hpre] at hr
    cases hr
  rw [if_neg hpre] at hr
  cases hs : r.parent src with
  | error e =>
    rw [hs] at hr
    cases hr
  | ok x =>
    cases hd : r.parent dst with
    | error e =>
      simp only [hs, hd] at hr
      cases hr
    | ok y =>
      simp only [hs, hd] at hr
      split_ifs at hr with hxy hsrc hdst hdir hdst hsrc
      · cases hr
      · cases hr
      · cases hr
        exact ⟨hpre, hsrc, by simpa using hdst, rfl⟩
      · cases hr
      · cases hr
      · cases hr
      · cases hr
        exact ⟨hpre, hsrc, by simpa using hdst, rfl⟩

theorem Tree.rename_ok (h : Tree t) {t' : Tmpfs} (hr : t.rename src dst = (.ok (), t')) (hne : src ≠ dst) :
    (∃ c, t.at? src = some c ∧ t'.at? dst = some c) ∧ t'.at? src = none ∧
      ∀ q, ¬ src <+: q → ¬ dst <+: q → t'.at? q = t.at? q := by
  have hsim := h.rename_simulates src dst
  rw [hr] at hsim
  obtain ⟨hpre, hsrc, hdst, habs⟩ := ref_rename_ok hsim.refines.symm hne
  obtain ⟨c, hc⟩ : ∃ c, t.at? src = some c := by
    cases hc : t.at? src with
    | none => simp [abs, hc] at hsrc
    | some c => exact ⟨c, rfl⟩
  have hup : ¬ dst <+: src := by
    rintro ⟨q, rfl⟩
    have hnone : t.at? dst = none := by simpa [abs] using hdst
    simpa [hnone] using h.at?_prefix hc
  refine ⟨⟨c, hc, ?_⟩, ?_, fun q hsq hdq => ?_⟩
  · rw [← abs_node_fst, habs, move]
    simp [abs_node_fst, hc]
  · rw [← abs_node_fst, habs, move]
    simp [hup]
  · rw [← abs_node_fst, habs, move]
    simp [hsq, hdq, abs_node_fst]

end Ruos.Vfs.Tmpfs
