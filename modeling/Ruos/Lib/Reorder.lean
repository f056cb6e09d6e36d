import Mathlib.Data.List.Perm.Basic

/-! Lists with a marked position: what moving, removing and changing elements does to the position of each. -/
namespace Ruos.Lib

open List

variable {α β : Type*} {l : List α} {i j k : Nat} {x : α}

variable {p : α → β}

theorem map_modify_of_eq {f : α → α} (h : ∀ x, p (f x) = p x) (l : List α) (i : Nat) :
    (l.modify i f).map p = l.map p := by
  apply ext_getElem?
  intro j
  rw [getElem?_map, getElem?_map, getElem?_modify]
  cases l[j]? with
  | none => rfl
  | some x =>
    by_cases hij : i = j
    · simp [hij, h]
    · simp [hij]

theorem mem_modify_of_nodup {f : α → α} {a : α} (h : (l.map p).Nodup) (ha : l[i]? = some a) (hx : x ∈ l.modify i f) :
    x = f a ∨ x ∈ l ∧ p x ≠ p a := by
  obtain ⟨j, hj⟩ := mem_iff_getElem?.mp hx
  rw [getElem?_modify] at hj
  obtain ⟨y, hy, rfl⟩ := Option.map_eq_some_iff.mp hj
  by_cases hij : i = j
  · subst hij
    rw [ha] at hy
    cases hy
    exact Or.inl (if_pos rfl)
  · refine Or.inr ⟨mem_of_getElem? ((if_neg hij : ite _ (f y) y = y).symm ▸ hy), ?_⟩
    rw [if_neg hij]
    intro heq
    have hj : (l.map p)[j]? = some (p y) := by rw [getElem?_map, hy]; rfl
    have hi : (l.map p)[i]? = some (p y) := by rw [getElem?_map, ha, heq]; rfl
    obtain ⟨hlt, -⟩ := List.getElem?_eq_some_iff.mp hi
    exact hij ((getElem?_inj hlt h).mp (hi.trans hj.symm))

theorem map_mapIdx_of_eq {f : Nat → α → α} (h : ∀ i x, p (f i x) = p x) (l : List α) :
    (l.mapIdx f).map p = l.map p := by
  apply ext_getElem?
  intro j
  rw [getElem?_map, getElem?_map, getElem?_mapIdx]
  cases l[j]? with
  | none => rfl
  | some x => simp [h]

theorem countP_modify_le (p : α → Bool) (f : α → α) (l : List α) (i : Nat) :
    (l.modify i f).countP p ≤ l.countP p + 1 := by
  induction l generalizing i with
  | nil => simp
  | cons x l ih =>
    cases i with
    | zero =>
      rw [modify_zero_cons, countP_cons, countP_cons]
      split_ifs <;> omega
    | succ i =>
      have hrest := ih i
      rw [modify_succ_cons, countP_cons, countP_cons]
      omega

/-- The element at `i` becomes the last. -/
def moveLast (l : List α) (i : Nat) : List α := l.eraseIdx i ++ (l[i]?).toList

/-- Where moving the element at `i` to the end of `n` takes the element at `k`. -/
def movedTo (i n k : Nat) : Nat := if k = i then n - 1 else if i < k then k - 1 else k

theorem moveLast_perm (l : List α) (i : Nat) : (moveLast l i).Perm l := by
  by_cases hi : i < l.length
  · have hlast : (l[i]?).toList = [l[i]] := by rw [getElem?_eq_getElem hi]; rfl
    rw [moveLast, hlast]
    exact (perm_append_singleton _ _).trans (getElem_cons_eraseIdx_perm hi)
  · rw [moveLast, eraseIdx_of_length_le (Nat.le_of_not_lt hi), getElem?_eq_none (Nat.le_of_not_lt hi)]
    exact List.Perm.of_eq (append_nil l)

theorem moveLast_last (h : i + 1 = l.length) : moveLast l i = l := by
  have hi : i = l.length - 1 := by omega
  have hlt : l.length - 1 < l.length := by omega
  rw [moveLast, hi, getElem?_eq_getElem hlt, eraseIdx_length_sub_one]
  exact dropLast_append_getLast? _ (by rw [getLast?_eq_getElem?, getElem?_eq_getElem hlt]; rfl)

theorem movedTo_lt (hk : k < j) : movedTo i j k < j := by
  unfold movedTo
  split_ifs <;> omega

theorem getElem?_moveLast (hi : i < l.length) (hk : k < l.length) :
    (moveLast l i)[movedTo i l.length k]? = l[k]? := by
  have hlen := length_eraseIdx_of_lt hi
  unfold moveLast movedTo
  split_ifs with heq hlt
  · rw [getElem?_append_right (by omega), hlen, Nat.sub_self, heq, getElem?_eq_getElem hi]
    rfl
  · rw [getElem?_append_left (by omega), getElem?_eraseIdx_of_ge (by omega)]
    congr 1
    omega
  · rw [getElem?_append_left (by omega), getElem?_eraseIdx_of_lt (by omega)]

theorem moveLast_origin (hi : i < l.length) (h : (moveLast l i)[j]? = some x) :
    ∃ k < l.length, l[k]? = some x ∧ movedTo i l.length k = j := by
  have hj : j < l.length := by
    rw [← (moveLast_perm l i).length_eq]
    exact (List.getElem?_eq_some_iff.mp h).1
  obtain ⟨k, hk, hkj⟩ : ∃ k < l.length, movedTo i l.length k = j := by
    by_cases hlast : j = l.length - 1
    · exact ⟨i, hi, by rw [movedTo, if_pos rfl, hlast]⟩
    · by_cases hlt : j < i
      · exact ⟨j, hj, by rw [movedTo, if_neg (by omega), if_neg (by omega)]⟩
      · exact ⟨j + 1, by omega, by rw [movedTo, if_neg (by omega), if_pos (by omega), Nat.add_sub_cancel]⟩
  rw [← hkj, getElem?_moveLast hi hk] at h
  exact ⟨k, hk, h, hkj⟩

end Ruos.Lib
