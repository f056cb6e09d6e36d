import Mathlib.Data.List.Infix

/-! The name patterns of `find` (`find/src/main.rs`). -/
namespace Ruos.Find

open List

/-- `str::find`. -/
def find (mid s : List Char) : Option Nat := s.tails.findIdx? (mid <+: ·)

/-- The loop over the fragments in the middle: what is left of the name. -/
def search : List (List Char) → List Char → Option (List Char)
  | [], s => some s
  | mid :: mids, s =>
    if mid = [] then search mids s
    else match find mid s with
      | some i => search mids (s.drop (i + mid.length))
      | none => none

/-- `matches`. -/
def matchesPat (pat name : List Char) : Bool :=
  if pat = [] then true
  else match pat.splitOn '*' with
    | [] | [_] => name = pat
    | first :: rest =>
      if first ≠ [] ∧ ¬ first <+: name then false
      else
        let last := rest.getLastD []
        (search rest.dropLast (name.drop first.length)).any fun s => last = [] ∨ last <:+ s

/-- The name comes from the pattern by replacing each `*` by some string. -/
def Expands : List Char → List Char → Prop
  | [], name => name = []
  | c :: pat, name =>
    if c = '*' then ∃ w t, name = w ++ t ∧ Expands pat t else ∃ t, name = c :: t ∧ Expands pat t

/-- The string has the fragments in this order, any string before each of them, and ends with the last. -/
def Fits : List (List Char) → List Char → Prop
  | [], s => s = []
  | p :: ps, s => ∃ w t, s = w ++ (p ++ t) ∧ Fits ps t

theorem Fits.append {ps : List (List Char)} {s : List Char} (h : Fits ps s) (hne : ps ≠ []) (v : List Char) :
    Fits ps (v ++ s) := by
  obtain ⟨p, ps, rfl⟩ := exists_cons_of_ne_nil hne
  obtain ⟨w, t, rfl, ht⟩ := h
  exact ⟨v ++ w, t, by simp, ht⟩

theorem expands_iff {pat first name : List Char} {rest : List (List Char)} (h : pat.splitOn '*' = first :: rest) :
    Expands pat name ↔ ∃ t, name = first ++ t ∧ Fits rest t := by
  induction pat generalizing first rest name with
  | nil =>
    obtain ⟨rfl, rfl⟩ := cons.inj h
    simp [Expands, Fits]
  | cons c pat ih =>
    obtain ⟨f, r, hsplit⟩ := exists_cons_of_ne_nil (splitOn_ne_nil '*' pat)
    rw [splitOn_cons_eq_if_modifyHead, hsplit] at h
    by_cases hc : c = '*'
    · obtain ⟨rfl, rfl⟩ := cons.inj (if_pos (beq_iff_eq.mpr hc) ▸ h)
      simp only [Expands, if_pos hc, ih hsplit, Fits]
      grind
    · obtain ⟨rfl, rfl⟩ := cons.inj (if_neg (mt beq_iff_eq.mp hc) ▸ h)
      simp only [Expands, if_neg hc, ih hsplit]
      grind

theorem find_eq_some {mid s : List Char} {i : Nat} (h : find mid s = some i) :
    s = s.take i ++ (mid ++ s.drop (i + mid.length)) := by
  obtain ⟨hi, hp, -⟩ := findIdx?_eq_some_iff_getElem.mp h
  rw [getElem_tails, decide_eq_true_iff, prefix_iff_eq_append, drop_drop] at hp
  rw [hp, take_append_drop]

/-- The search finds an occurrence, and none starts before it. -/
theorem exists_find (w mid t : List Char) : ∃ i ≤ w.length, find mid (w ++ (mid ++ t)) = some i := by
  cases h : find mid (w ++ (mid ++ t)) with
  | none =>
    have hno := findIdx?_eq_none_iff.mp h (mid ++ t) ((mem_tails _ _).mpr (suffix_append ..))
    exact absurd (prefix_append mid t) (of_decide_eq_false hno)
  | some i =>
    obtain ⟨hi, -, hfirst⟩ := findIdx?_eq_some_iff_getElem.mp h
    refine ⟨i, Nat.le_of_not_lt fun hlt => hfirst w.length hlt ?_, rfl⟩
    simp [getElem_tails]

theorem fits_iff (mids : List (List Char)) (last s : List Char) :
    Fits (mids ++ [last]) s ↔ ∃ t, search mids s = some t ∧ last <:+ t := by
  induction mids generalizing s with
  | nil => simp [Fits, search, IsSuffix, eq_comm]
  | cons mid mids ih =>
    have hne : mids ++ [last] ≠ [] := by simp
    constructor
    · rintro ⟨w, t, rfl, ht⟩
      by_cases hmid : mid = []
      · rw [search, if_pos hmid, ← ih, hmid]
        exact ht.append hne w
      · obtain ⟨i, hi, hfind⟩ := exists_find w mid t
        rw [search, if_neg hmid, hfind]
        have hdrop : (w ++ (mid ++ t)).drop (i + mid.length) = ((w ++ mid).drop (i + mid.length)) ++ t := by
          rw [← append_assoc, drop_append_of_le_length (by simpa using hi)]
        exact (ih _).mp (hdrop ▸ ht.append hne _)
    · intro h
      by_cases hmid : mid = []
      · rw [search, if_pos hmid, ← ih] at h
        exact ⟨[], s, by simp [hmid], h⟩
      · rw [search, if_neg hmid] at h
        cases hfind : find mid s with
        | none => simp [hfind] at h
        | some i =>
          rw [hfind] at h
          exact ⟨_, _, find_eq_some hfind, (ih _).mpr h⟩

theorem matchesPat_iff (c : Char) (pat name : List Char) : matchesPat (c :: pat) name ↔ Expands (c :: pat) name := by
  obtain ⟨first, rest, hsplit⟩ := exists_cons_of_ne_nil (splitOn_ne_nil '*' (c :: pat))
  rw [matchesPat, if_neg (cons_ne_nil _ _), hsplit, expands_iff hsplit]
  cases rest with
  | nil =>
    have hpat : c :: pat = first := (intercalate_splitOn '*').symm.trans (by rw [hsplit, intercalate_singleton])
    simp [Fits, hpat]
  | cons p parts =>
    obtain ⟨mids, last, hrest⟩ := (eq_nil_or_concat (p :: parts)).resolve_left (cons_ne_nil _ _)
    have hlast : ∀ s, (last = [] ∨ last <:+ s) ↔ last <:+ s := fun s => or_iff_right_of_imp (· ▸ nil_suffix)
    by_cases hp : first <+: name
    · obtain ⟨t, rfl⟩ := hp
      simp [hrest, fits_iff, hlast, Option.any_eq_true]
    · have hf : first ≠ [] := fun hf => hp (hf ▸ nil_prefix)
      exact iff_of_false (by simp [hf, hp]) fun ⟨t, ht, _⟩ => hp ⟨t, ht.symm⟩

end Ruos.Find
