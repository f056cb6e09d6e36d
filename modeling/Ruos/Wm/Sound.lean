import Ruos.Lib.Reorder
import Ruos.Wm.Compositor

/-! What should hold of the windows after each iteration, and the operations that only move the focus. -/
namespace Ruos.Wm

open Lib List Option

namespace Window

def key (w : Window) : Nat × Nat := (w.id, w.inst)

/-- All of a window that the order, the focus and the ids depend on. -/
def look (w : Window) : (Nat × Nat) × Bool × Bool × Bool := (w.key, w.focused, w.overlay, w.hidden)

end Window

namespace Compositor

/-- The ids handed out are those of the windows and the free ones, each once. -/
structure Named (c : Compositor) : Prop where
  perm : (c.wins.map (·.id) ++ c.freeIds).Perm (List.range c.nextId)
  few : c.nextId ≤ maxWindows

def Dragged (c : Compositor) : Prop := ∀ d, c.drag = some d → (d.winId, d.inst) ∈ c.wins.map Window.key

/-- Only the window at index `focused` may carry the flag. -/
def Flagged (c : Compositor) : Prop := ∀ i w, c.wins[i]? = some w → w.focused = true → i = c.focused

/-- The focused window is an ordinary visible one as long as there are such windows. -/
def Seen (c : Compositor) : Prop :=
  ∀ w, c.wins[c.focused]? = some w → w.hidden = true → ∀ v ∈ c.wins, v.hidden = true

def OneOverlay (c : Compositor) : Prop := c.wins.countP (·.overlay) ≤ 1

structure Good (c : Compositor) : Prop where
  distinct : (c.wins.map (·.id)).Nodup
  notFree : ∀ w ∈ c.wins, w.id ∉ c.freeIds
  flagged : c.Flagged
  seen : c.Seen
  overlay : c.OneOverlay
  dragged : c.Dragged

structure Steady (c : Compositor) : Prop where
  named : c.Named
  inRange : c.focused ≤ c.wins.length - 1
  flagged : c.Flagged
  overlay : c.OneOverlay
  dragged : c.Dragged

structure Sound (c : Compositor) : Prop extends Steady c where
  seen : c.Seen

variable {c c' : Compositor} {i : Nat} {w : Window}

theorem Named.nodup (h : c.Named) : (c.wins.map (·.id) ++ c.freeIds).Nodup := h.perm.nodup_iff.mpr nodup_range

theorem Sound.good (h : c.Sound) : c.Good where
  distinct := (nodup_append.mp h.named.nodup).1
  notFree _ hw hid := (nodup_append.mp h.named.nodup).2.2 _ (mem_map_of_mem hw) _ hid rfl
  __ := h

structure SameIds (c c' : Compositor) : Prop where
  wins : (c'.wins.map Window.key).Perm (c.wins.map Window.key)
  freeIds : c'.freeIds = c.freeIds
  nextId : c'.nextId = c.nextId
  drag : c'.drag = c.drag ∨ c'.drag = none

theorem map_id_eq (wins : List Window) : wins.map (·.id) = (wins.map Window.key).map Prod.fst := by
  rw [List.map_map]
  rfl

theorem SameIds.named (h : SameIds c c') (hc : c.Named) : c'.Named where
  perm := by
    rw [h.freeIds, h.nextId, map_id_eq]
    apply List.Perm.trans _ hc.perm
    rw [map_id_eq c.wins]
    exact (h.wins.map _).append_right _
  few := by
    rw [h.nextId]
    exact hc.few

theorem SameIds.dragged (h : SameIds c c') (hc : c.Dragged) : c'.Dragged := by
  intro d hd
  rcases h.drag with hdrag | hdrag
  · rw [hdrag] at hd
    exact h.wins.mem_iff.mpr (hc d hd)
  · rw [hdrag] at hd
    cases hd

theorem OneOverlay.of_perm (h : c.OneOverlay) (hperm : (c'.wins.map (·.overlay)).Perm (c.wins.map (·.overlay))) :
    c'.OneOverlay := by
  have hcount := hperm.countP_eq id
  rw [countP_map, countP_map] at hcount
  exact Nat.le_trans (Nat.le_of_eq hcount) h

structure SameLook (c c' : Compositor) : Prop where
  wins : c'.wins.map Window.look = c.wins.map Window.look
  focused : c'.focused = c.focused
  freeIds : c'.freeIds = c.freeIds
  nextId : c'.nextId = c.nextId
  drag : c'.drag = c.drag ∨ c'.drag = none

namespace SameLook

variable (h : SameLook c c')
include h

theorem map_eq {β : Type} (p : (Nat × Nat) × Bool × Bool × Bool → β) :
    c'.wins.map (fun w => p w.look) = c.wins.map (fun w => p w.look) := by
  have heq := congrArg (List.map p) h.wins
  rwa [List.map_map, List.map_map] at heq

theorem sameIds : SameIds c c' where
  wins := List.Perm.of_eq (h.map_eq Prod.fst)
  __ := h

theorem getElem? {v : Window} (hv : c'.wins[i]? = some v) : ∃ w, c.wins[i]? = some w ∧ v.look = w.look := by
  have heq := congrArg (·[i]?) h.wins
  simp only [getElem?_map, hv, map_some] at heq
  obtain ⟨w, hw, hlook⟩ := map_eq_some_iff.mp heq.symm
  exact ⟨w, hw, hlook.symm⟩

theorem hidden_iff : (∀ v ∈ c'.wins, v.hidden = true) ↔ ∀ v ∈ c.wins, v.hidden = true := by
  have hmap : c'.wins.map Window.hidden = c.wins.map Window.hidden := h.map_eq fun x => x.2.2.2
  rw [← List.forall_mem_map (P := (· = true)), hmap, List.forall_mem_map]

theorem steady (hc : c.Steady) : c'.Steady where
  named := h.sameIds.named hc.named
  dragged := h.sameIds.dragged hc.dragged
  inRange := by
    have hlen : c'.wins.length = c.wins.length := by
      rw [← length_map Window.look, h.wins, length_map]
    rw [h.focused, hlen]
    exact hc.inRange
  flagged i v hv hflag := by
    obtain ⟨w, hw, hlook⟩ := h.getElem? hv
    rw [h.focused]
    exact hc.flagged i w hw ((congrArg (·.2.1) hlook).symm.trans hflag)
  overlay := hc.overlay.of_perm (List.Perm.of_eq (h.map_eq fun x => x.2.2.1))

theorem seen (hc : c.Seen) : c'.Seen := by
  intro v hv hhid
  rw [h.focused] at hv
  obtain ⟨w, hw, hlook⟩ := h.getElem? hv
  exact h.hidden_iff.mpr (hc w hw ((congrArg (·.2.2.2) hlook).symm.trans hhid))

theorem sound (hc : c.Sound) : c'.Sound := ⟨h.steady hc.toSteady, h.seen hc.seen⟩

end SameLook

variable {f : Window → Window}

theorem sameLook_update (h : ∀ w, (f w).look = w.look) (c : Compositor) (i : Nat) : SameLook c (c.update i f) where
  wins := map_modify_of_eq h c.wins i
  focused := rfl
  freeIds := rfl
  nextId := rfl
  drag := .inl rfl

theorem sameLook_mapIdx {f : Nat → Window → Window} (h : ∀ i w, (f i w).look = w.look) (c : Compositor) :
    SameLook c { c with wins := c.wins.mapIdx f } where
  wins := map_mapIdx_of_eq h c.wins
  focused := rfl
  freeIds := rfl
  nextId := rfl
  drag := .inl rfl

theorem sameLook_map (h : ∀ w, (f w).look = w.look) (c : Compositor) :
    SameLook c { c with wins := c.wins.map f } where
  wins := by
    rw [List.map_map]
    exact map_congr_left fun w _ => h w
  focused := rfl
  freeIds := rfl
  nextId := rfl
  drag := .inl rfl

/-- A change that keeps the id, does not set the flag and does not make an overlay. -/
structure Quiet (f : Window → Window) : Prop where
  key : ∀ w, (f w).key = w.key
  focused : ∀ w, (f w).focused = true → w.focused = true
  overlay : ∀ w, (f w).overlay = w.overlay

theorem sameIds_update (h : ∀ w, (f w).key = w.key) (c : Compositor) (i : Nat) : SameIds c (c.update i f) where
  wins := List.Perm.of_eq (map_modify_of_eq h c.wins i)
  freeIds := rfl
  nextId := rfl
  drag := .inl rfl

theorem getElem?_update (c : Compositor) (i j : Nat) :
    (c.update i f).wins[j]? = (c.wins[j]?).map fun w => if i = j then f w else w := getElem?_modify f i c.wins j

theorem length_update : (c.update i f).wins.length = c.wins.length := length_modify _ _ _

theorem Steady.update (h : c.Steady) (hf : Quiet f) (i : Nat) : (c.update i f).Steady where
  named := (sameIds_update hf.key c i).named h.named
  dragged := (sameIds_update hf.key c i).dragged h.dragged
  inRange := by
    rw [length_update]
    exact h.inRange
  flagged j v hv hflag := by
    rw [getElem?_update] at hv
    obtain ⟨w, hw, rfl⟩ := map_eq_some_iff.mp hv
    apply h.flagged j w hw
    by_cases hij : i = j
    · rw [if_pos hij] at hflag
      exact hf.focused w hflag
    · rwa [if_neg hij] at hflag
  overlay := h.overlay.of_perm (List.Perm.of_eq (map_modify_of_eq hf.overlay c.wins i))

theorem setFocus_of_lt (h : i < c.wins.length) :
    c.setFocus i = { (c.update c.focused Window.unfocus).update i Window.focus with focused := i } := by
  rw [setFocus, if_neg (Nat.not_le.mpr h)]
  rfl

theorem map_setFocus {β : Type} {p : Window → β} (hu : ∀ w, p w.unfocus = p w) (hf : ∀ w, p w.focus = p w)
    (c : Compositor) (i : Nat) : (c.setFocus i).wins.map p = c.wins.map p := by
  unfold setFocus
  split_ifs
  · rfl
  · exact (map_modify_of_eq hf _ i).trans (map_modify_of_eq hu _ _)

theorem sameIds_setFocus (c : Compositor) (i : Nat) : SameIds c (c.setFocus i) where
  wins := List.Perm.of_eq (map_setFocus (fun _ => rfl) (fun _ => rfl) c i)
  freeIds := by unfold setFocus; split_ifs <;> rfl
  nextId := by unfold setFocus; split_ifs <;> rfl
  drag := by unfold setFocus; split_ifs <;> exact .inl rfl

theorem quiet_unfocus : Quiet Window.unfocus where
  key _ := rfl
  focused _ h := by cases h
  overlay _ := rfl

theorem flagged_setFocus (h : c.Flagged) (i : Nat) : (c.setFocus i).Flagged := by
  by_cases hi : i < c.wins.length
  · rw [setFocus_of_lt hi]
    intro j v hv hflag
    by_contra hne
    -- Away from `i` only the window that had the focus may be flagged, and it has just lost its flag.
    rw [getElem?_update, getElem?_update, Option.map_map] at hv
    obtain ⟨w, hw, rfl⟩ := map_eq_some_iff.mp hv
    rw [Function.comp_apply, if_neg (Ne.symm hne)] at hflag
    by_cases hj : c.focused = j
    · rw [if_pos hj] at hflag
      cases hflag
    · rw [if_neg hj] at hflag
      exact hj (h j w hw hflag).symm
  · rw [setFocus, if_pos (Nat.le_of_not_lt hi)]
    exact h

theorem length_setFocus (c : Compositor) (i : Nat) : (c.setFocus i).wins.length = c.wins.length := by
  have h := congrArg length (map_setFocus (p := Window.key) (fun _ => rfl) (fun _ => rfl) c i)
  rwa [length_map, length_map] at h

theorem Steady.setFocus (h : c.Steady) (i : Nat) : (c.setFocus i).Steady where
  named := (sameIds_setFocus c i).named h.named
  dragged := (sameIds_setFocus c i).dragged h.dragged
  flagged := flagged_setFocus h.flagged i
  inRange := by
    rw [length_setFocus]
    by_cases hi : i < c.wins.length
    · rw [setFocus_of_lt hi]
      exact Nat.le_sub_one_of_lt hi
    · rw [Compositor.setFocus, if_pos (Nat.le_of_not_lt hi)]
      exact h.inRange
  overlay := h.overlay.of_perm (List.Perm.of_eq (map_setFocus (fun _ => rfl) (fun _ => rfl) c i))

theorem hidden_setFocus (c : Compositor) (i : Nat) :
    (∀ v ∈ (c.setFocus i).wins, v.hidden = true) ↔ ∀ v ∈ c.wins, v.hidden = true := by
  have hmap := map_setFocus (p := Window.hidden) (fun _ => rfl) (fun _ => rfl) c i
  rw [← List.forall_mem_map (P := (· = true)), hmap, List.forall_mem_map]

theorem seen_setFocus_iff (hw : c.wins[i]? = some w) :
    (c.setFocus i).Seen ↔ (w.hidden = true → ∀ v ∈ c.wins, v.hidden = true) := by
  have hi : i < c.wins.length := (List.getElem?_eq_some_iff.mp hw).1
  have hfocus : (c.setFocus i).focused = i := by rw [setFocus_of_lt hi]
  have hhid : ((c.setFocus i).wins[i]?).map Window.hidden = some w.hidden := by
    rw [← getElem?_map, map_setFocus (fun _ => rfl) (fun _ => rfl), getElem?_map, hw]
    rfl
  rw [Seen, hfocus, hidden_setFocus]
  constructor
  · intro h hhidden
    obtain ⟨v, hv, hvw⟩ := map_eq_some_iff.mp hhid
    exact h v hv (hvw.trans hhidden)
  · intro h v hv hvhid
    rw [hv, map_some, some.injEq] at hhid
    exact h (hhid.symm.trans hvhid)

theorem topmost_some {p : Window → Bool} (h : c.topmost p = some i) : ∃ w, c.wins[i]? = some w ∧ p w = true := by
  have hany := find?_some h
  cases hw : c.wins[i]? with
  | none =>
    rw [hw] at hany
    cases hany
  | some w =>
    rw [hw] at hany
    exact ⟨w, rfl, hany⟩

theorem topmost_none {p : Window → Bool} (h : c.topmost p = none) : ∀ w ∈ c.wins, p w = false := by
  intro w hw
  obtain ⟨i, hi⟩ := mem_iff_getElem?.mp hw
  have hmem : i ∈ (List.range c.wins.length).reverse := by
    rw [mem_reverse, mem_range]
    exact (List.getElem?_eq_some_iff.mp hi).1
  have hnot := find?_eq_none.mp h i hmem
  rw [hi] at hnot
  exact Bool.eq_false_iff.mpr hnot

theorem Steady.focusTopmostVisible (h : c.Steady) : c.focusTopmostVisible.Sound := by
  unfold Compositor.focusTopmostVisible
  cases htop : c.topmost fun w => !w.hidden with
  | none =>
    have hall := topmost_none htop
    exact ⟨h, fun _ _ _ v hv => by simpa using hall v hv⟩
  | some i =>
    obtain ⟨w, hw, hvis⟩ := topmost_some htop
    refine ⟨h.setFocus i, (seen_setFocus_iff hw).mpr fun hhid => ?_⟩
    rw [hhid] at hvis
    cases hvis

end Compositor
end Ruos.Wm
