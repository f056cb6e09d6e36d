import Ruos.Wm.Sound

/-! Raising, spawning and removing windows: where the focus lands, what becomes of a drag, and when both come out
right. -/
namespace Ruos.Wm.Compositor

open Lib List

variable {c c' : Compositor} {i : Nat} {w : Window}

theorem Steady.focused_lt (h : c.Steady) (hw : c.wins[i]? = some w) : c.focused < c.wins.length := by
  have hi := (List.getElem?_eq_some_iff.mp hw).1
  have hrange := h.inRange
  omega

theorem raise_of_lt (hi : i < c.wins.length) (hf : c.focused < c.wins.length) :
    c.raise i = ({ c with wins := moveLast c.wins i, focused := movedTo i c.wins.length c.focused },
      c.wins.length - 1) := by
  have hget := getElem?_eq_getElem hi
  by_cases hlast : i = c.wins.length - 1
  · have hmoved : movedTo i c.wins.length c.focused = c.focused := by
      unfold movedTo
      split_ifs <;> omega
    rw [moveLast_last (by omega), hmoved]
    simp only [raise, hget, if_pos hlast]
    rw [← hlast]
  · simp [raise, hget, if_neg hlast, moveLast, movedTo]

theorem Steady.raise (h : c.Steady) (hw : c.wins[i]? = some w) : (c.raise i).1.Steady := by
  have hi := (List.getElem?_eq_some_iff.mp hw).1
  have hf := h.focused_lt hw
  have hperm := moveLast_perm c.wins i
  rw [raise_of_lt hi hf]
  have hsame : SameIds c { c with wins := moveLast c.wins i, focused := movedTo i c.wins.length c.focused } :=
    ⟨hperm.map _, rfl, rfl, Or.inl rfl⟩
  constructor
  case named => exact hsame.named h.named
  case dragged => exact hsame.dragged h.dragged
  case overlay => exact h.overlay.of_perm (hperm.map _)
  case inRange =>
    have hlt := @movedTo_lt i c.wins.length c.focused hf
    simp only [hperm.length_eq]
    omega
  case flagged =>
    intro j v hv hflag
    obtain ⟨k, -, hk, hkj⟩ := moveLast_origin hi hv
    rw [← hkj, h.flagged k v hk hflag]

theorem getElem?_raise (h : c.Steady) (hw : c.wins[i]? = some w) :
    (c.raise i).1.wins[(c.raise i).2]? = some w ∧ ∀ v, v ∈ (c.raise i).1.wins ↔ v ∈ c.wins := by
  have hi := (List.getElem?_eq_some_iff.mp hw).1
  rw [raise_of_lt hi (h.focused_lt hw)]
  constructor
  · have hget := getElem?_moveLast hi hi
    rw [movedTo, if_pos rfl, hw] at hget
    exact hget
  · intro v
    exact (moveLast_perm c.wins i).mem_iff

theorem seen_raise_setFocus_iff (h : c.Steady) (hw : c.wins[i]? = some w) :
    ((c.raise i).1.setFocus (c.raise i).2).Seen ↔ (w.hidden = true → ∀ v ∈ c.wins, v.hidden = true) := by
  obtain ⟨hget, hmem⟩ := getElem?_raise h hw
  rw [seen_setFocus_iff hget]
  simp only [hmem]

theorem Named.allocId (h : c.Named) (hlen : c.wins.length < maxWindows) :
    (c.wins.map (·.id) ++ c.allocId.1 :: c.allocId.2.freeIds).Perm (range c.allocId.2.nextId) ∧
      c.allocId.2.nextId ≤ maxWindows := by
  have hperm := h.perm
  have hfew := h.few
  unfold Compositor.allocId
  cases hfree : c.freeIds with
  | cons id ids =>
    rw [hfree] at hperm
    exact ⟨hperm, hfew⟩
  | nil =>
    rw [hfree, append_nil] at hperm
    have hnext : c.wins.length = c.nextId := by simpa using hperm.length_eq
    have hmod : (c.nextId + 1) % 2 ^ 32 = c.nextId + 1 := by
      unfold maxWindows at hfew
      omega
    simp only [hmod, range_succ]
    exact ⟨hperm.append_right _, by omega⟩

theorem allocId_fields (c : Compositor) :
    c.allocId.2.wins = c.wins ∧ c.allocId.2.focused = c.focused ∧ c.allocId.2.drag = c.drag := by
  unfold allocId
  split <;> exact ⟨rfl, rfl, rfl⟩

theorem Steady.push (h : c.Steady) (hnamed : c'.Named) (hwins : c'.wins = c.wins ++ [w])
    (hfocused : c'.focused = c.focused) (hdrag : c'.drag = c.drag) (hflag : w.focused = false)
    (hoverlay : w.overlay = false) : c'.Steady where
  named := hnamed
  inRange := by
    have hrange := h.inRange
    rw [hwins, length_append]
    omega
  flagged j v hv hvflag := by
    rw [hwins, getElem?_append] at hv
    rw [hfocused]
    split_ifs at hv with hj
    · exact h.flagged j v hv hvflag
    · have hvw : v = w := mem_singleton.mp (mem_of_getElem? hv)
      rw [hvw, hflag] at hvflag
      cases hvflag
  overlay := by
    rw [OneOverlay, hwins, countP_append, countP_singleton, if_neg (by simp [hoverlay])]
    exact h.overlay
  dragged d hd := by
    rw [hwins, map_append]
    exact mem_append_left _ (h.dragged d (hdrag ▸ hd))

theorem raise_top (hwins : c'.wins = c.wins ++ [w]) : c'.raise (c'.wins.length - 1) = (c', c'.wins.length - 1) := by
  simp [raise, hwins]

theorem Steady.focusPushed (h : c.Steady) (hnamed : c'.Named) (hwins : c'.wins = c.wins ++ [w])
    (hfocused : c'.focused = c.focused) (hdrag : c'.drag = c.drag) (hflag : w.focused = false)
    (hoverlay : w.overlay = false) (hvis : w.hidden = false) :
    ((c'.raise (c'.wins.length - 1)).1.setFocus ((c'.raise (c'.wins.length - 1)).1.wins.length - 1)).Sound := by
  have htop : c'.wins[c'.wins.length - 1]? = some w := by simp [hwins]
  rw [raise_top hwins]
  constructor
  · exact (h.push hnamed hwins hfocused hdrag hflag hoverlay).setFocus _
  · apply (seen_setFocus_iff htop).mpr
    intro hhid
    rw [hvis] at hhid
    cases hhid

theorem Sound.spawnNamed (h : c.Sound) (hlive : ∀ w ∈ c.wins, w.alive = true) (g : Geom) (init : Option (List Call)) :
    (c.spawnNamed g init).Sound := by
  have hcount : c.wins.countP (·.alive) = c.wins.length := countP_eq_length.mpr hlive
  simp only [Compositor.spawnNamed, hcount]
  by_cases hfull : maxWindows ≤ c.wins.length
  · rw [if_pos hfull]
    exact h
  · obtain ⟨hperm, hfew⟩ := h.named.allocId (Nat.lt_of_not_le hfull)
    obtain ⟨hwins, hfocused, hdrag⟩ := allocId_fields c
    rw [if_neg hfull]
    cases init with
    | none =>
      have hlook : SameLook { c with freeIds := c.allocId.1 :: c.allocId.2.freeIds, nextId := c.allocId.2.nextId }
          { c.allocId.2 with freeIds := c.allocId.1 :: c.allocId.2.freeIds } :=
        ⟨congrArg _ hwins, hfocused, rfl, rfl, Or.inl hdrag⟩
      exact hlook.sound ⟨{ h with named := ⟨hperm, hfew⟩ }, h.seen⟩
    | some calls =>
      apply h.toSteady.focusPushed (w := newWindow g c.allocId.2 c.allocId.1 c.wins.length (calls.foldl WmState.call {}))
      case hnamed =>
        refine ⟨?_, hfew⟩
        simp only [hwins, map_append, append_assoc]
        exact hperm
      case hwins => simp only [hwins]
      case hfocused => exact hfocused
      case hdrag => exact hdrag
      all_goals rfl

open Option Window

/-- The window that gets the focus when the focused one goes: the next above it, or below it at the top. -/
def heir (c : Compositor) (i : Nat) : Nat := if i + 1 < c.wins.length then i + 1 else i - 1

/-- The drag is of another window, and a minimized window does not inherit the focus before a visible one. -/
def RemoveOk (c : Compositor) (i : Nat) : Prop :=
  (∀ d ∈ c.drag, ∀ w ∈ c.wins[i]?, d.winId ≠ w.id) ∧
    (i = c.focused → ∀ v ∈ c.wins[c.heir i]?, v.minimized = true → v.bg = false → v.overlay = false →
      ∀ u ∈ c.wins.eraseIdx i, u.hidden = true)

instance (c : Compositor) (i : Nat) : Decidable (RemoveOk c i) := by
  unfold RemoveOk
  infer_instance

/-- The compositor after the removal, before another window is looked for. -/
def removed (c : Compositor) (i : Nat) (w : Window) : Compositor :=
  { c with
    wins := flagged (c.wins.eraseIdx i) (c.shifted i (c.wins.eraseIdx i).length)
    freeIds := w.id :: c.freeIds
    focused := c.shifted i (c.wins.eraseIdx i).length }

theorem map_flagged {β : Type} {p : Window → β} (h : ∀ w b, p { w with focused := b } = p w) (wins : List Window)
    (f : Nat) : (flagged wins f).map p = wins.map p := map_mapIdx_of_eq (fun _ w => h w _) wins

theorem removeAt_eq (hw : c.wins[i]? = some w) : c.removeAt i =
      if ((c.wins.eraseIdx i)[(c.removed i w).focused]?).any fun v => v.overlay || v.bg then
        ((c.removed i w).update (c.removed i w).focused unfocus).focusTopmostVisible else c.removed i w := by
  simp only [removeAt, hw]
  by_cases hrest : c.wins.eraseIdx i = []
  · simp [hrest, removed, flagged, shifted]
  · rw [if_neg hrest]
    rfl

theorem perm_eraseIdx (hw : c.wins[i]? = some w) : (w :: c.wins.eraseIdx i).Perm c.wins := by
  obtain ⟨hi, rfl⟩ := List.getElem?_eq_some_iff.mp hw
  exact getElem_cons_eraseIdx_perm hi

theorem Steady.removed (h : c.Steady) (hw : c.wins[i]? = some w) (hdrag : ∀ d, c.drag = some d → d.winId ≠ w.id) :
    (c.removed i w).Steady where
  named := by
    refine ⟨?_, h.named.few⟩
    apply List.Perm.trans _ h.named.perm
    simp only [Compositor.removed]
    rw [map_flagged fun _ _ => rfl]
    apply perm_middle.trans
    exact ((perm_eraseIdx hw).map (·.id)).append_right _
  inRange := by
    simp only [Compositor.removed, Compositor.flagged, length_mapIdx]
    exact Nat.min_le_right _ _
  flagged j v hv hflag := by
    simp only [Compositor.removed, Compositor.flagged, getElem?_mapIdx] at hv
    obtain ⟨u, -, rfl⟩ := map_eq_some_iff.mp hv
    exact of_decide_eq_true hflag
  overlay := by
    have hcount : ((c.removed i w).wins.map (·.overlay)).countP id ≤ (c.wins.map (·.overlay)).countP id := by
      simp only [Compositor.removed]
      rw [map_flagged fun _ _ => rfl]
      exact ((eraseIdx_sublist c.wins i).map _).countP_le
    rw [countP_map, countP_map] at hcount
    exact Nat.le_trans hcount h.overlay
  dragged d hd := by
    have hmem := ((perm_eraseIdx hw).map key).mem_iff.mpr (h.dragged d hd)
    simp only [Compositor.removed]
    rw [map_flagged fun _ _ => rfl]
    rcases mem_cons.mp hmem with heq | hmem
    · exact absurd (congrArg Prod.fst heq) (hdrag d hd)
    · exact hmem

theorem not_dragged_of_removed (h : c.Named) (hw : c.wins[i]? = some w)
    {wins : List Window} (hwins : (wins.map key).Perm ((c.wins.eraseIdx i).map key)) (inst : Nat) :
    (w.id, inst) ∉ wins.map key := by
  intro hmem
  obtain ⟨v, hv, hkey⟩ := mem_map.mp (hwins.mem_iff.mp hmem)
  have hnodup : ((w :: c.wins.eraseIdx i).map (·.id)).Nodup :=
    ((perm_eraseIdx hw).map _).nodup_iff.mpr (nodup_append.mp h.nodup).1
  rw [map_cons, nodup_cons] at hnodup
  apply hnodup.1
  rw [← show v.id = w.id from congrArg Prod.fst hkey]
  exact mem_map_of_mem hv

theorem getElem?_shifted_of_ne (h : c.Steady) (hw : c.wins[i]? = some w) (hi : i ≠ c.focused) :
    (c.wins.eraseIdx i)[c.shifted i (c.wins.eraseIdx i).length]? = c.wins[c.focused]? := by
  have hlt := (List.getElem?_eq_some_iff.mp hw).1
  have hf := h.focused_lt hw
  rw [length_eraseIdx_of_lt hlt]
  by_cases hbelow : i < c.focused
  · have hshift : c.shifted i (c.wins.length - 1) = c.focused - 1 := by
      rw [shifted, if_pos (Or.inl hbelow)]
      omega
    rw [getElem?_eraseIdx_of_ge (by omega)]
    congr 1
    omega
  · have hshift : c.shifted i (c.wins.length - 1) = c.focused := by
      rw [shifted, if_neg (by omega)]
      omega
    rw [hshift, getElem?_eraseIdx_of_lt (by omega)]

theorem getElem?_shifted_self (hw : c.wins[i]? = some w) (hi : i = c.focused) (hrest : c.wins.eraseIdx i ≠ []) :
    (c.wins.eraseIdx i)[c.shifted i (c.wins.eraseIdx i).length]? = c.wins[c.heir i]? := by
  have hlt := (List.getElem?_eq_some_iff.mp hw).1
  have hlen := length_eraseIdx_of_lt hlt
  have hpos := length_pos_iff.mpr hrest
  rw [hlen]
  unfold heir
  by_cases htop : i + 1 < c.wins.length
  · have hshift : c.shifted i (c.wins.length - 1) = i := by
      rw [shifted, if_neg (by omega)]
      omega
    rw [hshift, if_pos htop, getElem?_eraseIdx_of_ge (Nat.le_refl i)]
  · have hshift : c.shifted i (c.wins.length - 1) = i - 1 := by
      rw [shifted, if_pos (by omega)]
      omega
    rw [hshift, if_neg htop, getElem?_eraseIdx_of_lt (by omega)]

theorem seen_removed_iff :
    (c.removed i w).Seen ↔ ∀ v, (c.wins.eraseIdx i)[(c.removed i w).focused]? = some v → v.hidden = true →
      ∀ u ∈ c.wins.eraseIdx i, u.hidden = true := by
  have hmap : (c.removed i w).wins.map Window.hidden = (c.wins.eraseIdx i).map Window.hidden :=
    map_flagged (fun _ _ => rfl) _ _
  have hall : (∀ u ∈ (c.removed i w).wins, u.hidden = true) ↔ ∀ u ∈ c.wins.eraseIdx i, u.hidden = true := by
    rw [← List.forall_mem_map (P := (· = true)), hmap, List.forall_mem_map]
  have hget := congrArg (·[(c.removed i w).focused]?) hmap
  simp only [getElem?_map] at hget
  unfold Seen
  rw [hall]
  constructor
  · intro h v hv hhid
    rw [hv] at hget
    obtain ⟨u, hu, huv⟩ := map_eq_some_iff.mp hget
    exact h u hu (huv.trans hhid)
  · intro h u hu hhid
    rw [hu] at hget
    obtain ⟨v, hv, hvu⟩ := map_eq_some_iff.mp hget.symm
    exact h v hv (hvu.trans hhid)

theorem Sound.removeAt (h : c.Sound) (hw : c.wins[i]? = some w) (hok : RemoveOk c i) : (c.removeAt i).Sound := by
  have hsteady := h.toSteady.removed hw fun d hd => hok.1 d hd w hw
  rw [removeAt_eq hw]
  split_ifs with hland
  · exact (hsteady.update quiet_unfocus _).focusTopmostVisible
  · refine ⟨hsteady, ?_⟩
    by_cases hi : i = c.focused
    · apply seen_removed_iff.mpr
      intro v hv hhid
      have hrest : c.wins.eraseIdx i ≠ [] := by
        intro hnil
        rw [hnil] at hv
        cases hv
      have hheir : c.wins[c.heir i]? = some v := (getElem?_shifted_self hw hi hrest).symm.trans hv
      rw [hv, any_some, Bool.or_eq_true, not_or] at hland
      have hbg := Bool.eq_false_iff.mpr hland.2
      have hoverlay := Bool.eq_false_iff.mpr hland.1
      apply hok.2 hi v hheir _ hbg hoverlay
      rw [Window.hidden, hbg, hoverlay] at hhid
      exact hhid
    · apply seen_removed_iff.mpr
      intro v hv hhid u hu
      rw [removed, getElem?_shifted_of_ne h.toSteady hw hi] at hv
      exact h.seen v hv hhid u ((eraseIdx_sublist c.wins i).subset hu)

theorem focusTopmostVisible_keeps {β : Type} {p : Window → β} (h : ∀ w b, p { w with focused := b } = p w)
    (c : Compositor) : c.focusTopmostVisible.wins.map p = c.wins.map p ∧ c.focusTopmostVisible.drag = c.drag := by
  unfold focusTopmostVisible
  split
  · exact ⟨rfl, rfl⟩
  · refine ⟨map_setFocus (fun w => h w false) (fun w => h w true) c _, ?_⟩
    unfold setFocus
    split_ifs <;> rfl

theorem removeAt_keeps {β : Type} {p : Window → β} (h : ∀ w b, p { w with focused := b } = p w)
    (hw : c.wins[i]? = some w) :
    (c.removeAt i).wins.map p = (c.wins.eraseIdx i).map p ∧ (c.removeAt i).drag = c.drag := by
  have hremoved : (c.removed i w).wins.map p = (c.wins.eraseIdx i).map p := map_flagged h _ _
  rw [removeAt_eq hw]
  split_ifs
  · obtain ⟨hmap, hdrag⟩ :=
      focusTopmostVisible_keeps h ((c.removed i w).update (c.removed i w).focused unfocus)
    have hunfocus : ∀ w : Window, p w.unfocus = p w := fun w => h w false
    exact ⟨hmap.trans ((map_modify_of_eq hunfocus _ _).trans hremoved), hdrag⟩
  · exact ⟨hremoved, rfl⟩

theorem RemoveOk.of_good (h : c.Sound) (hw : c.wins[i]? = some w) (hgood : (c.removeAt i).Good) : RemoveOk c i := by
  obtain ⟨hkeys, hdrag⟩ := @removeAt_keeps c i w _ Window.key (fun _ _ => rfl) hw
  constructor
  · intro d hd v hv hid
    obtain rfl : w = v := some.inj (hw.symm.trans hv)
    apply not_dragged_of_removed h.named hw (List.Perm.of_eq hkeys) d.inst
    rw [← hid]
    exact hgood.dragged d (hdrag.trans hd)
  · intro hi v hv hmin hbg hoverlay u hu
    have hland := getElem?_shifted_self hw hi (ne_nil_of_mem hu)
    have hsame : c.removeAt i = c.removed i w := by
      rw [removeAt_eq hw, if_neg]
      rw [removed, hland, hv, any_some, hbg, hoverlay]
      exact Bool.false_ne_true
    apply seen_removed_iff.mp (hsame ▸ hgood.seen) v (hland.trans hv) _ u hu
    rw [Window.hidden, hmin, Bool.or_true]

/-- A removal is right exactly if it is not of the dragged window and no minimized window inherits the focus before a
visible one. -/
theorem good_removeAt_iff (h : c.Sound) (hw : c.wins[i]? = some w) : (c.removeAt i).Good ↔ RemoveOk c i :=
  ⟨RemoveOk.of_good h hw, fun hok => (h.removeAt hw hok).good⟩

end Ruos.Wm.Compositor
