import Ruos.Wm.Removal

/-! The requests of the guests: background, overlay, move, minimize, maximize and activate. -/
namespace Ruos.Wm.Compositor

open Lib List Option Window

variable {c : Compositor} {i id : Nat} {w : Window}

theorem seen_update_of_ne {f : Window → Window} (hf : ∀ w, w.hidden = true → (f w).hidden = true) (h : c.Seen)
    (hi : c.focused ≠ i) : (c.update i f).Seen := by
  intro v hv hhid u hu
  change (c.update i f).wins[c.focused]? = some v at hv
  rw [getElem?_update] at hv
  obtain ⟨v', hv', rfl⟩ := map_eq_some_iff.mp hv
  rw [if_neg (Ne.symm hi)] at hhid
  obtain ⟨j, hj⟩ := mem_iff_getElem?.mp hu
  rw [getElem?_update] at hj
  obtain ⟨u', hu', rfl⟩ := map_eq_some_iff.mp hj
  have hhid' := h v' hv' hhid u' (mem_of_getElem? hu')
  split_ifs
  · exact hf u' hhid'
  · exact hhid'

theorem seen_update_iff {f : Window → Window} (hf : ∀ w, (f w).hidden = true) (h : c.Seen) (hw : c.wins[i]? = some w) :
    (c.update i f).Seen ↔ (c.focused = i → ∀ j v, c.wins[j]? = some v → j ≠ i → v.hidden = true) := by
  constructor
  · intro hseen hi j v hv hji
    have hget : (c.update i f).wins[c.focused]? = some (f w) := by
      rw [getElem?_update, hi, hw, map_some, if_pos rfl]
    have hv' : (c.update i f).wins[j]? = some v := by
      rw [getElem?_update, hv, map_some, if_neg (Ne.symm hji)]
    exact hseen (f w) hget (hf w) v (mem_of_getElem? hv')
  · intro hothers
    by_cases hi : c.focused = i
    · intro v hv hhid u hu
      obtain ⟨j, hj⟩ := mem_iff_getElem?.mp hu
      rw [getElem?_update] at hj
      obtain ⟨u', hu', rfl⟩ := map_eq_some_iff.mp hj
      split_ifs with hij
      · exact hf u'
      · exact hothers hi j u' hu' (Ne.symm hij)
    · exact seen_update_of_ne (fun w _ => hf w) h hi

theorem exists_of_asks {p : WmState → Bool} (h : c.asks i p = true) : ∃ w, c.wins[i]? = some w ∧ p w.win = true := by
  unfold asks at h
  cases hw : c.wins[i]? with
  | none =>
    rw [hw] at h
    cases h
  | some w =>
    rw [hw] at h
    exact ⟨w, rfl, h⟩

/-- The window does not have the focus, or no other can be seen. -/
def BackgroundOk (c : Compositor) (i : Nat) : Prop :=
  c.asks i (·.bgRequest) = true → c.focused = i → ∀ j < c.wins.length, ∀ v ∈ c.wins[j]?, j ≠ i → v.hidden = true

instance (c : Compositor) (i : Nat) : Decidable (BackgroundOk c i) := by
  unfold BackgroundOk
  infer_instance

theorem backgroundOk_iff (hask : c.asks i (·.bgRequest) = true) :
    BackgroundOk c i ↔ (c.focused = i → ∀ j v, c.wins[j]? = some v → j ≠ i → v.hidden = true) := by
  constructor
  · intro h hi j v hv
    exact h hask hi j (List.getElem?_eq_some_iff.mp hv).1 v hv
  · intro h _ hi j _ v hv
    exact h hi j v hv

theorem good_of_steady (h : c.Steady) (hseen : c.Seen) : c.Good := Sound.good ⟨h, hseen⟩

theorem quiet_pinned : Quiet pinned where
  key _ := rfl
  focused _ h := h
  overlay _ := rfl

/-- A window becomes the background rightly exactly if it leaves no visible window without the focus. -/
theorem good_backgroundAt_iff (h : c.Sound) : (c.backgroundAt i).Good ↔ BackgroundOk c i := by
  unfold backgroundAt
  split_ifs with hask
  · obtain ⟨w, hw, -⟩ := exists_of_asks hask
    have hhid : ∀ w : Window, w.pinned.hidden = true := fun _ => rfl
    rw [backgroundOk_iff hask, ← seen_update_iff hhid h.seen hw]
    exact ⟨Good.seen, good_of_steady (h.toSteady.update quiet_pinned i)⟩
  · exact ⟨fun _ hask' => absurd hask' hask, fun _ => h.good⟩

theorem Sound.backgroundAt (h : c.Sound) (hok : BackgroundOk c i) : (c.backgroundAt i).Sound := by
  have hseen := ((good_backgroundAt_iff h).mpr hok).seen
  refine ⟨?_, hseen⟩
  unfold Compositor.backgroundAt
  split_ifs
  · exact h.toSteady.update quiet_pinned i
  · exact h.toSteady

theorem sameLook_answer (c : Compositor) (i : Nat) (f : WmState → WmState) : SameLook c (c.answer i f) :=
  sameLook_update (f := fun w => { w with win := f w.win }) (fun _ => rfl) c i

theorem Steady.becomeOverlay (h : c.Steady) (hnone : c.overlayIndex = none) (i : Nat) :
    (c.update i overlaid).Steady where
  named := (sameIds_update (f := overlaid) (fun _ => rfl) c i).named h.named
  dragged := (sameIds_update (f := overlaid) (fun _ => rfl) c i).dragged h.dragged
  inRange := by
    rw [length_update]
    exact h.inRange
  flagged j v hv hflag := by
    rw [getElem?_update] at hv
    obtain ⟨u, hu, rfl⟩ := map_eq_some_iff.mp hv
    apply h.flagged j u hu
    split_ifs at hflag <;> exact hflag
  overlay := by
    have hcount : c.wins.countP (·.overlay) = 0 := by
      apply countP_eq_zero.mpr
      intro v hv
      exact Bool.eq_false_iff.mp (findIdx?_eq_none_iff.mp hnone v hv)
    have hle := countP_modify_le (·.overlay) overlaid c.wins i
    rw [hcount] at hle
    exact hle

theorem hidden_overlaid (w : Window) : w.overlaid.hidden = true := by
  rw [Window.hidden, Window.overlaid, Bool.or_true, Bool.true_or]

theorem Sound.overlayAt (h : c.Sound) (i : Nat) : (c.overlayAt i).Sound := by
  have hc := (sameLook_answer c i fun s => { s with overlayRequest := false }).sound h
  simp only [Compositor.overlayAt]
  split_ifs with hask hsome hfocus
  · exact hc
  · have hsteady := hc.toSteady.becomeOverlay (not_isSome_iff_eq_none.mp hsome) i
    exact (hsteady.update quiet_unfocus i).focusTopmostVisible
  · have hsteady := hc.toSteady.becomeOverlay (not_isSome_iff_eq_none.mp hsome) i
    exact ⟨hsteady, seen_update_of_ne (fun w _ => hidden_overlaid w) hc.seen hfocus⟩
  · exact h

theorem Sound.moveAt (h : c.Sound) (cursor : Int × Int) (i : Nat) : (c.moveAt cursor i).Sound := by
  have hlook := sameLook_answer c i fun s => { s with moveRequested := false }
  have hc := hlook.sound h
  have hids := hlook.sameIds.wins
  unfold Compositor.moveAt
  cases hw : c.wins[i]? with
  | none => exact h
  | some w =>
    simp only
    split_ifs
    · exact hc
    · refine ⟨{ hc with named := ⟨hc.named.perm, hc.named.few⟩, dragged := ?_ }, hc.seen⟩
      intro d hd
      cases hd
      exact hids.mem_iff.mpr (List.mem_map_of_mem (mem_of_getElem? hw))
    · exact h

theorem quiet_minimize : Quiet minimize where
  key _ := rfl
  focused _ h := h
  overlay _ := rfl

theorem hidden_minimize (w : Window) : w.minimize.hidden = true := by
  rw [Window.hidden, Window.minimize, Bool.or_true]

theorem Sound.minimizeAt (h : c.Sound) (i : Nat) : (c.minimizeAt i).Sound := by
  have hc := (sameLook_answer c i fun s => { s with minimizeRequest := false }).sound h
  simp only [Compositor.minimizeAt]
  have hsteady := hc.toSteady.update quiet_minimize i
  split_ifs with hask hbg hfocus
  · exact hc
  · exact hsteady.focusTopmostVisible
  · exact ⟨hsteady, seen_update_of_ne (fun w _ => hidden_minimize w) hc.seen hfocus⟩
  · exact h

theorem Sound.controlAt (h : c.Sound) (g : Geom) (i : Nat) : (c.controlAt g i).Sound := by
  unfold Compositor.controlAt Compositor.maximizeAt
  split_ifs
  · apply SameLook.sound _ ((sameLook_answer _ i fun s => { s with maximizeRequest := false }).sound (h.minimizeAt i))
    apply sameLook_update
    intro w
    split_ifs
    · rfl
    · unfold toggled
      split_ifs
      · split <;> rfl
      · rfl
  · exact h.minimizeAt i

/-- The window is not the background, or there is no other window to see. -/
def ActivateOk (c : Compositor) (id : Nat) : Prop :=
  ∀ i ∈ c.indexOf id, ∀ w ∈ c.wins[i]?, w.overlay = false → w.bg = true → ∀ v ∈ c.wins, v.hidden = true

instance (c : Compositor) (id : Nat) : Decidable (ActivateOk c id) := by
  unfold ActivateOk
  infer_instance

theorem quiet_restored : Quiet restored where
  key _ := rfl
  focused _ h := h
  overlay _ := rfl

theorem Steady.activate (h : c.Steady) (id : Nat) : (c.activate id).Steady := by
  unfold Compositor.activate
  cases hidx : c.indexOf id with
  | none => exact h
  | some i =>
    simp only
    split_ifs with hoverlay
    · exact h
    · obtain ⟨hi, -⟩ := findIdx?_eq_some_iff_getElem.mp hidx
      have hw : (c.update i restored).wins[i]? = some c.wins[i].restored := by
        rw [getElem?_update, getElem?_eq_getElem hi, map_some, if_pos rfl]
      exact ((h.update quiet_restored i).raise hw).setFocus _

theorem hidden_restore_iff (hw : c.wins[i]? = some w) (hbg : w.bg = true) :
    (∀ v ∈ (c.update i Window.restored).wins, v.hidden = true) ↔ ∀ v ∈ c.wins, v.hidden = true := by
  have hmap : (c.update i Window.restored).wins.map Window.hidden = c.wins.map Window.hidden := by
    apply ext_getElem?
    intro j
    rw [getElem?_map, getElem?_map, getElem?_update]
    by_cases hij : i = j
    · subst hij
      simp [hw, Window.hidden, Window.restored, hbg]
    · cases c.wins[j]? <;> simp [hij]
  rw [← List.forall_mem_map (P := (· = true)), hmap, List.forall_mem_map]

theorem seen_activate_iff (h : c.Sound) (id : Nat) : (c.activate id).Seen ↔ ActivateOk c id := by
  unfold activate ActivateOk
  cases hidx : c.indexOf id with
  | none => exact ⟨fun _ _ hi => (nomatch hi), fun _ => h.seen⟩
  | some i =>
    obtain ⟨hi, -⟩ := findIdx?_eq_some_iff_getElem.mp hidx
    have hw := getElem?_eq_getElem hi
    have hw' : (c.update i Window.restored).wins[i]? = some c.wins[i].restored := by
      rw [getElem?_update, hw, map_some, if_pos rfl]
    have hok : (∀ i' ∈ some i, ∀ w ∈ c.wins[i']?, w.overlay = false → w.bg = true → ∀ v ∈ c.wins, v.hidden = true) ↔
        (c.wins[i].overlay = false → c.wins[i].bg = true → ∀ v ∈ c.wins, v.hidden = true) := by
      simp [hw]
    rw [hok]
    simp only [hw, any_some]
    cases hoverlay : c.wins[i].overlay with
    | true => exact ⟨fun _ hfalse => (nomatch hfalse), fun _ => h.seen⟩
    | false =>
      rw [if_neg Bool.false_ne_true, seen_raise_setFocus_iff (h.toSteady.update quiet_restored i) hw']
      have hhid : c.wins[i].restored.hidden = c.wins[i].bg := by
        simp [Window.hidden, Window.restored, hoverlay]
      rw [hhid]
      constructor
      · intro hseen _ hbg
        exact (hidden_restore_iff hw hbg).mp (hseen hbg)
      · intro hok hbg
        exact (hidden_restore_iff hw hbg).mpr (hok rfl hbg)

/-- Activating a window is right exactly if it is not a background in front of a visible window. -/
theorem good_activate_iff (h : c.Sound) (id : Nat) : (c.activate id).Good ↔ ActivateOk c id := by
  rw [← seen_activate_iff h id]
  exact ⟨Good.seen, good_of_steady (h.toSteady.activate id)⟩

theorem Sound.activate (h : c.Sound) (hok : ActivateOk c id) : (c.activate id).Sound :=
  ⟨h.toSteady.activate id, (seen_activate_iff h id).mpr hok⟩

end Ruos.Wm.Compositor
