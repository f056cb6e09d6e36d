import Ruos.Lib.Run
import Ruos.Wm.Requests

/-! Whole runs of the compositor: what holds after each iteration as long as three kinds of steps meet their
conditions, and what goes wrong otherwise. -/
namespace Ruos.Wm

namespace Compositor

open Lib List Window

variable {c c' : Compositor} {i : Nat} {w : Window}

def AllAlive (c : Compositor) : Prop := ∀ w ∈ c.wins, w.alive = true

theorem AllAlive.of_perm (h : c.AllAlive) (hperm : (c'.wins.map (·.alive)).Perm (c.wins.map (·.alive))) :
    c'.AllAlive := by
  intro w hw
  obtain ⟨v, hv, heq⟩ := mem_map.mp (hperm.mem_iff.mp (mem_map_of_mem hw))
  rw [← heq]
  exact h v hv

def ReapOk (s : Compositor × Nat) : Prop := ∀ w ∈ s.1.wins[s.2]?, w.alive = false → RemoveOk s.1 s.2

instance (s : Compositor × Nat) : Decidable (ReapOk s) := by
  unfold ReapOk
  infer_instance

theorem reapStep_spec {s : Compositor × Nat} {n : Nat} (h : s.1.Sound) (hok : ReapOk s)
    (hbelow : ∀ w ∈ s.1.wins.take s.2, w.alive = true) (hlen : s.1.wins.length ≤ s.2 + (n + 1)) :
    (reapStep s).1.Sound ∧ (∀ w ∈ (reapStep s).1.wins.take (reapStep s).2, w.alive = true) ∧
      (reapStep s).1.wins.length ≤ (reapStep s).2 + n := by
  unfold reapStep
  cases hw : s.1.wins[s.2]? with
  | none =>
    have hend := List.getElem?_eq_none_iff.mp hw
    exact ⟨h, hbelow, Nat.le_add_right_of_le hend⟩
  | some w =>
    have hlt := (List.getElem?_eq_some_iff.mp hw).1
    simp only
    split_ifs with halive
    · refine ⟨h, ?_, by simp only; omega⟩
      intro v hv
      simp only [take_add_one, hw, Option.toList_some, mem_append, mem_singleton] at hv
      rcases hv with hv | rfl
      · exact hbelow v hv
      · exact halive
    · obtain ⟨hmap, -⟩ := @removeAt_keeps s.1 s.2 w _ (·.alive) (fun _ _ => rfl) hw
      refine ⟨h.removeAt hw (hok w hw (Bool.eq_false_iff.mpr halive)), ?_, ?_⟩
      · intro v hv
        have hmem : v.alive ∈ ((s.1.removeAt s.2).wins.map (·.alive)).take s.2 := by
          rw [← map_take]
          exact List.mem_map_of_mem hv
        rw [hmap, ← map_take, take_eraseIdx_eq_take_of_le _ _ _ (Nat.le_refl _)] at hmem
        obtain ⟨u, hu, heq⟩ := List.mem_map.mp hmem
        rw [← heq]
        exact hbelow u hu
      · have hlength := congrArg List.length hmap
        rw [length_map, length_map, length_eraseIdx_of_lt hlt] at hlength
        simp only
        omega

theorem reap_rounds {s : Compositor × Nat} (rounds : List Nat) (h : s.1.Sound)
    (hok : Guarded (fun s _ => some (reapStep s)) (fun s _ => ReapOk s) s rounds)
    (hbelow : ∀ w ∈ s.1.wins.take s.2, w.alive = true) (hlen : s.1.wins.length ≤ s.2 + rounds.length) :
    (rounds.foldl (fun s _ => reapStep s) s).1.Sound ∧ (rounds.foldl (fun s _ => reapStep s) s).1.AllAlive := by
  induction rounds generalizing s with
  | nil =>
    have hend : s.1.wins.length ≤ s.2 := hlen
    rw [take_of_length_le hend] at hbelow
    exact ⟨h, hbelow⟩
  | cons n rounds ih =>
    obtain ⟨hs, hb, hl⟩ := reapStep_spec h hok.1 hbelow hlen
    exact ih hs (hok.2 _ rfl) hb hl

def doomed (c : Compositor) : Compositor := { c with wins := c.wins.map promoted }

theorem Sound.reap (h : c.Sound)
    (hok : Guarded (fun s _ => some (reapStep s)) (fun s _ => ReapOk s) (c.doomed, 0) (range c.wins.length)) :
    c.reap.Sound ∧ c.reap.AllAlive := by
  have hdoomed : c.doomed.Sound := (sameLook_map (f := promoted) (fun _ => rfl) c).sound h
  apply reap_rounds _ hdoomed hok
  · intro w hw
    simp at hw
  · simp [doomed]

structure Running (c : Compositor) : Prop extends Sound c where
  alive : c.AllAlive

theorem Running.update_look {f : Window → Window} (h : c.Running) (hlook : ∀ w, (f w).look = w.look)
    (halive : ∀ w, (f w).alive = w.alive) (i : Nat) : (c.update i f).Running :=
  ⟨(sameLook_update hlook c i).sound h.toSound, h.alive.of_perm (List.Perm.of_eq (map_modify_of_eq halive c.wins i))⟩

theorem Running.mapIdx_look {f : Nat → Window → Window} (h : c.Running) (hlook : ∀ i w, (f i w).look = w.look)
    (halive : ∀ i w, (f i w).alive = w.alive) : ({ c with wins := c.wins.mapIdx f } : Compositor).Running :=
  ⟨(sameLook_mapIdx hlook c).sound h.toSound, h.alive.of_perm (List.Perm.of_eq (map_mapIdx_of_eq halive c.wins))⟩

theorem Running.of_eq (h : c.Running) (hwins : c'.wins = c.wins) (hfocused : c'.focused = c.focused)
    (hfree : c'.freeIds = c.freeIds) (hnext : c'.nextId = c.nextId) (hdrag : c'.drag = c.drag ∨ c'.drag = none) :
    c'.Running := by
  constructor
  · exact SameLook.sound ⟨congrArg _ hwins, hfocused, hfree, hnext, hdrag⟩ h.toSound
  · rw [AllAlive, hwins]
    exact h.alive

theorem perm_raise {β : Type} (p : Window → β) (h : c.Steady) (hw : c.wins[i]? = some w) :
    ((c.raise i).1.wins.map p).Perm (c.wins.map p) := by
  rw [raise_of_lt (List.getElem?_eq_some_iff.mp hw).1 (h.focused_lt hw)]
  exact (moveLast_perm c.wins i).map p

theorem Running.onLeftDown (h : c.Running) (px py : Int) : (c.onLeftDown px py).Running := by
  unfold Compositor.onLeftDown
  cases hat : c.windowAt px py with
  | none => exact h
  | some i =>
    obtain ⟨w, hw, hvis⟩ := topmost_some hat
    have hvis : w.hidden = false := by simpa using (Bool.and_eq_true_iff.mp hvis).1
    refine ⟨⟨(h.toSteady.raise hw).setFocus _, (seen_raise_setFocus_iff h.toSteady hw).mpr ?_⟩, ?_⟩
    · intro hhid
      rw [hvis] at hhid
      cases hhid
    · apply h.alive.of_perm
      rw [map_setFocus (fun _ => rfl) (fun _ => rfl)]
      exact perm_raise _ h.toSteady hw

theorem Running.dragTo (h : c.Running) (g : Geom) (id : Nat) (cx cy : Int) (grab : Int × Int) :
    (c.dragTo g id cx cy grab).Running := by
  unfold Compositor.dragTo
  split
  · exact h
  · apply h.update_look
    · intro w
      rfl
    · intro w
      rfl

theorem Running.notices (h : c.Running) (evs : List KEvent) (now : Nat) (pending : Bool) :
    (((c.drainKevents evs).tickToasts now).tickModal pending).Running := by
  have hdrain : (c.drainKevents evs).Running := by
    unfold drainKevents
    split_ifs
    · exact h
    · apply foldlRecOn _ _ h
      intro c' hc ev _
      cases ev <;> exact hc.of_eq rfl rfl rfl rfl (.inl rfl)
  exact hdrain.of_eq rfl rfl rfl rfl (.inl rfl)

theorem look_framed (f : Frame) (w : Window) : (framed f w).look = w.look ∧ (framed f w).alive = w.alive := by
  unfold framed
  simp only
  split_ifs <;> exact ⟨rfl, rfl⟩

theorem Running.frames (h : c.Running) (frames : List (Option Frame)) :
    ((c.frameAll frames).rasterMeshes frames).Running := by
  have hframe : (c.frameAll frames).Running := by
    apply h.mapIdx_look
    · intro i w
      cases frames[i]?.join with
      | none => rfl
      | some f => exact (look_framed f w).1
    · intro i w
      cases frames[i]?.join with
      | none => rfl
      | some f => exact (look_framed f w).2
  apply hframe.mapIdx_look
  · intro i w
    cases frames[i]?.join.bind (·.mesh) <;> rfl
  · intro i w
    cases frames[i]?.join.bind (·.mesh) <;> rfl

theorem Running.backgroundAt (h : c.Running) (hok : BackgroundOk c i) : (c.backgroundAt i).Running := by
  refine ⟨h.toSound.backgroundAt hok, ?_⟩
  unfold Compositor.backgroundAt
  split_ifs
  · exact h.alive.of_perm (List.Perm.of_eq (map_modify_of_eq (f := pinned) (fun _ => rfl) c.wins i))
  · exact h.alive

theorem alive_overlayAt (h : c.AllAlive) (i : Nat) : (c.overlayAt i).AllAlive := by
  apply h.of_perm
  apply List.Perm.of_eq
  have hanswer := map_modify_of_eq (f := fun w : Window => { w with win := { w.win with overlayRequest := false } })
    (p := alive) (fun _ => rfl) c.wins i
  have hover := map_modify_of_eq (f := overlaid) (p := alive) (fun _ => rfl)
  have hunfocus := map_modify_of_eq (f := unfocus) (p := alive) (fun _ => rfl)
  simp only [overlayAt]
  split_ifs
  · exact hanswer
  · rw [(focusTopmostVisible_keeps (fun _ _ => rfl) _).1]
    exact (hunfocus _ i).trans ((hover _ i).trans hanswer)
  · exact (hover _ i).trans hanswer
  · rfl

theorem Running.overlayAt (h : c.Running) (i : Nat) : (c.overlayAt i).Running :=
  ⟨h.toSound.overlayAt i, alive_overlayAt h.alive i⟩

theorem alive_focusPushed (h : c.AllAlive) (hwins : c'.wins = c.wins ++ [w]) (hw : w.alive = true) :
    ((c'.raise (c'.wins.length - 1)).1.setFocus ((c'.raise (c'.wins.length - 1)).1.wins.length - 1)).AllAlive := by
  have hall : c'.AllAlive := by
    rw [AllAlive, hwins]
    exact forall_mem_append.mpr ⟨h, forall_mem_singleton.mpr hw⟩
  rw [raise_top hwins]
  exact hall.of_perm (List.Perm.of_eq (map_setFocus (fun _ => rfl) (fun _ => rfl) c' _))

theorem alive_spawnNamed (h : c.AllAlive) (g : Geom) (init : Option (List Call)) : (c.spawnNamed g init).AllAlive := by
  obtain ⟨hwins, -⟩ := allocId_fields c
  simp only [spawnNamed]
  split_ifs
  · exact h
  · cases init with
    | none =>
      simp only [AllAlive, hwins]
      exact h
    | some calls =>
      apply alive_focusPushed h
      · simp only [hwins]
        rfl
      · rfl

theorem Running.spawnLoaded (h : c.Running) (g : Geom) (load : Load) : (c.spawnLoaded g load).Running := by
  cases load with
  | missing => exact h
  | failed => exact ⟨h.toSound.spawnNamed h.alive g none, alive_spawnNamed h.alive g none⟩
  | started calls => exact ⟨h.toSound.spawnNamed h.alive g (some calls), alive_spawnNamed h.alive g (some calls)⟩

theorem Running.spawns (h : c.Running) (g : Geom) (load : Nat → List Char → Load) : (c.spawns g load).Running := by
  have hdrained : ({ c with wins := c.wins.map fun w => { w with win := { w.win with spawnRequest := [] } } } :
      Compositor).Running := by
    constructor
    · apply SameLook.sound _ h.toSound
      apply sameLook_map
      intro w
      rfl
    · apply h.alive.of_perm
      simp only [map_map]
      rfl
  exact foldlRecOn _ _ hdrained fun c' hc x _ => hc.spawnLoaded g (load x.2 x.1)

end Compositor

open Compositor

theorem Loop.running_windowInput {s : Loop} (h : s.c.Running) (g : Geom) (x : Input) :
    (s.windowInput g x).c.Running := by
  unfold Loop.windowInput
  split
  · split
    · exact h.dragTo g _ _ _ _
    · exact h
  · split_ifs
    · exact h.onLeftDown _ _
    · exact h.of_eq rfl rfl rfl rfl (.inr rfl)
    · exact h
    · exact h
  · exact h

theorem Loop.running_input {s : Loop} (h : s.c.Running) (g : Geom) (x : Input) : (s.input g x).c.Running := by
  unfold Loop.input
  split_ifs
  · unfold Loop.overlayInput
    split_ifs
    · exact h
    · exact h.of_eq rfl rfl rfl rfl (.inr rfl)
    · exact h
  · exact h
  · split
    · exact h.of_eq rfl rfl rfl rfl (.inl rfl)
    · exact running_windowInput h g x

open Lib List

/-- No window is removed wrongly. -/
def ReapingOk (c : Compositor) : Prop :=
  Guarded (fun s _ => some (reapStep s)) (fun s _ => ReapOk s) (c.doomed, 0) (List.range c.wins.length)

/-- No window becomes the background wrongly. -/
def BackgroundsOk (c : Compositor) : Prop :=
  Guarded (fun c i => some (c.backgroundAt i)) BackgroundOk c (List.range c.wins.length)

/-- No window is activated wrongly. -/
@[irreducible] def ActivationsOk (c : Compositor) : Prop :=
  Guarded (fun c id => some (c.activate id)) ActivateOk c.drainActivations c.activations

structure Mild (g : Geom) (s : Loop) (it : Iteration) : Prop where
  reaping : ReapingOk s.c
  backgrounds : BackgroundsOk (it.framing g s).c
  activations : ActivationsOk (it.requests g (it.framing g s).c)

instance (c : Compositor) : Decidable (ReapingOk c) := inferInstanceAs (Decidable (Guarded _ _ _ _))

instance (c : Compositor) : Decidable (BackgroundsOk c) := inferInstanceAs (Decidable (Guarded _ _ _ _))

instance (c : Compositor) : Decidable (ActivationsOk c) := by
  unfold ActivationsOk
  infer_instance

instance (g : Geom) (s : Loop) (it : Iteration) : Decidable (Mild g s it) :=
  decidable_of_iff
    (ReapingOk s.c ∧ BackgroundsOk (it.framing g s).c ∧ ActivationsOk (it.requests g (it.framing g s).c))
    ⟨fun h => ⟨h.1, h.2.1, h.2.2⟩, fun h => ⟨h.reaping, h.backgrounds, h.activations⟩⟩

def turn (g : Geom) (s : Loop) (it : Iteration) : Option Loop := some (it.run g s)

variable {g : Geom} {s : Loop} {it : Iteration}

theorem running_framing (h : s.c.Sound) (hok : Mild g s it) : (it.framing g s).c.Running := by
  obtain ⟨hsound, halive⟩ := h.reap hok.reaping
  have hinput : (it.inputs.foldl (Loop.input g) { s with c := s.c.reap }).c.Running := by
    apply foldlRecOn (motive := fun s : Loop => s.c.Running)
    · exact ⟨hsound, halive⟩
    · intro s' hs' x _
      exact Loop.running_input hs' g x
  exact (hinput.notices _ _ _).frames _

theorem sound_requests {c : Compositor} (h : c.Running) (hok : BackgroundsOk c) : (it.requests g c).Sound := by
  have hbg : (c.eachWindow backgroundAt).Running := foldl_invariant (fun c i hc hi => hc.backgroundAt hi) h hok
  have hover : ((c.eachWindow backgroundAt).eachWindow overlayAt).Running :=
    foldlRecOn _ _ hbg fun c hc i _ => hc.overlayAt i
  have hspawn := (hover.spawns g it.load).toSound
  have hmove : (eachWindow _ fun c i => c.moveAt it.cursor i).Sound :=
    foldlRecOn _ _ hspawn fun c hc i _ => hc.moveAt it.cursor i
  exact foldlRecOn _ _ hmove fun c hc i _ => hc.controlAt g i

theorem sound_activated {c : Compositor} (h : c.Sound) (hok : ActivationsOk c) : (Iteration.activated c).Sound := by
  have hdrained : c.drainActivations.Sound := by
    apply SameLook.sound _ h
    apply sameLook_map
    intro w
    rfl
  unfold ActivationsOk at hok
  exact foldl_invariant (fun c id hc hid => hc.activate hid) hdrained hok

theorem run_c : (it.run g s).c = Iteration.activated (it.requests g (it.framing g s).c) := by
  unfold Iteration.run
  simp only

theorem sound_boot (g : Geom) (shell notify : Load) : (boot g shell notify).Sound := by
  have hempty : ({} : Compositor).Running := by
    refine ⟨⟨⟨⟨List.Perm.refl _, Nat.zero_le _⟩, Nat.zero_le _, ?_, Nat.zero_le _, ?_⟩, ?_⟩, ?_⟩
    · intro i w hw
      cases hw
    · intro d hd
      cases hd
    · intro w hw
      cases hw
    · intro w hw
      cases hw
  exact ((hempty.spawnLoaded g shell).spawnLoaded g notify).toSound

/-- From the boot on, what should hold of the windows holds after every iteration of a mild run; and from a sound state
each of the three kinds of steps that mildness is about keeps it exactly if its condition is met. -/
theorem compositor_good_iff (g : Geom) : (∀ (shell notify : Load) (its : List Iteration) (t : Loop),
      Guarded (turn g) (Mild g) { c := boot g shell notify } its →
      exec (turn g) { c := boot g shell notify } its = some t → t.c.Good) ∧ ∀ c : Compositor, c.Sound →
      (∀ i < c.wins.length, (c.removeAt i).Good ↔ RemoveOk c i) ∧ (∀ i, (c.backgroundAt i).Good ↔ BackgroundOk c i) ∧
      ∀ id, (c.activate id).Good ↔ ActivateOk c id := by
  constructor
  · intro shell notify its t hmild hrun
    apply Sound.good
    apply exec_invariant (I := fun s : Loop => s.c.Sound) _ (sound_boot g shell notify) hmild hrun
    intro s it s' hs hok hstep
    rw [← Option.some.inj hstep]
    have hrunning := running_framing hs hok
    rw [run_c]
    exact sound_activated (sound_requests hrunning hok.backgrounds) hok.activations
  · intro c hc
    refine ⟨fun i hi => ?_, fun i => good_backgroundAt_iff hc, fun id => good_activate_iff hc id⟩
    exact good_removeAt_iff hc (getElem?_eq_getElem hi)

def screen : Geom := ⟨1024, 768⟩

/-- An iteration in which the windows make calls, in their order, and every module loads. -/
def calling (calls : List (List Call)) : Iteration where
  frames := calls.map fun cs => some { calls := cs }
  load := fun _ _ => .started []

def desktop : Loop := { c := boot screen (.started []) (.started []) }

/-- The shell becomes the background and the notices the overlay; an application is launched and minimized. -/
def launching : List Iteration :=
  [calling [[.setBackground], [.setOverlay]], calling [[.spawn ['a']]], calling [[], [], [.minimize]]]

theorem good_after_launching : ∃ t, exec (turn screen) desktop launching = some t ∧ t.c.Good := by
  have hsome : (exec (turn screen) desktop launching).isSome := by decide +kernel
  obtain ⟨t, ht⟩ := Option.isSome_iff_exists.mp hsome
  exact ⟨t, ht, (compositor_good_iff screen).1 _ _ _ t (by decide +kernel) ht⟩

instance (c : Compositor) : Decidable c.Seen :=
  inferInstanceAs (Decidable (∀ w ∈ c.wins[c.focused]?, w.hidden = true → ∀ v ∈ c.wins, v.hidden = true))

instance (c : Compositor) : Decidable c.Dragged :=
  inferInstanceAs (Decidable (∀ d ∈ c.drag, (d.winId, d.inst) ∈ c.wins.map Window.key))

theorem exists_of_any {its : List Iteration} {p : Loop → Prop} [DecidablePred p]
    (h : (exec (turn screen) desktop its).any (p ·) = true) : ∃ t, exec (turn screen) desktop its = some t ∧ p t := by
  cases ht : exec (turn screen) desktop its with
  | none =>
    rw [ht] at h
    cases h
  | some t =>
    rw [ht] at h
    exact ⟨t, rfl, of_decide_eq_true h⟩

/-- The focused one of two windows becomes the background and keeps the focus; activating the background gives it the
focus; closing the focused window gives it to a minimized one; and a window takes over the id and the drag of one that
was closed. -/
theorem focus_and_drag_lost :
    (∃ t, exec (turn screen) desktop [calling [[], [.setBackground]]] = some t ∧ ¬ t.c.Seen) ∧
    (∃ t, exec (turn screen) desktop [calling [[.setBackground], [.activate 0]]] = some t ∧ ¬ t.c.Seen) ∧
    (∃ t, exec (turn screen) desktop
      [calling [[.spawn ['a']]], calling [[], [.minimize], [.close]], calling []] = some t ∧ ¬ t.c.Seen) ∧
    ∃ t, exec (turn screen) desktop
      [calling [[], [.startMove]], calling [[], [.close]], calling [[.spawn ['a']]]] = some t ∧ ¬ t.c.Dragged ∧
        ∃ w ∈ t.c.wins, ∃ d ∈ t.c.drag, d.winId = w.id ∧ d.inst ≠ w.inst := by
  refine ⟨?_, ?_, ?_, ?_⟩ <;> exact exists_of_any (by decide +kernel)

end Ruos.Wm
