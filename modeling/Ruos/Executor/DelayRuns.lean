import Ruos.Executor.Delay

/-! The timers of `executor/delay.rs` over whole runs: whose the slots are, what frees them, and when a `Delay`
resolves. -/
namespace Ruos.Executor

open Lib List Option Function

namespace Timers

variable {s s' : Timers} {id : Nat} {d : Delay} {e : TimerStep}

/-- The `Delay` is live and carries this registration. -/
def Registered (s : Timers) (id : Nat) (r : Fin slotCount × Nat) : Prop := ∃ d, s.delays id = some d ∧ d.slot = some r

/-- The generation that a registration takes is not one that a live `Delay` still carries, and the tick counter does
not wrap around. -/
def NoWrap (s : Timers) : TimerStep → Prop
  | .resume _ => ∀ id r, s.Registered id r → r.2 ≠ s.genCounter
  | .clock => s.ticks + 1 < 2 ^ 64
  | _ => True

def DelayOk (s : Timers) (d : Delay) : Prop :=
  (d.phase = .freeing → d.target ≤ s.ticks) ∧
    (d.phase ≠ .ready → d.polled = true → d.target ≤ s.ticks ∨ s.held d ≠ none)

structure Owned (s : Timers) : Prop where
  owner : ∀ i e, s.slots i = some e → ∃ id d, s.delays id = some d ∧ d.slot = some (i, e.gen) ∧ d.target = e.target
  unique : ∀ id id' r r', s.Registered id r → s.Registered id' r' → r.2 = r'.2 → id = id'
  delays : ∀ id d, s.delays id = some d → s.DelayOk d
  resolutions : ∀ r ∈ s.resolutions, r.target ≤ r.time ∨ (r.first = true ∧ r.full = true)

variable {r : Fin slotCount × Nat}

theorem held_eq_some : s.held d = some r ↔ d.slot = some r ∧ ∃ e, s.slots r.1 = some e ∧ e.gen = r.2 := by
  simp [held, filter_eq_some_iff, Option.any_eq_true]

variable {i : Fin slotCount}

theorem held_ne_none {x : Slot} (hslot : d.slot = some (i, x.gen)) (hx : s.slots i = some x) : s.held d ≠ none := by
  rw [held_eq_some.mpr ⟨hslot, x, hx, rfl⟩]
  simp

theorem exists_held (h : s.held d ≠ none) : ∃ i x, d.slot = some (i, x.gen) ∧ s.slots i = some x := by
  obtain ⟨r, hr⟩ := ne_none_iff_exists'.mp h
  obtain ⟨hslot, x, hx, hgen⟩ := held_eq_some.mp hr
  exact ⟨r.1, x, by rw [hslot, hgen], hx⟩

theorem DelayOk.mono (h : s.DelayOk d) (hticks : s.ticks ≤ s'.ticks)
    (hheld : s.held d ≠ none → d.target ≤ s'.ticks ∨ s'.held d ≠ none) : s'.DelayOk d :=
  ⟨fun hp => (h.1 hp).trans hticks,
    fun hp hpolled => (h.2 hp hpolled).elim (fun ht => .inl (ht.trans hticks)) hheld⟩

@[simp] theorem delays_setDelay_self (s : Timers) (id : Nat) (d : Option Delay) : (s.setDelay id d).delays id = d :=
  update_self _ _ _

@[simp] theorem delays_setDelay_of_ne {id id' : Nat} (hne : id' ≠ id) (s : Timers) (d : Option Delay) :
    (s.setDelay id d).delays id' = s.delays id' := update_of_ne hne _ _

@[simp] theorem slots_setSlot_self (s : Timers) (i : Fin slotCount) (x : Option Slot) : (s.setSlot i x).slots i = x :=
  update_self _ _ _

@[simp] theorem slots_setSlot_of_ne {i j : Fin slotCount} (hne : j ≠ i) (s : Timers) (x : Option Slot) :
    (s.setSlot i x).slots j = s.slots j := update_of_ne hne _ _

theorem Owned.new : Timers.new.Owned where
  owner := fun i e h => absurd h (by simp [Timers.new])
  unique := fun id id' r r' h => absurd h (by simp [Registered, Timers.new])
  delays := fun id d h => absurd h (by simp [Timers.new])
  resolutions := fun r h => absurd h (by simp [Timers.new])

theorem Owned.id_eq (h : s.Owned) {id' : Nat} {d' : Delay} {i j : Fin slotCount} {g : Nat} (hd : s.delays id = some d)
    (hd' : s.delays id' = some d') (hslot : d.slot = some (i, g)) (hslot' : d'.slot = some (j, g)) : id = id' :=
  h.unique id id' (i, g) (j, g) ⟨d, hd, hslot⟩ ⟨d', hd', hslot'⟩ rfl

/-- A step of one `Delay`. It stays registered where it was or takes a fresh generation, a slot is its own or that of
another as before, and no other `Delay` loses its slot before its target. -/
theorem Owned.next (h : s.Owned) {o : Option Delay} (hdelays : s'.delays = s.delays) (hticks : s'.ticks = s.ticks)
    (hself : ∀ d', o = some d' → s'.DelayOk d' ∧
      ∀ r, d'.slot = some r → s.Registered id r ∨ ∀ id' r', s.Registered id' r' → r'.2 ≠ r.2)
    (howner : ∀ i x, s'.slots i = some x → (∃ d', o = some d' ∧ d'.slot = some (i, x.gen) ∧ d'.target = x.target) ∨
        (s.slots i = some x ∧ ¬ s.Registered id (i, x.gen)))
    (hheld : ∀ id' ≠ id, ∀ d', s.delays id' = some d' → s.held d' ≠ none → s'.held d' ≠ none)
    (hresolutions : ∀ r ∈ s'.resolutions, r ∈ s.resolutions ∨ r.target ≤ r.time ∨ (r.first = true ∧ r.full = true)) :
    (s'.setDelay id o).Owned := by
  have hothers : ∀ id' ≠ id, (s'.setDelay id o).delays id' = s.delays id' := fun id' hne => by
    rw [delays_setDelay_of_ne hne, hdelays]
  have hregistered : ∀ id' r, (s'.setDelay id o).Registered id' r →
      s.Registered id' r ∨ (id' = id ∧ ∀ id'' r', s.Registered id'' r' → r'.2 ≠ r.2) := by
    rintro id' r ⟨d', hd', hslot⟩
    by_cases hid : id' = id
    · subst hid
      rw [delays_setDelay_self] at hd'
      exact ((hself d' hd').2 r hslot).imp_right fun hfresh => ⟨rfl, hfresh⟩
    · exact .inl ⟨d', (hothers id' hid).symm.trans hd', hslot⟩
  refine ⟨fun i x hx => ?_, fun id₁ id₂ r₁ r₂ h₁ h₂ hgen => ?_, fun id' d' hd' => ?_, fun r hr => ?_⟩
  · rcases howner i x hx with ⟨d', hd', hslot⟩ | ⟨hold, hnot⟩
    · exact ⟨id, d', (delays_setDelay_self s' id o).trans hd', hslot⟩
    · obtain ⟨id', d', hd', hslot, htarget⟩ := h.owner i x hold
      have hid : id' ≠ id := fun heq => hnot (heq ▸ ⟨d', hd', hslot⟩)
      exact ⟨id', d', (hothers id' hid).trans hd', hslot, htarget⟩
  · rcases hregistered id₁ r₁ h₁ with old₁ | ⟨rfl, hfresh₁⟩
    · rcases hregistered id₂ r₂ h₂ with old₂ | ⟨rfl, hfresh₂⟩
      · exact h.unique id₁ id₂ r₁ r₂ old₁ old₂ hgen
      · exact absurd hgen (hfresh₂ id₁ r₁ old₁)
    · rcases hregistered id₂ r₂ h₂ with old₂ | ⟨rfl, -⟩
      · exact absurd hgen.symm (hfresh₁ id₂ r₂ old₂)
      · rfl
  · by_cases hid : id' = id
    · subst hid
      rw [delays_setDelay_self] at hd'
      exact (hself d' hd').1
    · rw [hothers id' hid] at hd'
      exact (h.delays id' d' hd').mono hticks.ge fun hsome => .inr (hheld id' hid d' hd' hsome)
  · exact (hresolutions r hr).elim (h.resolutions r) fun hok => hok

theorem Owned.target_eq (h : s.Owned) (hd : s.delays id = some d) {x : Slot} (hslot : d.slot = some (i, x.gen))
    (hx : s.slots i = some x) : d.target = x.target := by
  obtain ⟨id', d', hd', hslot', htarget⟩ := h.owner i x hx
  obtain rfl := h.id_eq hd hd' hslot hslot'
  obtain rfl := some.inj (hd.symm.trans hd')
  exact htarget

theorem slots_freeSlot {x : Slot} :
    (s.freeSlot d).slots i = some x ↔ s.slots i = some x ∧ d.slot ≠ some (i, x.gen) := by
  unfold freeSlot
  cases hheld : s.held d with
  | none =>
    refine ⟨fun hx => ⟨hx, fun hslot => held_ne_none hslot hx hheld⟩, And.left⟩
  | some r =>
    obtain ⟨hslot, y, hy, hgen⟩ := held_eq_some.mp hheld
    by_cases hi : i = r.1
    · subst hi
      simp only [update_self, reduceCtorEq, false_iff, not_and, not_not]
      intro hx
      obtain rfl := some.inj (hy.symm.trans hx)
      rw [hslot, hgen]
    · simp only [update_of_ne hi, hslot, ne_eq, some.injEq, iff_self_and]
      exact fun _ heq => hi (by rw [heq])

theorem Owned.held_freeSlot (h : s.Owned) (hd : s.delays id = some d) {id' : Nat} {d' : Delay} (hid : id' ≠ id)
    (hd' : s.delays id' = some d') (hheld : s.held d' ≠ none) : (s.freeSlot d).held d' ≠ none := by
  obtain ⟨i, x, hslot, hx⟩ := exists_held hheld
  exact held_ne_none hslot (slots_freeSlot.mpr ⟨hx, fun heq => hid (h.id_eq hd' hd hslot heq)⟩)

theorem Owned.create (h : s.Owned) (hid : s.delays id = none) (target : Nat) :
    (s.setDelay id (some ⟨target, none, .idle, false⟩)).Owned := by
  refine h.next rfl rfl (fun d' hd' => ?_) (fun i x hx => .inr ⟨hx, ?_⟩)
    (fun id' hne d' hd' hheld => hheld) fun r hr => .inl hr
  · cases hd'
    exact ⟨⟨by simp, by simp⟩, by simp⟩
  · rintro ⟨d, hd, -⟩
    simp [hid] at hd

theorem Owned.poll (h : s.Owned) (hd : s.delays id = some d) (hphase : d.phase = .idle) (waker : Nat) :
    (s.setDelay id (some { d with phase := if d.target ≤ s.ticks then .freeing else .registering waker })).Owned := by
  refine h.next rfl rfl (fun d' hd' => ?_) (fun i x hx => ?_)
    (fun id' hne d' hd' hheld => hheld) fun r hr => .inl hr
  · cases hd'
    refine ⟨⟨fun hp => ?_, fun _ hpolled => ?_⟩, fun r hslot => .inl ⟨d, hd, hslot⟩⟩
    · by_cases hle : d.target ≤ s.ticks
      · exact hle
      · simp [hle] at hp
    · exact (h.delays id d hd).2 (by simp [hphase]) hpolled
  · by_cases hslot : d.slot = some (i, x.gen)
    · exact .inl ⟨_, rfl, hslot, h.target_eq hd hslot hx⟩
    · refine .inr ⟨hx, ?_⟩
      rintro ⟨d', hd', hslot'⟩
      obtain rfl := some.inj (hd.symm.trans hd')
      exact hslot hslot'

theorem Registered.slot_eq (h : s.Registered id r) (hd : s.delays id = some d) : d.slot = some r := by
  obtain ⟨d', hd', hslot⟩ := h
  rwa [some.inj (hd.symm.trans hd')]

theorem Owned.refresh (h : s.Owned) (hd : s.delays id = some d) (hheld : s.held d = some r) (waker : Nat) :
    ((s.setSlot r.1 (some ⟨d.target, waker, r.2⟩)).setDelay id (some { d with phase := .idle, polled := true })).Owned := by
  obtain ⟨hslot, y, hy, hgen⟩ := held_eq_some.mp hheld
  refine h.next rfl rfl (fun d' hd' => ?_) (fun i x hx => ?_)
    (fun id' hne d' hd' hheld' => ?_) fun r hr => .inl hr
  · cases hd'
    refine ⟨⟨by simp, fun _ _ => .inr ?_⟩, fun r' hslot' => .inl ⟨d, hd, hslot'⟩⟩
    exact held_ne_none hslot (slots_setSlot_self s r.1 _)
  · by_cases hi : i = r.1
    · subst hi
      rw [slots_setSlot_self] at hx
      cases hx
      exact .inl ⟨_, rfl, hslot, rfl⟩
    · rw [slots_setSlot_of_ne hi] at hx
      refine .inr ⟨hx, fun hreg => hi ?_⟩
      have heq := some.inj (hslot.symm.trans (hreg.slot_eq hd))
      rw [heq]
  · obtain ⟨j, z, hslot', hz⟩ := exists_held hheld'
    by_cases hj : j = r.1
    · subst hj
      obtain rfl := some.inj (hy.symm.trans hz)
      exact absurd (h.id_eq hd' hd hslot' (by rw [hslot, hgen])) hne
    · exact held_ne_none hslot' ((slots_setSlot_of_ne hj s _).trans hz)

theorem slots_of_freeIndex (h : s.freeIndex = some i) : s.slots i = none := by
  simpa using find?_some h

theorem full_of_freeIndex (h : s.freeIndex = none) : s.full = true := by
  have hall := find?_eq_none.mp h
  refine List.all_eq_true.mpr fun i hi => ?_
  cases hs : s.slots i <;> simp_all

section

variable (h : s.Owned) (hd : s.delays id = some d)
include h hd

theorem Owned.enter (hheld : s.held d = none) (hfree : s.slots i = none)
    (hfresh : ∀ id r, s.Registered id r → r.2 ≠ s.genCounter) (waker : Nat) :
    ((s.setSlot i (some ⟨d.target, waker, s.genCounter⟩)).takeGen.setDelay id
      (some { d with slot := some (i, s.genCounter), phase := .idle, polled := true })).Owned := by
  refine h.next rfl rfl (fun d' hd' => ?_) (fun j x hx => ?_)
    (fun id' hne d' hd' hheld' => ?_) fun r hr => .inl hr
  · cases hd'
    refine ⟨⟨by simp, fun _ _ => .inr ?_⟩, fun r hslot => .inr ?_⟩
    · exact held_ne_none rfl (slots_setSlot_self s i _)
    · cases hslot
      exact hfresh
  · change (s.setSlot i _).slots j = some x at hx
    by_cases hj : j = i
    · subst hj
      rw [slots_setSlot_self] at hx
      cases hx
      exact .inl ⟨_, rfl, rfl, rfl⟩
    · rw [slots_setSlot_of_ne hj] at hx
      exact .inr ⟨hx, fun hreg => held_ne_none (hreg.slot_eq hd) hx hheld⟩
  · obtain ⟨j, z, hslot', hz⟩ := exists_held hheld'
    have hj : j ≠ i := by
      rintro rfl
      simp [hfree] at hz
    exact held_ne_none hslot' ((slots_setSlot_of_ne hj s _).trans hz)

theorem Owned.giveUp (hheld : s.held d = none) {waker : Nat}
    (hphase : d.phase = .registering waker) (hfull : s.full = true) :
    ((s.resolve d).setDelay id (some { d with slot := none, phase := .ready })).Owned := by
  refine h.next rfl rfl (fun d' hd' => ?_) (fun i x hx => .inr ⟨hx, ?_⟩)
    (fun id' hne d' hd' hheld' => hheld') fun r hr => ?_
  · cases hd'
    exact ⟨⟨by simp, by simp⟩, by simp⟩
  · exact fun hreg => held_ne_none (hreg.slot_eq hd) hx hheld
  · refine (mem_append.mp hr).imp_right fun hnew => ?_
    rw [mem_singleton.mp hnew]
    cases hpolled : d.polled with
    | false => exact .inr ⟨rfl, hfull⟩
    | true => exact .inl (((h.delays id d hd).2 (by simp [hphase]) hpolled).resolve_right fun hne => hne hheld)

theorem Owned.complete (hphase : d.phase = .freeing) :
    (((s.freeSlot d).resolve d).setDelay id (some { d with slot := none, phase := .ready })).Owned := by
  refine h.next rfl rfl (fun d' hd' => ?_) (fun i x hx => .inr ?_)
    (fun id' hne d' hd' hheld => h.held_freeSlot hd hne hd' hheld) fun r hr => ?_
  · cases hd'
    exact ⟨⟨by simp, by simp⟩, by simp⟩
  · obtain ⟨hold, hother⟩ := slots_freeSlot.mp hx
    exact ⟨hold, fun hreg => hother (hreg.slot_eq hd)⟩
  · refine (mem_append.mp hr).imp_right fun hnew => .inl ?_
    rw [mem_singleton.mp hnew]
    exact (h.delays id d hd).1 hphase

theorem Owned.drop : ((s.freeSlot d).setDelay id none).Owned := by
  refine h.next rfl rfl (fun d' hd' => ?_) (fun i x hx => .inr ?_)
    (fun id' hne d' hd' hheld => h.held_freeSlot hd hne hd' hheld) fun r hr => .inl hr
  · cases hd'
  · obtain ⟨hold, hother⟩ := slots_freeSlot.mp hx
    exact ⟨hold, fun hreg => hother (hreg.slot_eq hd)⟩

end

theorem slots_tickCore {now : Nat} {x : Slot} :
    (s.tickCore now).slots i = some x ↔ s.slots i = some x ∧ now < x.target := by
  simp [tickCore, due, filter_eq_some_iff]

theorem Owned.tick (h : s.Owned) {now : Nat} (hnow : now ≤ s.ticks) : (s.tickCore now).Owned where
  owner := fun i x hx => h.owner i x (slots_tickCore.mp hx).1
  __ := h
  delays := fun id d hd => by
    refine (h.delays id d hd).mono le_rfl fun hheld => ?_
    obtain ⟨i, x, hslot, hx⟩ := exists_held hheld
    rw [h.target_eq hd hslot hx]
    rcases Nat.lt_or_ge now x.target with hlt | hge
    · exact .inr (held_ne_none hslot (slots_tickCore.mpr ⟨hx, hlt⟩))
    · exact .inl (hge.trans hnow)

theorem Owned.clock (h : s.Owned) (hticks : s.ticks + 1 < 2 ^ 64) :
    { s with ticks := (s.ticks + 1) % 2 ^ 64 }.Owned where
  __ := h
  delays := fun id d hd => by
    refine (h.delays id d hd).mono ?_ .inr
    rw [Nat.mod_eq_of_lt hticks]
    exact Nat.le_succ _

open Nat

theorem Owned.step (h : s.Owned) (hg : s.NoWrap e) (hs : s.step e = some s') : s'.Owned := by
  cases transition_of_step hs with
  | create hid => exact h.create hid _
  | poll hd hphase => exact h.poll hd hphase _
  | refresh hd hphase hheld => exact h.refresh hd hheld _
  | enter hd hphase hheld hfree => exact h.enter hd hheld (slots_of_freeIndex hfree) hg _
  | giveUp hd hphase hheld hfree => exact h.giveUp hd hheld hphase (full_of_freeIndex hfree)
  | complete hd hphase => exact h.complete hd hphase
  | drop hd hphase => exact h.drop hd
  | tick hnow => exact h.tick hnow
  | clock => exact h.clock hg
  | elsewhere => exact { h with }

end Timers
end Ruos.Executor
