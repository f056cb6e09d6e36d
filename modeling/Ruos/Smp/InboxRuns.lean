import Mathlib.Data.List.Nodup
import Ruos.Smp.Inbox

/-! The replies of `smp/inbox.rs`, and what holds in every run of its message bus. -/
namespace Ruos.Smp

open Lib List Drain Function

def Drain.completing : Drain → Option Nat
  | .storing id _ | .finishing id | .notifying id => some id
  | _ => none

namespace Bus

variable {s s' : Bus} {e : BusStep} {c id : Nat}

def ValueOf (s : Bus) (id : Nat) (v : UInt64) : Prop := ∃ m, s.sent[id]? = some m ∧ m.value = v

def DrainOk (s : Bus) : Drain → Prop
  | .storing id v => s.ValueOf id v
  | .finishing id => s.ValueOf id (s.replies id).result
  | .notifying id => (s.replies id).done = true
  | _ => True

def FutureOk (s : Bus) (id : Nat) : ReplyPoll → Prop
  | .rechecking task => (s.replies id).waker = some task ∨ (s.replies id).done = true
  | .reading => (s.replies id).done = true
  | .pending task => ((s.replies id).waker = some task ∨ s.woken id task = true) ∧
      (id ∈ s.completed → s.woken id task = true)
  | .resolved v => s.ValueOf id v
  | _ => True

structure Replied (s : Bus) : Prop where
  value : ∀ id, (s.replies id).done = true → s.ValueOf id (s.replies id).result
  drains : ∀ c, s.DrainOk (s.drains c)
  futures : ∀ id, s.FutureOk id (s.futures id)
  completed : ∀ id ∈ s.completed, (s.replies id).done = true
  executed : ∀ c, ∀ m ∈ s.executed c, m.id ∈ s.completed ∨ (s.drains c).completing = some m.id

theorem Replied.new : Bus.new.Replied where
  value := fun id h => absurd h (by simp [Bus.new])
  drains := fun c => trivial
  futures := fun id => trivial
  completed := fun id h => absurd h (by simp [Bus.new])
  executed := fun c m h => absurd h (by simp [Bus.new])

/-- What no step takes back. -/
structure Onward (s s' : Bus) : Prop where
  value : ∀ id v, s.ValueOf id v → s'.ValueOf id v
  result : ∀ id, s.ValueOf id (s.replies id).result → s'.ValueOf id (s'.replies id).result
  done : ∀ id, (s.replies id).done = true → (s'.replies id).done = true

variable {d : Drain}

theorem DrainOk.onward (h : Onward s s') (hd : s.DrainOk d) : s'.DrainOk d := by
  cases d with
  | idle | popping | running => trivial
  | storing id v => exact h.value id v hd
  | finishing id => exact h.result id hd
  | notifying id => exact h.done id hd

/-- The waker that a task has left is there, or the task has been woken. -/
structure Heard (s s' : Bus) (id : Nat) : Prop where
  waker : ∀ task, (s.replies id).waker = some task → (s'.replies id).waker = some task ∨
    ((s'.replies id).done = true ∧ s'.woken id task = true)
  woken : ∀ task, s.woken id task = true → s'.woken id task = true
  completed : id ∈ s'.completed → id ∈ s.completed ∨ ∀ task, (s.replies id).waker = some task → s'.woken id task = true

theorem FutureOk.onward (h : Onward s s') (hh : Heard s s' id) {p : ReplyPoll} (hp : s.FutureOk id p) :
    s'.FutureOk id p := by
  cases p with
  | idle | loading | registering => trivial
  | rechecking task => exact hp.elim (fun hw => (hh.waker task hw).imp_right And.left) fun hd => .inr (h.done id hd)
  | reading => exact h.done id hp
  | resolved v => exact h.value id v hp
  | pending task =>
    refine ⟨?_, fun hc => ?_⟩
    · exact hp.1.elim (fun hw => (hh.waker task hw).imp_right And.right) fun hw => .inr (hh.woken task hw)
    · rcases hh.completed hc with hold | hnew
      · exact hh.woken task (hp.2 hold)
      · exact hp.1.elim (hnew task) (hh.woken task)

theorem Heard.refl_of (hr : s'.replies id = s.replies id) (hw : s'.woken id = s.woken id)
    (hc : id ∈ s'.completed → id ∈ s.completed) : Heard s s' id :=
  ⟨fun _ h => .inl (hr ▸ h), fun _ h => hw ▸ h, fun h => .inl (hc h)⟩

theorem DrainOk.of_completing (h : d.completing = none) : s.DrainOk d := by
  cases d <;> trivial

variable {m : InboxMsg}

theorem Delivered.getElem?_sent (h : s.Delivered) (hm : m ∈ s.arrived c) : s.sent[m.id]? = some m ∧ m.target = c := by
  have hmem : m ∈ s.sentTo m.sender c := by
    rw [h.order]
    exact mem_append_left _ (mem_filter.mpr ⟨hm, by simp⟩)
  obtain ⟨hsent, hto⟩ := mem_filter.mp hmem
  obtain ⟨i, hi⟩ := mem_iff_getElem?.mp hsent
  rw [h.numbered i m hi]
  exact ⟨hi, by simpa using hto⟩

theorem Delivered.valueOf_running (h : s.Delivered) (hc : s.drains c = .running m) : s.ValueOf m.id m.value := by
  have hm : m ∈ s.arrived c := by simp [arrived, hc, message]
  exact ⟨m, (h.getElem?_sent hm).1, rfl⟩

namespace Replied

theorem quiet (h : s.Replied) (hsent : ∀ id v, s.ValueOf id v → s'.ValueOf id v) (hreplies : s'.replies = s.replies)
    (hwoken : s'.woken = s.woken) (hcompleted : s'.completed = s.completed) (hexecuted : s'.executed = s.executed)
    (hfutures : s'.futures = s.futures) (hdrains : ∀ c, s'.drains c = s.drains c ∨
      ((s'.drains c).completing = none ∧ (s.drains c).completing = none)) : s'.Replied := by
  have honward : Onward s s' := ⟨hsent, fun id hv => hsent id _ (hreplies ▸ hv), fun id hd => hreplies ▸ hd⟩
  refine ⟨fun id hd => ?_, fun c => ?_, fun id => ?_, fun id hid => ?_, fun c m hm => ?_⟩
  · rw [hreplies] at hd ⊢
    exact hsent id _ (h.value id hd)
  · exact (hdrains c).elim (fun hc => hc ▸ (h.drains c).onward honward) fun hc => .of_completing hc.1
  · rw [hfutures]
    exact (h.futures id).onward honward (.refl_of (by rw [hreplies]) (by rw [hwoken]) fun hid => hcompleted ▸ hid)
  · rw [hreplies]
    exact h.completed id (hcompleted ▸ hid)
  · rw [hcompleted]
    refine (h.executed c m (hexecuted ▸ hm)).imp_right fun hc => ?_
    rcases hdrains c with hd | ⟨-, hd⟩
    · rw [hd, hc]
    · simp [hd] at hc

theorem polled {i : Nat} (h : s.Replied) (hsent : s'.sent = s.sent) (hcompleted : s'.completed = s.completed)
    (hexecuted : s'.executed = s.executed) (hdrains : s'.drains = s.drains)
    (hreplies : ∀ id', (s'.replies id').done = (s.replies id').done ∧ (s'.replies id').result = (s.replies id').result)
    (hothers : ∀ id' ≠ i, s'.futures id' = s.futures id' ∧ s'.replies id' = s.replies id' ∧ s'.woken id' = s.woken id')
    (hfuture : s'.FutureOk i (s'.futures i)) : s'.Replied := by
  have hvalue : ∀ id v, s.ValueOf id v → s'.ValueOf id v := by
    rintro id v ⟨m, hm, hv⟩
    exact ⟨m, hsent ▸ hm, hv⟩
  have honward : Onward s s' :=
    ⟨hvalue, fun id hv => by rw [(hreplies id).2]; exact hvalue id _ hv, fun id hd => (hreplies id).1.trans hd⟩
  refine ⟨fun id hd => ?_, fun c => ?_, fun id' => ?_, fun id hid => ?_, fun c m hm => ?_⟩
  · rw [(hreplies id).2]
    exact hvalue id _ (h.value id ((hreplies id).1.symm.trans hd))
  · rw [hdrains]
    exact (h.drains c).onward honward
  · by_cases hid : id' = i
    · exact hid ▸ hfuture
    · obtain ⟨hf, hr, hw⟩ := hothers id' hid
      rw [hf]
      exact (h.futures id').onward honward (.refl_of hr hw fun hc => hcompleted ▸ hc)
  · rw [(hreplies id).1]
    exact h.completed id (hcompleted ▸ hid)
  · rw [hcompleted, hdrains]
    exact h.executed c m (hexecuted ▸ hm)

theorem worked (h : s.Replied) (honward : Onward s s') (hheard : ∀ id, Heard s s' id)
    (hfutures : s'.futures = s.futures) (hexecuted : s'.executed = s.executed)
    (hdrains : s'.drains = (s.setDrain c d).drains) (hd : s'.DrainOk d)
    (hvalue : ∀ id, (s'.replies id).done = true → s'.ValueOf id (s'.replies id).result)
    (hcompleted : ∀ id ∈ s'.completed, (s'.replies id).done = true) (hkeep : ∀ id ∈ s.completed, id ∈ s'.completed)
    (hcompleting : ∀ id, (s.drains c).completing = some id → id ∈ s'.completed ∨ d.completing = some id) :
    s'.Replied := by
  refine ⟨hvalue, fun c' => ?_, fun id => ?_, hcompleted, fun c' m hm => ?_⟩
  · rw [hdrains]
    by_cases hc : c' = c
    · subst hc
      rwa [drains_setDrain_self]
    · rw [drains_setDrain_of_ne s hc]
      exact (h.drains c').onward honward
  · rw [hfutures]
    exact (h.futures id).onward honward (hheard id)
  · rw [hexecuted] at hm
    rw [hdrains]
    rcases h.executed c' m hm with hold | hnow
    · exact .inl (hkeep _ hold)
    · by_cases hc : c' = c
      · subst hc
        rw [drains_setDrain_self]
        exact hcompleting _ hnow
      · rw [drains_setDrain_of_ne s hc]
        exact .inr hnow

theorem run (h : s.Replied) (hc : s.drains c = .running m) (hm : s.ValueOf m.id m.value) :
    ((s.execute c m).setDrain c (.storing m.id m.value)).Replied := by
  refine { h with drains := fun c' => ?_, executed := fun c' m' hm' => ?_ }
  · by_cases hcc : c' = c
    · subst hcc
      rw [drains_setDrain_self]
      exact hm
    · rw [drains_setDrain_of_ne _ hcc]
      exact h.drains c'
  · by_cases hcc : c' = c
    · subst hcc
      rw [drains_setDrain_self]
      have hmem : m' ∈ s.executed c' ++ [m] := by simpa [execute, setDrain] using hm'
      rcases mem_append.mp hmem with hold | hnew
      · refine (h.executed c' m' hold).imp_right fun hnone => ?_
        simp [hc, completing] at hnone
      · rw [mem_singleton.mp hnew]
        exact .inr rfl
    · rw [drains_setDrain_of_ne _ hcc]
      exact h.executed c' m' (by simpa [execute, setDrain, hcc] using hm')

@[simp] theorem futures_setFuture_self (s : Bus) (id : Nat) (p : ReplyPoll) : (s.setFuture id p).futures id = p :=
  update_self _ _ _

@[simp] theorem futures_setFuture_of_ne {id id' : Nat} (hne : id' ≠ id) (s : Bus) (p : ReplyPoll) :
    (s.setFuture id p).futures id' = s.futures id' := update_of_ne hne _ _

@[simp] theorem replies_setReply_self (s : Bus) (id : Nat) (r : ReplySlot) : (s.setReply id r).replies id = r :=
  update_self _ _ _

@[simp] theorem replies_setReply_of_ne {id id' : Nat} (hne : id' ≠ id) (s : Bus) (r : ReplySlot) :
    (s.setReply id r).replies id' = s.replies id' := update_of_ne hne _ _

section

variable (h : s.Replied)
include h

/-- The drain writes the reply it is completing, and wakes nobody by it. -/
theorem written {r : ReplySlot} (hwaker : r.waker = (s.replies id).waker)
    (hdone : (s.replies id).done = true → r.done = true) (hv : s.ValueOf id r.result)
    (hd : (s.setReply id r).DrainOk d) (hcompleting : (s.drains c).completing = d.completing) :
    ((s.setReply id r).setDrain c d).Replied := by
  have hslot : ∀ id', ((s.setReply id r).replies id').waker = (s.replies id').waker ∧
      ((s.replies id').done = true → ((s.setReply id r).replies id').done = true) ∧
      (s.ValueOf id' (s.replies id').result → s.ValueOf id' ((s.setReply id r).replies id').result) ∧
      (((s.setReply id r).replies id').done = true → s.ValueOf id' ((s.setReply id r).replies id').result) := by
    intro id'
    by_cases hid : id' = id
    · subst hid
      rw [replies_setReply_self]
      exact ⟨hwaker, hdone, fun _ => hv, fun _ => hv⟩
    · rw [replies_setReply_of_ne hid]
      exact ⟨rfl, fun hd => hd, fun hv => hv, h.value id'⟩
  exact h.worked ⟨fun _ _ hv => hv, fun id' => (hslot id').2.2.1, fun id' => (hslot id').2.1⟩
    (fun id' => ⟨fun task hw => .inl ((hslot id').1.trans hw), fun _ hw => hw, .inl⟩) rfl rfl rfl hd
    (fun id' => (hslot id').2.2.2) (fun id' hid => (hslot id').2.1 (h.completed id' hid)) (fun _ hid => hid)
    fun id' hid => .inr (hcompleting ▸ hid)

theorem store {v : UInt64} (hc : s.drains c = .storing id v) :
    ((s.setReply id { s.replies id with result := v }).setDrain c (.finishing id)).Replied := by
  have hv : s.ValueOf id v := by simpa [hc, DrainOk] using h.drains c
  refine h.written rfl (fun hd => hd) hv ?_ (by rw [hc]; rfl)
  rw [DrainOk, replies_setReply_self]
  exact hv

theorem finish (hc : s.drains c = .finishing id) :
    ((s.setReply id { s.replies id with done := true }).setDrain c (.notifying id)).Replied := by
  have hv : s.ValueOf id (s.replies id).result := by simpa [hc, DrainOk] using h.drains c
  refine h.written rfl (fun _ => rfl) hv ?_ (by rw [hc]; rfl)
  rw [DrainOk, replies_setReply_self]

theorem notify (hc : s.drains c = .notifying id) : ((s.notify id).setDrain c .popping).Replied := by
  have hdone : (s.replies id).done = true := by simpa [hc, DrainOk] using h.drains c
  have hslot : ∀ id', ((s.notify id).replies id').done = (s.replies id').done ∧
      ((s.notify id).replies id').result = (s.replies id').result := by
    intro id'
    by_cases hid : id' = id
    · subst hid
      simp [Bus.notify]
    · simp [Bus.notify, hid]
  have hwoken : ∀ id' task, s.woken id' task = true → (s.notify id).woken id' task = true := by
    intro id' task hw
    simp [Bus.notify, hw]
  have htaken : ∀ task, (s.replies id).waker = some task → (s.notify id).woken id task = true := by
    intro task hw
    simp [Bus.notify, hw]
  have hheard : ∀ id', Heard s ((s.notify id).setDrain c .popping) id' := by
    intro id'
    refine ⟨fun task hw => ?_, hwoken id', fun hmem => ?_⟩
    · by_cases hid : id' = id
      · subst hid
        exact .inr ⟨(hslot id').1.trans hdone, htaken task hw⟩
      · exact .inl (by simpa [Bus.notify, setDrain, hid] using hw)
    · rcases mem_cons.mp hmem with rfl | hold
      · exact .inr htaken
      · exact .inl hold
  refine h.worked ⟨fun _ _ hv => hv, fun id' hv => ?_, fun id' hd => (hslot id').1.trans hd⟩ hheard
    rfl rfl rfl trivial (fun id' hd => ?_) (fun id' hid => (hslot id').1.trans ?_)
    (fun _ hid => mem_cons_of_mem _ hid) fun id' hid => .inl ?_
  · exact (hslot id').2 ▸ hv
  · exact (hslot id').2 ▸ h.value id' ((hslot id').1.symm.trans hd)
  · rcases mem_cons.mp hid with rfl | hold
    · exact hdone
    · exact h.completed id' hold
  · obtain rfl : id = id' := by simpa [hc, completing] using hid
    exact mem_cons_self

theorem moved {p : ReplyPoll} (hp : s.FutureOk id p) : (s.setFuture id p).Replied := by
  refine h.polled (i := id) rfl rfl rfl rfl (fun _ => ⟨rfl, rfl⟩) (fun id' hid => ⟨?_, rfl, rfl⟩) ?_
  · exact futures_setFuture_of_ne hid s p
  · rw [futures_setFuture_self]
    exact hp

theorem beginPoll (id task : Nat) : (s.beginPoll id task).Replied := by
  refine h.polled (i := id) rfl rfl rfl rfl (fun _ => ⟨rfl, rfl⟩) (fun id' hid => ⟨?_, rfl, ?_⟩) ?_
  · exact futures_setFuture_of_ne hid _ _
  · exact update_of_ne hid _ _
  · rw [Bus.beginPoll, futures_setFuture_self]
    trivial

theorem register (id task : Nat) :
    ((s.setReply id { s.replies id with waker := some task }).setFuture id (.rechecking task)).Replied := by
  refine h.polled (i := id) rfl rfl rfl rfl (fun id' => ?_) (fun id' hid => ⟨?_, ?_, rfl⟩) ?_
  · by_cases hid : id' = id
    · subst hid
      simp [setFuture]
    · simp [setFuture, hid]
  · exact futures_setFuture_of_ne hid _ _
  · exact replies_setReply_of_ne hid s _
  · rw [futures_setFuture_self]
    exact .inl (congrArg ReplySlot.waker (replies_setReply_self s id _))

theorem step (hdelivered : s.Delivered) (hs : s.step e = some s') : s'.Replied := by
  cases transition_of_step hs with
  | request ht =>
    refine h.quiet ?_ rfl rfl rfl rfl rfl fun _ => .inl rfl
    rintro id v ⟨m, hm, hv⟩
    exact ⟨m, (getElem?_append_left (List.getElem?_eq_some_iff.mp hm).1).trans hm, hv⟩
  | push ht | mark ht | signal ht | interrupt =>
    exact h.quiet (fun _ _ hv => hv) rfl rfl rfl rfl rfl fun _ => .inl rfl
  | drainNone => exact h
  | @drain c hc | @popNone c hc _ | @pop c _ _ hc _ =>
    refine h.quiet (fun _ _ hv => hv) rfl rfl rfl rfl rfl fun c' => ?_
    by_cases hcc : c' = c
    · subst hcc
      exact .inr (by simp [hc, completing])
    · exact .inl (drains_setDrain_of_ne _ hcc _)
  | run hc => exact h.run hc (hdelivered.valueOf_running hc)
  | store hc => exact h.store hc
  | finish hc => exact h.finish hc
  | notify hc => exact h.notify hc
  | poll => exact h.beginPoll _ _
  | load hf =>
    refine h.moved ?_
    split_ifs with hdone
    · exact hdone
    · trivial
  | register hf => exact h.register _ _
  | @recheck id task hf =>
    have hwaker : (s.replies id).waker = some task ∨ (s.replies id).done = true := by
      simpa [hf, FutureOk] using h.futures id
    refine h.moved ?_
    split_ifs with hdone
    · exact hdone
    · exact ⟨.inl (hwaker.resolve_right hdone), fun hid => absurd (h.completed id hid) hdone⟩
  | @read id hf =>
    have hdone : (s.replies id).done = true := by simpa [hf, FutureOk] using h.futures id
    exact h.moved (h.value id hdone)
end
end Replied

variable {es : List BusStep}

/-- If its core goes on, a drain ends, with every message in the inbox executed in its turn. -/
def Finishes (c : Nat) (s : Bus) : Prop :=
  ∃ k s', exec step s (List.replicate k (.work c)) = some s' ∧ s'.drains c = .idle ∧ (s'.inboxes c).queue = [] ∧
    s'.executed c = s.arrived c

theorem Finishes.cons {t : Bus} (hwork : s.step (.work c) = some t) (harrived : t.arrived c = s.arrived c)
    (h : Finishes c t) : Finishes c s := by
  obtain ⟨k, u, hk, hidle, hqueue, hexecuted⟩ := h
  exact ⟨k + 1, u, exec_cons.mpr ⟨t, hwork, hk⟩, hidle, hqueue, hexecuted.trans harrived⟩

section

variable {q : List InboxMsg}
  (hpopping : ∀ s : Bus, s.drains c = .popping → (s.inboxes c).queue = q → Finishes c s)
include hpopping

theorem finishes_notifying (hc : s.drains c = .notifying id) (hq : (s.inboxes c).queue = q) : Finishes c s := by
  refine .cons (t := (s.notify id).setDrain c .popping) (by simp [step, work, hc]) ?_ (hpopping _ (by simp) hq)
  simp [arrived, setDrain, hc, message, notify]

theorem finishes_finishing (hc : s.drains c = .finishing id) (hq : (s.inboxes c).queue = q) : Finishes c s := by
  refine .cons (t := (s.setReply id { s.replies id with done := true }).setDrain c (.notifying id))
    (by simp [step, work, hc]) ?_ (finishes_notifying hpopping (drains_setDrain_self _ c _) hq)
  simp [arrived, setDrain, setReply, hc, message]

theorem finishes_storing {v : UInt64} (hc : s.drains c = .storing id v) (hq : (s.inboxes c).queue = q) :
    Finishes c s := by
  refine .cons (t := (s.setReply id { s.replies id with result := v }).setDrain c (.finishing id))
    (by simp [step, work, hc]) ?_ (finishes_finishing hpopping (drains_setDrain_self _ c _) hq)
  simp [arrived, setDrain, setReply, hc, message]

theorem finishes_running {m : InboxMsg} (hc : s.drains c = .running m) (hq : (s.inboxes c).queue = q) :
    Finishes c s := by
  refine .cons (t := (s.execute c m).setDrain c (.storing m.id m.value)) (by simp [step, work, hc]) ?_
    (finishes_storing hpopping (drains_setDrain_self _ c _) hq)
  simp [arrived, setDrain, execute, hc, message]

end

theorem finishes_popping (q : List InboxMsg) :
    ∀ s : Bus, s.drains c = .popping → (s.inboxes c).queue = q → Finishes c s := by
  induction q with
  | nil =>
    intro s hc hq
    refine ⟨1, s.setDrain c .idle, ?_, by simp, hq, ?_⟩
    · exact exec_cons.mpr ⟨_, by simp [step, work, hc, hq], rfl⟩
    · simp [arrived, hc, hq, message, setDrain]
  | cons m q ih =>
    intro s hc hq
    refine .cons (t := (s.setInbox c { s.inboxes c with queue := q }).setDrain c (.running m))
      (by simp [step, work, hc, hq]) ?_ (finishes_running ih (m := m) (by simp) (by simp))
    simp [arrived, setInbox, setDrain, hc, hq, message]

theorem finishes_of_ne_idle (hc : s.drains c ≠ .idle) : Finishes c s := by
  cases hd : s.drains c with
  | idle => exact absurd hd hc
  | popping => exact finishes_popping _ s hd rfl
  | running m => exact finishes_running (finishes_popping _) hd rfl
  | storing id v => exact finishes_storing (finishes_popping _) hd rfl
  | finishing id => exact finishes_finishing (finishes_popping _) hd rfl
  | notifying id => exact finishes_notifying (finishes_popping _) hd rfl

theorem Delivered.nodup_sent (h : s.Delivered) : s.sent.Nodup := by
  refine nodup_iff_injective_get.mpr fun i j hij => Fin.ext ?_
  have hi := h.numbered i _ (getElem?_eq_getElem i.isLt)
  have hj := h.numbered j _ (getElem?_eq_getElem j.isLt)
  exact hi.symm.trans ((congrArg InboxMsg.id hij).trans hj)

theorem Delivered.nodup_arrived (h : s.Delivered) (c : Nat) : (s.arrived c).Nodup := by
  refine nodup_iff_sublist.mpr fun m hm => ?_
  have hfilter := hm.filter (·.sender == m.sender)
  have hsent : (s.sentTo m.sender c).Nodup := h.nodup_sent.filter _
  rw [h.order] at hsent
  refine nodup_iff_sublist.mp (nodup_append.mp hsent).1 m ?_
  simpa using hfilter

/-- In every run, a core executes each message at most once, only messages that were sent to it, and those of one sender
in the order they were sent. A message in an inbox will be taken from it, since its core drains it or will be told to,
and a drain ends with all of them executed. When nothing is outstanding, all messages have been executed and all
replies are complete. A reply future returns the value of its own message, and once the reply is complete, the task
that waits for it has been woken. -/
theorem messages_executed_once (hrun : exec step new es = some s) :
    (∀ c, (s.executed c).Nodup ∧ ∀ m ∈ s.executed c, s.sent[m.id]? = some m ∧ m.target = c) ∧
      (∀ t c, (s.executed c).filter (·.sender == t) <+: s.sentTo t c) ∧
      (∀ c, (s.inboxes c).queue ≠ [] → s.Outstanding c) ∧ (∀ c, s.drains c ≠ .idle → Finishes c s) ∧
      (∀ c, ¬ s.Outstanding c → (∀ t, s.onTheWay t c = []) →
        (∀ t, (s.executed c).filter (·.sender == t) = s.sentTo t c) ∧ ∀ m ∈ s.executed c, m.id ∈ s.completed) ∧
      (∀ id v, s.futures id = .resolved v → s.ValueOf id v) ∧
      ∀ id task, s.futures id = .pending task → id ∈ s.completed → s.woken id task = true := by
  have hd : s.Delivered := exec_preserves (fun _ _ _ h hs => Delivered.step h hs) Delivered.new hrun
  have hr : s.Replied := by
    have hboth : s.Delivered ∧ s.Replied :=
      exec_preserves (I := fun s : Bus => s.Delivered ∧ s.Replied)
        (fun _ _ _ h hs => ⟨h.1.step hs, h.2.step h.1 hs⟩) ⟨Delivered.new, Replied.new⟩ hrun
    exact hboth.2
  refine ⟨fun c => ⟨?_, fun m hm => ?_⟩, fun t c => ?_, hd.marked, fun c => finishes_of_ne_idle, fun c hout hway => ?_,
    fun id v hf => ?_, fun id task hf hid => ?_⟩
  · have hnodup := hd.nodup_arrived c
    rw [arrived, append_assoc] at hnodup
    exact (nodup_append.mp hnodup).1
  · exact hd.getElem?_sent (mem_append_left _ (mem_append_left _ hm))
  · rw [hd.order, arrived, append_assoc, filter_append, append_assoc]
    exact prefix_append _ _
  · have hqueue : (s.inboxes c).queue = [] := by_contra fun hq => hout (hd.marked c hq)
    have hidle : s.drains c = .idle := by_contra fun hne => hout (.inr (.inl hne))
    refine ⟨fun t => ?_, fun m hm => ?_⟩
    · rw [hd.order, hway t, arrived, hqueue, hidle]
      simp [message]
    · refine (hr.executed c m hm).resolve_right ?_
      simp [hidle, completing]
  · have hok := hr.futures id
    rwa [hf] at hok
  · have hok := hr.futures id
    rw [hf] at hok
    exact hok.2 hid

def twoRequests : List BusStep :=
  [.request 0 1 (fun _ => 7) [], .send 0, .poll 0 0, .send 0, .send 0, .resume 0, .resume 0, .resume 0,
    .request 0 1 (fun _ => 8) [], .send 0, .drain 1] ++ List.replicate 11 (.work 1) ++ [.poll 0 0, .resume 0, .resume 0]

theorem two_messages_executed_once : ∃ s, exec step new twoRequests = some s ∧ (s.executed 1).map (·.id) = [0, 1] ∧
    s.futures 0 = .resolved 7 ∧ s.ValueOf 0 7 := by
  refine ⟨_, rfl, rfl, rfl, ?_⟩
  exact (@messages_executed_once _ twoRequests rfl).2.2.2.2.2.1 0 7 rfl

end Bus
end Ruos.Smp
