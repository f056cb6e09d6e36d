import Ruos.Wasm.Futex

/-! Which fibers can miss a call of `wake_key`. -/
namespace Ruos.Wasm

open Lib List Threads Function

namespace Futexes

variable {n : Nat} {w : Futexes n} {s : Threads n} {c : Fin n} {e : ThreadStep n}

variable {id k key count : Nat}

theorem Filled.record (h : w.Filled id k) : (w.record key count).Filled id k := by
  obtain ⟨call, hcall, hrest⟩ := h
  refine ⟨call, ?_, hrest⟩
  have hk := (List.getElem?_eq_some_iff.mp hcall).1
  exact (getElem?_append_left hk).trans hcall

theorem getElem?_record (key count : Nat) : (w.record key count).calls[w.calls.length]? =
    some ⟨count, (w.threads.woken key count).map (·.fiber.id)⟩ := getElem?_concat_length

theorem Covered.nodup_woken (h : w.Covered) (key count : Nat) :
    ((w.threads.woken key count).map (·.fiber.id)).Nodup := by
  have hperm := (drain_perm (·.key == key) count (w.threads.waitq (shardOf key)).waiters).map (·.fiber.id)
  have hnodup := hperm.nodup_iff.mpr (h.apart.nodup_waiters (shardOf key))
  rw [map_append] at hnodup
  exact (nodup_append.mp hnodup).1

theorem Covered.filled_record (h : w.Covered) {id key count : Nat}
    (hout : id ∉ (w.threads.woken key count).map (·.fiber.id)) (hle : count ≤ (w.threads.woken key count).length) :
    (w.record key count).Filled id w.calls.length := by
  exact ⟨_, getElem?_record key count, hout, h.nodup_woken key count, by simpa using hle⟩

theorem mem_missed_record (h : k ∈ (w.record key count).missed id) :
    k ∈ w.missed id ∨ (k = w.calls.length ∧ w.threads.waitsOn key id = true ∧
      id ∉ (w.threads.woken key count).map (·.fiber.id)) := by
  simp only [record] at h
  split_ifs at h with hwaits
  · exact (mem_cons.mp h).symm.imp (fun hk => hk) fun hk => ⟨hk, hwaits⟩
  · exact .inl h

theorem missed_subset_record (h : k ∈ w.missed id) : k ∈ (w.record key count).missed id := by
  simp only [record]
  split_ifs
  · exact mem_cons_of_mem _ h
  · exact h

variable {f : ThreadFiber}

/-- A fiber that waits is not among those whom a call finds in the wait queue, if it is in flight. -/
theorem Covered.not_woken (h : w.Covered) {key key' count : Nat} (hf : f ∈ w.threads.inFlight key') :
    f.id ∉ (w.threads.woken key count).map (·.fiber.id) := by
  intro hmem
  obtain ⟨x, hx, hid⟩ := mem_map.mp hmem
  obtain ⟨c, hc, -⟩ := mem_inFlight.mp hf
  exact h.apart.ne_waiter (mem_fibers_of_inFlight hc) (mem_of_drain_taken hx) hid

theorem Covered.key_of_flying (h : w.Covered) {key key' : Nat} (hf : f ∈ w.threads.inFlight key')
    (hwaits : w.threads.waitsOn key f.id = true) : key' = key := by
  obtain ⟨c, hc, hkey⟩ := mem_inFlight.mp hf
  simp only [waitsOn, Bool.or_eq_true, any_eq_true, beq_iff_eq] at hwaits
  rcases hwaits with ⟨g, hg, hid⟩ | ⟨x, hx, hid⟩
  · obtain ⟨c', hc', hkey'⟩ := mem_inFlight.mp hg
    obtain rfl := h.apart.core_eq (mem_fibers_of_inFlight hc) (mem_fibers_of_inFlight hc') hid
    obtain rfl := Option.some.inj (hc.symm.trans hc')
    exact hkey.symm.trans hkey'
  · exact absurd hid (h.apart.ne_waiter (mem_fibers_of_inFlight hc) (mem_filter.mp hx).1)

theorem Covered.key_of_parked (h : w.Covered) {j : Fin waitqShards} {x : Waiter} {key : Nat}
    (hx : x ∈ (w.threads.waitq j).waiters) (hwaits : w.threads.waitsOn key x.fiber.id = true) :
    j = shardOf key ∧ x.key = key := by
  simp only [waitsOn, Bool.or_eq_true, any_eq_true, beq_iff_eq] at hwaits
  rcases hwaits with ⟨g, hg, hid⟩ | ⟨x', hx', hid⟩
  · obtain ⟨c, hc, -⟩ := mem_inFlight.mp hg
    exact absurd hid.symm (h.apart.ne_waiter (mem_fibers_of_inFlight hc) hx)
  · obtain ⟨hmem, hkey⟩ := mem_filter.mp hx'
    obtain rfl := h.apart.shard_eq hmem hx hid.symm
    obtain rfl := inj_on_of_nodup_map (h.apart.nodup_waiters _) hmem hx hid
    exact ⟨rfl, beq_iff_eq.mp hkey⟩

variable {key count : Nat}

theorem length_waitersOn {s : Threads n} (hlt : (s.woken key count).length < count) :
    (s.waitersOn key).length = (s.woken key count).length := by
  have hcount := countP_drain (·.key == key) (·.key == key) count (s.waitq (shardOf key)).waiters
  have htaken : (s.woken key count).countP (·.key == key) = (s.woken key count).length :=
    countP_eq_length.mpr fun x hx => drain_taken (p := fun x : Waiter => x.key == key) hx
  have hleft : (drain (·.key == key) count (s.waitq (shardOf key)).waiters).2.countP (·.key == key) = 0 :=
    countP_eq_zero.mpr fun x hx => Bool.eq_false_iff.mp (drain_left (p := fun x : Waiter => x.key == key) hlt hx)
  rw [waitersOn, ← countP_eq_length_filter]
  rw [woken] at htaken ⊢
  omega

theorem inFlight_wakeKey (s : Threads n) (c : Fin n) (key count key' : Nat) :
    (s.wakeKey c key count).inFlight key' = s.inFlight key' := by
  simp only [inFlight, wakeKey, cores_setTimed, phase_setCall, cores_setShard]

theorem mem_waiters_wakeKey {s : Threads n} {j : Fin waitqShards} {x : Waiter}
    (hx : x ∈ ((s.wakeKey c key count).waitq j).waiters) :
    x ∈ (s.waitq j).waiters ∧ (j = shardOf key → (s.woken key count).length < count → x.key ≠ key) := by
  simp only [wakeKey, waitq_setTimed, waitq_setCall] at hx
  by_cases hj : j = shardOf key
  · subst hj
    rw [waitq_setShard_self] at hx
    refine ⟨mem_of_drain_left hx, fun _ hlt => ?_⟩
    simpa using drain_left hlt hx
  · rw [waitq_setShard_of_ne hj] at hx
    exact ⟨hx, fun heq => absurd heq hj⟩

theorem hasCredit_wakeKey (s : Threads n) (c : Fin n) (key count key' : Nat) : (s.wakeKey c key count).hasCredit key' =
    (decide (key' = key ∧ (s.woken key count).length < count) || s.hasCredit key') := by
  simp only [hasCredit, wakeKey, waitq_setTimed, waitq_setCall]
  by_cases hj : shardOf key' = shardOf key
  · rw [hj, waitq_setShard_self]
    by_cases hlt : (s.woken key count).length < count
    · have hlt' := hlt
      rw [woken] at hlt'
      simp only [if_pos hlt', any_leaveCredit, hlt, and_true]
      rfl
    · have hlt' := hlt
      rw [woken] at hlt'
      simp [if_neg hlt', hlt]
  · have hne : key' ≠ key := fun heq => hj (heq ▸ rfl)
    rw [waitq_setShard_of_ne hj]
    simp [hne]

theorem creditOf_record {key key' : Nat} (hcredit : w.threads.hasCredit key' = true) (count : Nat) :
    (w.record key count).creditOf key' = w.creditOf key' := by
  simp only [record]
  split_ifs with hnew
  · refine update_of_ne (fun heq => ?_) _ _
    simp [← heq, hcredit] at hnew
  · rfl

theorem Due.record {key key' count id k : Nat} (h : w.Due key' id k) :
    Due { w.record key count with threads := w.threads.wakeKey c key count } key' id k := by
  obtain ⟨call, hcall, hid, hnodup, hcredit, hnext⟩ := h
  have hk := (List.getElem?_eq_some_iff.mp hcall).1
  refine ⟨call, (getElem?_append_left hk).trans hcall, hid, hnodup, ?_, ?_⟩
  · rw [hasCredit_wakeKey, hcredit, Bool.or_true]
  · simp only [inFlight_wakeKey]
    refine hnext.imp (fun hsole => hsole) fun hall => ⟨(creditOf_record hcredit count).trans hall.1, hall.2.1, ?_⟩
    exact fun f hf => missed_subset_record (hall.2.2 f hf)

theorem Covered.due_record (h : w.Covered) (hf : f ∈ w.threads.inFlight key)
    (hlt : (w.threads.woken key count).length < count) (hout : f.id ∉ (w.threads.woken key count).map (·.fiber.id))
    (hg : w.InTurn (.notify c key count)) :
    Due { w.record key count with threads := w.threads.wakeKey c key count } key f.id w.calls.length := by
  have hlen := length_waitersOn hlt
  refine ⟨_, getElem?_record key count, hout, h.nodup_woken key count, ?_, ?_⟩
  · simp [hasCredit_wakeKey, hlt]
  · simp only [inFlight_wakeKey, length_map]
    refine (hg (by omega)).imp (fun hone g hgm => ?_) fun hcount => ⟨?_, by omega, fun g hgm => ?_⟩
    · obtain ⟨g', hg'⟩ := length_eq_one_iff.mp (Nat.le_antisymm hone (length_pos_of_mem hf))
      rw [hg', mem_singleton] at hf hgm
      rw [hf, hgm]
    · simp [Futexes.record, hlt, hcount.2]
    · have hwaits : w.threads.waitsOn key g.id = true := by
        simp only [waitsOn, Bool.or_eq_true, any_eq_true, beq_iff_eq]
        exact .inl ⟨g, hgm, rfl⟩
      simp only [Futexes.record, if_pos (And.intro hwaits (h.not_woken hgm))]
      exact mem_cons_self

theorem Covered.notifies (h : w.Covered) (hg : w.InTurn (.notify c key count))
    (hs : w.threads.step e = some (w.threads.wakeKey c key count)) :
    { w.record key count with threads := w.threads.wakeKey c key count }.Covered := by
  refine ⟨h.apart.step hs, fun j x hx => h.homes j x (mem_waiters_wakeKey hx).1, fun j x hx k hk => ?_,
    fun key' f hf k hk => ?_⟩
  · obtain ⟨hold, hleft⟩ := mem_waiters_wakeKey hx
    rcases mem_missed_record hk with hk | ⟨rfl, hwaits, hout⟩
    · exact (h.parked j x hold k hk).record
    · obtain ⟨hj, hkey⟩ := h.key_of_parked hold hwaits
      exact h.filled_record hout (Nat.le_of_not_lt fun hlt => hleft hj hlt hkey)
  · simp only [inFlight_wakeKey] at hf
    rcases mem_missed_record hk with hk | ⟨rfl, hwaits, hout⟩
    · exact (h.flying key' f hf k hk).imp Filled.record Due.record
    · obtain rfl := h.key_of_flying hf hwaits
      by_cases hlt : (w.threads.woken key' count).length < count
      · exact .inr (h.due_record hf hlt hout hg)
      · exact .inl (h.filled_record hout (Nat.le_of_not_lt hlt))

theorem Covered.phase (h : w.Covered) (hs : w.threads.step e = some s) {ph : RunPhase}
    (hcores : s.cores = (w.threads.setPhase c ph).cores) (hwaitq : s.waitq = w.threads.waitq)
    (hph : ∀ f, ph.inFlight = some f → (w.threads.cores c).phase.inFlight = some f) :
    { w with threads := s }.Covered := by
  refine h.frame hs (fun c' f hf => ?_) (fun j x hx => .inl (hwaitq ▸ hx)) fun j => by rw [hwaitq]
  rw [hcores] at hf
  by_cases hc : c' = c
  · subst hc
    rw [cores_setPhase_self] at hf
    exact hph f hf
  · rwa [cores_setPhase_of_ne hc] at hf

theorem Covered.call (h : w.Covered) (hs : w.threads.step e = some s) {call : ThreadCall}
    (hcores : s.cores = (w.threads.setCall c call).cores)
    (hwaiters : ∀ j, ∀ x ∈ (s.waitq j).waiters, x ∈ (w.threads.waitq j).waiters)
    (hcredits : ∀ j, (s.waitq j).credits = (w.threads.waitq j).credits) : { w with threads := s }.Covered := by
  refine h.frame hs (fun c' f hf => ?_) (fun j x hx => .inl (hwaiters j x hx)) hcredits
  rwa [hcores, phase_setCall] at hf

theorem watch_advance (hc : ∀ f, w.threads.cores c ≠ ⟨.parking f, .none⟩) : w.watch (.advance c) = w := by
  simp only [watch]

theorem Covered.drained (h : w.Covered) (hs : w.threads.step e = some s) {call : ThreadCall} {q : Waiter → Bool}
    {budget : Nat} {i : Fin waitqShards} (hcores : s.cores = (w.threads.setCall c call).cores)
    (hwaitq : s.waitq = (w.threads.setShard i { w.threads.waitq i with
      waiters := (drain q budget (w.threads.waitq i).waiters).2 }).waitq) : { w with threads := s }.Covered := by
  refine h.call hs hcores (fun j x hx => ?_) fun j => ?_
  · rw [hwaitq] at hx
    by_cases hj : j = i
    · subst hj
      rw [waitq_setShard_self] at hx
      exact mem_of_drain_left hx
    · rwa [waitq_setShard_of_ne hj] at hx
  · rw [hwaitq]
    by_cases hj : j = i
    · subst hj
      rw [waitq_setShard_self]
    · rw [waitq_setShard_of_ne hj]

theorem Covered.step {w' : Futexes n} (h : w.Covered) (hg : w.InTurn e) (hs : w.step e = some w') : w'.Covered := by
  obtain ⟨s, hs', rfl⟩ := Option.map_eq_some_iff.mp hs
  cases transition_of_step hs' with
  | take | exit | wait | notEqual => exact h.phase hs' rfl rfl (by simp [RunPhase.inFlight])
  | resume hc | suspended hc =>
    rw [watch_advance (by simp [hc])]
    refine h.phase hs' rfl rfl ?_
    split_ifs <;> simp [RunPhase.inFlight, hc]
  | @insert c f hc =>
    cases hspend : spendCredit (w.threads.waitq (shardOf f.parkKey)).credits f.parkKey with
    | none =>
      have hwatch : w.watch (.advance c) = w := by
        simp [watch, hc, hasCredit, spendCredit_eq_none hspend]
      rw [hwatch]
      exact h.parks hc hspend hs'
    | some credits =>
      have hwatch : w.watch (.advance c) = w.credit f := by
        simp [watch, hc, hasCredit, any_of_spendCredit hspend]
      rw [hwatch]
      exact h.credits hc hspend hs'
  | requeue hc | finish hc =>
    rw [watch_advance (by simp [hc])]
    exact h.phase hs' rfl rfl (by simp [RunPhase.inFlight])
  | wake hc | expired hc | reap hc | killed hc _ | drop hc =>
    rw [watch_advance fun f hf => by simp [hf] at hc]
    exact h.call hs' rfl (fun _ _ hx => hx) fun _ => rfl
  | expireShard hc | killShard hc =>
    rw [watch_advance fun f hf => by simp [hf] at hc]
    exact h.drained hs' rfl rfl
  | @equal c f key deadline hc =>
    have hwatch : w.watch (.recheck c false) = { w with missed := update w.missed f.id [] } := by
      simp [watch, beginWait, hc]
    rw [hwatch]
    exact h.begins (by simp [hc, Core.fibers, RunPhase.fibers]) hs' (hg key (by rw [hc]; rfl))
  | @sleep c f addr deadline hc =>
    have hwatch : w.watch (.sleep c addr deadline) = { w with missed := update w.missed f.id [] } := by
      simp [watch, beginWait, hc]
    rw [hwatch]
    exact h.begins (by simp [hc, Core.fibers, RunPhase.fibers]) hs' hg
  | notify hc => exact h.notifies hg hs'
  | expireNone | tick => exact h.frame hs' (fun _ _ hf => hf) (fun _ _ hx => .inl hx) fun _ => rfl
  | expire hc | kill hc | spawn hc | created hc | failed hc => exact h.call hs' rfl (fun _ _ hx => hx) fun _ => rfl

/-- In a run in which one credit is always enough, a fiber that ends in the wait queue although `wake_key` was called
on its key after it had begun to wait leaves to others all the wakes of that call, and a fiber in flight that could
claim one of them stays runnable. -/
theorem wakes_reach_waiters {es : List (ThreadStep n)} (hrun : exec step (new n) es = some w)
    (hg : Guarded step InTurn (new n) es) :
    (∀ j, ∀ x ∈ (w.threads.waitq j).waiters, ∀ k ∈ w.missed x.fiber.id, w.Filled x.fiber.id k) ∧
      ∀ c f, w.threads.cores c = ⟨.parking f, .none⟩ → ∀ k ∈ w.missed f.id, ¬ w.Filled f.id k →
        ∃ w', w.step (.advance c) = some w' ∧ w'.threads.cores c = ⟨.requeuing { f with parkKey := 0 }, .none⟩ := by
  have h : w.Covered := exec_invariant (fun _ _ _ h hg hs => Covered.step h hg hs) Covered.new hg hrun
  refine ⟨h.parked, fun c f hc k hk hnot => ?_⟩
  have hf : f ∈ w.threads.inFlight f.parkKey := Threads.mem_inFlight.mpr ⟨c, by rw [hc]; rfl, rfl⟩
  obtain ⟨call, -, -, -, hcredit, -⟩ := (h.flying f.parkKey f hf k hk).resolve_left hnot
  cases hspend : spendCredit (w.threads.waitq (shardOf f.parkKey)).credits f.parkKey with
  | none => simp [Threads.hasCredit, spendCredit_eq_none hspend] at hcredit
  | some credits =>
    have hstep : w.threads.step (.advance c) = some (w.threads.insert c f) := by
      simp [Threads.step, Threads.advance, Threads.advancePhase, hc]
    refine ⟨_, by rw [step, hstep]; rfl, ?_⟩
    simp [Threads.insert_of_credit c hspend, hc]

/-- One thread waits on a futex, another one is about to, and one of them is woken. -/
def wakeOne : List (ThreadStep 3) :=
  [.spawn 0 0, .created 0 .ok, .spawn 0 0, .created 0 .ok, .take 0, .advance 0, .take 1, .advance 1, .wait 0 64 (-1),
    .recheck 0 false, .advance 0, .advance 0, .wait 1 64 (-1), .recheck 1 false, .notify 2 64 1, .advance 2, .advance 1,
    .advance 1]

theorem wakes_reach_one_waiter : ∃ w, exec step (new 3) wakeOne = some w ∧ Guarded step InTurn (new 3) wakeOne ∧
    (w.threads.waitq (shardOf 64)).waiters = [⟨64, noDeadline, ⟨1, some 0, 0, noDeadline⟩⟩] ∧ w.missed 1 = [0] ∧
    w.Filled 1 0 := by
  have hg : Guarded step InTurn (new 3) wakeOne := by decide
  refine ⟨_, rfl, hg, by decide, by decide, ?_⟩
  exact (wakes_reach_waiters rfl hg).1 (shardOf 64) ⟨64, noDeadline, ⟨1, some 0, 0, noDeadline⟩⟩ (by decide) 0 (by decide)

/-- Two threads are about to wait on a futex when both are to be woken. -/
def wakeTwo : List (ThreadStep 3) :=
  [.spawn 0 0, .created 0 .ok, .spawn 0 0, .created 0 .ok, .take 0, .advance 0, .take 1, .advance 1, .wait 0 64 (-1),
    .recheck 0 false, .wait 1 64 (-1), .recheck 1 false, .notify 2 64 2, .advance 2, .advance 0, .advance 0, .advance 0,
    .advance 1, .advance 1]

theorem wake_of_two_reaches_one : ∃ w, exec step (new 3) wakeTwo = some w ∧
    (w.threads.waitq (shardOf 64)).waiters = [⟨64, noDeadline, ⟨1, some 0, 0, noDeadline⟩⟩] ∧ w.missed 1 = [0] ∧
    w.calls = [⟨2, [0]⟩] := by
  all_goals decide

end Futexes

end Ruos.Wasm
