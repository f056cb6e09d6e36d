import Ruos.Wasm.ThreadCounts

/-! The calls of `wake_key` in `wasm/wt/threads.rs`, those whom each of them makes runnable, and what the fibers that
wait on a futex can count on when they begin to wait and are inserted. -/
namespace Ruos.Wasm

open Lib

/-- The fiber that has passed the comparison of `futex_wait` under the lock and is not yet in the wait queue. -/
def RunPhase.inFlight : RunPhase → Option ThreadFiber
  | .suspended f | .parking f => some f
  | _ => none

def RunPhase.rechecked : RunPhase → Option Nat
  | .rechecking _ key _ => some key
  | _ => none

theorem RunPhase.mem_fibers_of_inFlight {ph : RunPhase} {f : ThreadFiber} (h : ph.inFlight = some f) :
    f ∈ ph.fibers := by
  cases ph <;> simp_all [inFlight, fibers]

namespace Threads

variable {n : Nat}

def inFlight (s : Threads n) (key : Nat) : List ThreadFiber :=
  (List.finRange n).filterMap fun c => (s.cores c).phase.inFlight.filter (·.parkKey == key)

theorem mem_inFlight {s : Threads n} {key : Nat} {f : ThreadFiber} :
    f ∈ s.inFlight key ↔ ∃ c, (s.cores c).phase.inFlight = some f ∧ f.parkKey = key := by
  simp [inFlight, Option.filter_eq_some_iff]

def waitersOn (s : Threads n) (key : Nat) : List Waiter := (s.waitq (shardOf key)).waiters.filter (·.key == key)

/-- The fiber is in flight with the key, or in the wait queue with it. -/
def waitsOn (s : Threads n) (key id : Nat) : Bool :=
  (s.inFlight key).any (·.id == id) || (s.waitersOn key).any (·.fiber.id == id)

def hasCredit (s : Threads n) (key : Nat) : Bool := (s.waitq (shardOf key)).credits.any (·.1 == key)

/-- The waiters that a call of `wake_key` takes out of the wait queue. -/
def woken (s : Threads n) (key count : Nat) : List Waiter :=
  (drain (·.key == key) count (s.waitq (shardOf key)).waiters).1

end Threads

/-- A call of `wake_key`, with the fibers that waited on its key and that it has made runnable: those it has found in
the wait queue, and the one that has used its credit. -/
structure WakeCall where
  count : Nat
  woken : List Nat
deriving DecidableEq

/-- The fibers, the calls of `wake_key` so far, those calls that each fiber has missed: they came after the fiber had
begun to wait and did not wake it, and the call that has left the credit of each key. -/
structure Futexes (n : Nat) where
  threads : Threads n
  calls : List WakeCall
  missed : Nat → List Nat
  creditOf : Nat → Option Nat

namespace Futexes

variable {n : Nat}

def new (n : Nat) : Futexes n := ⟨.new n, [], fun _ => [], fun _ => none⟩

def beginWait (w : Futexes n) (c : Fin n) : Futexes n :=
  match (w.threads.cores c).phase with
  | .running f | .rechecking f _ _ => { w with missed := Function.update w.missed f.id [] }
  | _ => w

def record (w : Futexes n) (key count : Nat) : Futexes n :=
  let woken := (w.threads.woken key count).map (·.fiber.id)
  let k := w.calls.length
  { w with
    calls := w.calls ++ [⟨count, woken⟩]
    missed := fun id => if w.threads.waitsOn key id ∧ id ∉ woken then k :: w.missed id else w.missed id
    creditOf :=
      if woken.length < count ∧ w.threads.hasCredit key = false then Function.update w.creditOf key (some k)
      else w.creditOf }

def credit (w : Futexes n) (f : ThreadFiber) : Futexes n :=
  match w.creditOf f.parkKey with
  | none => w
  | some k =>
    { w with
      calls := if k ∈ w.missed f.id then w.calls.modify k fun call => { call with woken := call.woken ++ [f.id] } else w.calls
      creditOf := Function.update w.creditOf f.parkKey none }

def watch (w : Futexes n) : ThreadStep n → Futexes n
  | .recheck c false => w.beginWait c
  | .sleep c _ _ => w.beginWait c
  | .notify _ key count => w.record key count
  | .advance c =>
    match w.threads.cores c with
    | ⟨.parking f, .none⟩ => if w.threads.hasCredit f.parkKey then w.credit f else w
    | _ => w
  | _ => w

def step (w : Futexes n) (e : ThreadStep n) : Option (Futexes n) :=
  (w.threads.step e).map fun s => { w.watch e with threads := s }

/-- No credit is there that a fiber in flight may count on. -/
def Free (w : Futexes n) (key : Nat) : Prop := w.threads.hasCredit key = true → w.threads.inFlight key = []

instance (w : Futexes n) (key : Nat) : Decidable (w.Free key) := inferInstanceAs (Decidable (_ → _))

/-- One credit is enough for the fibers in flight when `wake_key` finds too few waiters, and no fiber begins to wait
on a key while a credit is there for one in flight. -/
def InTurn (w : Futexes n) : ThreadStep n → Prop
  | .notify _ key count => (w.threads.waitersOn key).length < count →
      (w.threads.inFlight key).length ≤ 1 ∨
        ((w.threads.waitersOn key).length + 1 = count ∧ w.threads.hasCredit key = false)
  | .recheck c false => ∀ key ∈ (w.threads.cores c).phase.rechecked, w.Free key
  | .sleep _ key _ => w.Free key
  | _ => True

instance (w : Futexes n) : (e : ThreadStep n) → Decidable (w.InTurn e)
  | .notify .. => inferInstanceAs (Decidable (_ → _ ∨ _))
  | .recheck c false => inferInstanceAs (Decidable (∀ key ∈ (w.threads.cores c).phase.rechecked, w.Free key))
  | .sleep _ key _ => inferInstanceAs (Decidable (w.Free key))
  | .recheck _ true | .advance _ | .expire _ | .take _ | .exit _ | .wait .. | .kill .. | .spawn .. | .created .. | .tick =>
    isTrue trivial

/-- As many other fibers as a call asked for have been made runnable by it. -/
def Filled (w : Futexes n) (id k : Nat) : Prop :=
  ∃ call, w.calls[k]? = some call ∧ id ∉ call.woken ∧ call.woken.Nodup ∧ call.count ≤ call.woken.length
end Futexes

open Function List Option Threads

variable {key : Nat}

theorem spendCredit_eq_none {credits : List (Nat × Nat)} (h : spendCredit credits key = none) :
    credits.any (·.1 == key) = false := by
  cases hidx : credits.findIdx? (·.1 == key) with
  | none => simpa using findIdx?_eq_none_iff.mp hidx
  | some pos =>
    obtain ⟨hpos, -⟩ := findIdx?_eq_some_iff_getElem.mp hidx
    simp [spendCredit, hidx, getElem?_eq_getElem hpos] at h

theorem any_of_spendCredit {credits credits' : List (Nat × Nat)} (h : spendCredit credits key = some credits') :
    credits.any (·.1 == key) = true := by
  by_contra hnone
  have hall := any_eq_false.mp (Bool.eq_false_iff.mpr hnone)
  have hidx : credits.findIdx? (·.1 == key) = none :=
    findIdx?_eq_none_iff.mpr fun x hx => Bool.eq_false_iff.mpr (hall x hx)
  simp [spendCredit, hidx] at h

theorem any_spendCredit {credits credits' : List (Nat × Nat)} (h : spendCredit credits key = some credits')
    {key' : Nat} (hne : key' ≠ key) : credits'.any (·.1 == key') = credits.any (·.1 == key') := by
  simp only [spendCredit, bind_eq_bind, bind_eq_some_iff] at h
  obtain ⟨pos, hidx, entry, hget, h⟩ := h
  obtain ⟨hpos, hkey, -⟩ := findIdx?_eq_some_iff_getElem.mp hidx
  obtain rfl : credits[pos] = entry := some.inj ((getElem?_eq_getElem hpos).symm.trans hget)
  have hother : (credits[pos].1 == key') = false := by
    rw [beq_iff_eq.mp hkey]
    exact beq_eq_false_iff_ne.mpr hne.symm
  cases h
  split_ifs
  · have hperm := (swapRemove_perm hpos).any_eq (f := (·.1 == key'))
    rwa [any_cons, hother] at hperm
  · have hperm := (cons_set_perm (credits[pos].1, credits[pos].2 - 1) credits pos hpos).any_eq (f := (·.1 == key'))
    rwa [any_cons, any_cons, hother] at hperm

theorem any_leaveCredit (credits : List (Nat × Nat)) (key key' : Nat) :
    (leaveCredit credits key).any (·.1 == key') = (key' == key || credits.any (·.1 == key')) := by
  unfold leaveCredit
  split_ifs with h
  · by_cases hk : key' = key
    · subst hk
      simp [h]
    · simp [hk]
  · rw [any_append, any_cons, any_nil, Bool.or_false, Bool.or_comm, BEq.comm]

namespace Futexes

variable {n : Nat} {w : Futexes n} {s : Threads n} {c : Fin n} {e : ThreadStep n}

/-- The next fiber in flight on the key to be inserted finds the credit that this call relies on. -/
def Due (w : Futexes n) (key id k : Nat) : Prop :=
  ∃ call, w.calls[k]? = some call ∧ id ∉ call.woken ∧ call.woken.Nodup ∧ w.threads.hasCredit key = true ∧
    ((∀ f ∈ w.threads.inFlight key, f.id = id) ∨
      (w.creditOf key = some k ∧ call.count ≤ call.woken.length + 1 ∧
        ∀ f ∈ w.threads.inFlight key, k ∈ w.missed f.id))

structure Covered (w : Futexes n) : Prop where
  apart : w.threads.Apart
  homes : ∀ j, ∀ x ∈ (w.threads.waitq j).waiters, shardOf x.key = j
  parked : ∀ j, ∀ x ∈ (w.threads.waitq j).waiters, ∀ k ∈ w.missed x.fiber.id, w.Filled x.fiber.id k
  flying : ∀ key, ∀ f ∈ w.threads.inFlight key, ∀ k ∈ w.missed f.id, w.Filled f.id k ∨ w.Due key f.id k

theorem Covered.new : (Futexes.new n).Covered := by
  refine ⟨fun i => ?_, fun _ _ hx => absurd hx (by simp [Futexes.new, Threads.new]),
    fun _ _ hx => absurd hx (by simp [Futexes.new, Threads.new]), fun _ _ _ _ hk => absurd hk (by simp [Futexes.new])⟩
  simp [Futexes.new, Threads.new, Threads.total, Threads.queued, Threads.parked, Threads.onCores, Core.fibers,
    RunPhase.fibers, ThreadCall.fibers]

/-- A step after which no other fibers are in flight than before, and no other in the wait queue than those who have
missed no call that they could count on. -/
theorem Covered.frame (h : w.Covered) (hs : w.threads.step e = some s)
    (hflying : ∀ c f, (s.cores c).phase.inFlight = some f → (w.threads.cores c).phase.inFlight = some f)
    (hwaiters : ∀ j, ∀ x ∈ (s.waitq j).waiters, x ∈ (w.threads.waitq j).waiters ∨
      (shardOf x.key = j ∧ ∀ k ∈ w.missed x.fiber.id, w.Filled x.fiber.id k))
    (hcredits : ∀ j, (s.waitq j).credits = (w.threads.waitq j).credits) : { w with threads := s }.Covered := by
  have hsub : ∀ key, ∀ f ∈ s.inFlight key, f ∈ w.threads.inFlight key := by
    intro key f hf
    obtain ⟨c, hc, hkey⟩ := mem_inFlight.mp hf
    exact mem_inFlight.mpr ⟨c, hflying c f hc, hkey⟩
  refine ⟨h.apart.step hs, fun j x hx => (hwaiters j x hx).elim (h.homes j x) And.left,
    fun j x hx => (hwaiters j x hx).elim (h.parked j x) And.right, fun key f hf k hk => ?_⟩
  rcases h.flying key f (hsub key f hf) k hk with hfilled | ⟨call, hcall, hid, hnodup, hcredit, hnext⟩
  · exact .inl hfilled
  · refine .inr ⟨call, hcall, hid, hnodup, ?_, ?_⟩
    · simpa only [hasCredit, hcredits] using hcredit
    · exact hnext.imp (fun hsole f' hf' => hsole f' (hsub key f' hf'))
        fun hall => ⟨hall.1, hall.2.1, fun f' hf' => hall.2.2 f' (hsub key f' hf')⟩

variable {f : ThreadFiber}

theorem mem_fibers_of_inFlight {s : Threads n} (h : (s.cores c).phase.inFlight = some f) :
    f ∈ (s.cores c).fibers := mem_append_left _ (RunPhase.mem_fibers_of_inFlight h)

theorem Covered.begins (h : w.Covered) {key deadline : Nat} (hc : f ∈ (w.threads.cores c).fibers)
    (hs : w.threads.step e = some (w.threads.setPhase c (.suspended { f with parkKey := key, parkDeadline := deadline })))
    (hfree : w.Free key) : { w with
      threads := w.threads.setPhase c (.suspended { f with parkKey := key, parkDeadline := deadline })
      missed := Function.update w.missed f.id [] }.Covered := by
  have hothers : ∀ k, ∀ g ∈ (w.threads.setPhase c (.suspended { f with parkKey := key, parkDeadline := deadline })).inFlight k,
      (g.id = f.id ∧ k = key) ∨ (g.id ≠ f.id ∧ g ∈ w.threads.inFlight k) := by
    intro k g hg
    obtain ⟨c', hc', hkey⟩ := mem_inFlight.mp hg
    by_cases hcc : c' = c
    · subst hcc
      rw [cores_setPhase_self] at hc'
      cases hc'
      exact .inl ⟨rfl, hkey.symm⟩
    · rw [cores_setPhase_of_ne hcc] at hc'
      refine .inr ⟨fun hid => hcc (h.apart.core_eq hc (mem_fibers_of_inFlight hc') hid), ?_⟩
      exact mem_inFlight.mpr ⟨c', hc', hkey⟩
  refine ⟨h.apart.step hs, h.homes, fun j x hx k hk => ?_, fun k' g hg k hk => ?_⟩
  · by_cases hid : x.fiber.id = f.id
    · simp [hid] at hk
    · simp only [update_of_ne hid] at hk
      exact h.parked j x hx k hk
  · rcases hothers k' g hg with ⟨hid, -⟩ | ⟨hid, hmem⟩
    · simp [hid] at hk
    · simp only [update_of_ne hid] at hk
      rcases h.flying k' g hmem k hk with hfilled | ⟨call, hcall, hwoken, hnodup, hcredit, hnext⟩
      · exact .inl hfilled
      · have hne : k' ≠ key := by
          rintro rfl
          simp [hfree hcredit] at hmem
        have hold : ∀ g' ∈ (w.threads.setPhase c (.suspended { f with parkKey := key, parkDeadline := deadline })).inFlight k',
            g'.id ≠ f.id ∧ g' ∈ w.threads.inFlight k' := by
          intro g' hg'
          exact (hothers k' g' hg').resolve_left fun hnew => hne hnew.2
        refine .inr ⟨call, hcall, hwoken, hnodup, hcredit, hnext.imp (fun hsole g' hg' => ?_) fun hall => ?_⟩
        · exact hsole g' (hold g' hg').2
        · refine ⟨hall.1, hall.2.1, fun g' hg' => ?_⟩
          simp only [update_of_ne (hold g' hg').1]
          exact hall.2.2 g' (hold g' hg').2

theorem Covered.parks (h : w.Covered) (hc : w.threads.cores c = ⟨.parking f, .none⟩)
    (hspend : spendCredit (w.threads.waitq (shardOf f.parkKey)).credits f.parkKey = none)
    (hs : w.threads.step e = some (w.threads.insert c f)) : { w with threads := w.threads.insert c f }.Covered := by
  have hcredit : w.threads.hasCredit f.parkKey = false := spendCredit_eq_none hspend
  have hfilled : ∀ k ∈ w.missed f.id, w.Filled f.id k := by
    intro k hk
    refine (h.flying f.parkKey f (mem_inFlight.mpr ⟨c, by rw [hc]; rfl, rfl⟩) k hk).resolve_right ?_
    rintro ⟨call, -, -, -, hsome, -⟩
    simp [hcredit] at hsome
  rw [insert_of_no_credit c hspend] at hs ⊢
  refine h.frame hs (fun c' g hg => ?_) (fun j x hx => ?_) fun j => ?_
  · by_cases hcc : c' = c
    · subst hcc
      simp [RunPhase.inFlight] at hg
    · simpa [hcc] using hg
  · simp only [waitq_setTimed, waitq_setPhase] at hx
    by_cases hj : j = shardOf f.parkKey
    · subst hj
      rw [waitq_setShard_self] at hx
      rcases mem_append.mp hx with hold | hnew
      · exact .inl hold
      · rw [mem_singleton.mp hnew]
        exact .inr ⟨rfl, hfilled⟩
    · rw [waitq_setShard_of_ne hj] at hx
      exact .inl hx
  · by_cases hj : j = shardOf f.parkKey
    · subst hj
      simp
    · simp [hj]

theorem credit_call {k : Nat} {call : WakeCall} (hcall : w.calls[k]? = some call)
    (hnew : k ∈ w.missed f.id → f.id ∉ call.woken) :
    ∃ call', (w.credit f).calls[k]? = some call' ∧ call'.count = call.count ∧
      (call.woken.Nodup → call'.woken.Nodup) ∧ (∀ id ≠ f.id, id ∉ call.woken → id ∉ call'.woken) ∧
      (call.woken.length + if w.creditOf f.parkKey = some k ∧ k ∈ w.missed f.id then 1 else 0) = call'.woken.length := by
  unfold credit
  cases hof : w.creditOf f.parkKey with
  | none => exact ⟨call, hcall, rfl, id, fun _ _ h => h, by simp⟩
  | some k' =>
    by_cases hmissed : k' ∈ w.missed f.id
    · by_cases hk : k' = k
      · subst hk
        refine ⟨{ call with woken := call.woken ++ [f.id] }, by simp [hmissed, hcall], rfl, fun hnodup => ?_, ?_, ?_⟩
        · exact nodup_append_comm.mp (nodup_cons.mpr ⟨hnew hmissed, hnodup⟩)
        · intro id hid hout
          simp [hid, hout]
        · simp [hmissed]
      · exact ⟨call, by simp [hmissed, hk, hcall], rfl, id, fun _ _ h => h, by simp [hk]⟩
    · refine ⟨call, by simp [hmissed, hcall], rfl, id, fun _ _ h => h, ?_⟩
      rw [if_neg (by rintro ⟨heq, hk⟩; exact hmissed (some.inj heq ▸ hk))]
      rfl

theorem missed_credit (f : ThreadFiber) : (w.credit f).missed = w.missed := by
  unfold credit
  split <;> rfl

theorem creditOf_credit_of_ne (hne : key ≠ f.parkKey) : (w.credit f).creditOf key = w.creditOf key := by
  unfold credit
  split
  · rfl
  · exact update_of_ne hne _ _

theorem Covered.credits (h : w.Covered) {credits : List (Nat × Nat)} (hc : w.threads.cores c = ⟨.parking f, .none⟩)
    (hspend : spendCredit (w.threads.waitq (shardOf f.parkKey)).credits f.parkKey = some credits)
    (hs : w.threads.step e = some (w.threads.insert c f)) :
    { w.credit f with threads := w.threads.insert c f }.Covered := by
  have hapart := h.apart.step hs
  rw [insert_of_credit c hspend] at hapart ⊢
  have hf : f ∈ w.threads.inFlight f.parkKey := mem_inFlight.mpr ⟨c, by rw [hc]; rfl, rfl⟩
  have hcore : f ∈ (w.threads.cores c).fibers := by simp [hc, Core.fibers, RunPhase.fibers]
  have hnew : ∀ k call, w.calls[k]? = some call → k ∈ w.missed f.id → f.id ∉ call.woken := by
    intro k call hcall hk
    rcases h.flying _ f hf k hk with ⟨call', hcall', hid, -⟩ | ⟨call', hcall', hid, -⟩
    all_goals
      obtain rfl : call = call' := some.inj (hcall.symm.trans hcall')
      exact hid
  have hfilled : ∀ id k, id ≠ f.id → w.Filled id k → (w.credit f).Filled id k := by
    rintro id k hid ⟨call, hcall, hout, hnodup, hcount⟩
    obtain ⟨call', hcall', heq, hnodup', hout', hlen⟩ := credit_call hcall (hnew k call hcall)
    exact ⟨call', hcall', hout' id hid hout, hnodup' hnodup, by omega⟩
  have hwaiters : ∀ j, ∀ x ∈ ((w.threads.setShard (shardOf f.parkKey)
      { w.threads.waitq (shardOf f.parkKey) with credits := credits }).waitq j).waiters,
      x ∈ (w.threads.waitq j).waiters := by
    intro j x hx
    by_cases hj : j = shardOf f.parkKey
    · subst hj
      simpa using hx
    · simpa [hj] using hx
  have hflying : ∀ key, ∀ g ∈ ((w.threads.setShard (shardOf f.parkKey)
      { w.threads.waitq (shardOf f.parkKey) with credits := credits }).setPhase c
        (.requeuing { f with parkKey := 0 })).inFlight key, g.id ≠ f.id ∧ g ∈ w.threads.inFlight key := by
    intro key g hg
    obtain ⟨c', hc', hkey⟩ := mem_inFlight.mp hg
    by_cases hcc : c' = c
    · subst hcc
      simp [RunPhase.inFlight] at hc'
    · rw [cores_setPhase_of_ne hcc] at hc'
      exact ⟨fun hid => hcc (h.apart.core_eq hcore (mem_fibers_of_inFlight hc') hid),
        mem_inFlight.mpr ⟨c', hc', hkey⟩⟩
  refine ⟨hapart, fun j x hx => h.homes j x (hwaiters j x hx), fun j x hx k hk => ?_, fun key g hg k hk => ?_⟩
  · have hold := hwaiters j x hx
    rw [missed_credit] at hk
    exact hfilled _ k (h.apart.ne_waiter hcore hold) (h.parked j x hold k hk)
  · obtain ⟨hid, hold⟩ := hflying key g hg
    rw [missed_credit] at hk
    rcases h.flying key g hold k hk with hfill | ⟨call, hcall, hout, hnodup, hcredit, hnext⟩
    · exact .inl (hfilled _ k hid hfill)
    · obtain ⟨call', hcall', hcount, hnodup', hout', hlen⟩ := credit_call hcall (hnew k call hcall)
      by_cases hkey : key = f.parkKey
      · subst hkey
        obtain ⟨hof, hle, hall⟩ := hnext.resolve_left fun hsole => hid (hsole f hf).symm
        rw [if_pos ⟨hof, hall f hf⟩] at hlen
        exact .inl ⟨call', hcall', hout' g.id hid hout, hnodup' hnodup, by omega⟩
      · refine .inr ⟨call', hcall', hout' g.id hid hout, hnodup' hnodup, ?_, ?_⟩
        · rw [← hcredit]
          change ((w.threads.setShard _ _).waitq (shardOf key)).credits.any _ = _
          by_cases hj : shardOf key = shardOf f.parkKey
          · rw [hj, waitq_setShard_self, hasCredit, hj]
            exact any_spendCredit hspend hkey
          · rw [waitq_setShard_of_ne hj, hasCredit]
        · refine hnext.imp (fun hsole g' hg' => hsole g' (hflying key g' hg').2) fun hall => ?_
          refine ⟨(creditOf_credit_of_ne hkey).trans hall.1, by omega, fun g' hg' => ?_⟩
          rw [missed_credit]
          exact hall.2.2 g' (hflying key g' hg').2

end Futexes
end Ruos.Wasm
