import Ruos.Lib.Run

/-! A consumer that waits for requests which any number of producers post. The store of requests and the waker of the
consumer have a lock each, and every lock is taken for one step at a time: a producer puts its request into the store
and then takes the waker and wakes it, the consumer looks into the store and then leaves its waker. -/
namespace Ruos.Lib

open Option

structure Store (Q ρ : Type*) where
  push : Q → ρ → Q
  pop : Q → Option (ρ × Q)

namespace Store

variable {ρ : Type*}

def queue : Store (List ρ) ρ where
  push q r := q ++ [r]
  pop
    | [] => none
    | r :: q => some (r, q)

/-- Room for one request; a request that is not taken in time is overwritten. -/
def slot : Store (Option ρ) ρ where
  push _ r := some r
  pop q := q.map fun r => (r, none)

end Store

inductive Consumer
  /-- Busy, or about to look into the store. -/
  | running
  /-- It has found the store empty and has yet to leave its waker. -/
  | leaving
  | parked
deriving DecidableEq

/-- `woken` if the consumer is queued to run again. A producer is posting from when it has put its request into the store
until it has looked for the waker. -/
structure Mailbox (Q : Type*) where
  store : Q
  waker : Bool
  woken : Bool
  consumer : Consumer
  posting : Nat → Bool

inductive MailStep (ρ : Type*)
  | push (producer : Nat) (r : ρ)
  | wake (producer : Nat)
  | pop
  | park
  | run
  /-- Someone else wakes the consumer. -/
  | rouse

namespace Mailbox

variable {Q ρ : Type*} {st : Store Q ρ} {m m' : Mailbox Q} {e : MailStep ρ}

def new (q : Q) : Mailbox Q := ⟨q, false, false, .running, fun _ => false⟩

def pushed (st : Store Q ρ) (m : Mailbox Q) (p : Nat) (r : ρ) : Mailbox Q :=
  { m with store := st.push m.store r, posting := Function.update m.posting p true }

def notified (m : Mailbox Q) (p : Nat) : Mailbox Q :=
  { m with waker := false, woken := m.woken || m.waker, posting := Function.update m.posting p false }

theorem posting_notified_of_ne {p p' : Nat} (hne : p' ≠ p) : (m.notified p).posting p' = m.posting p' :=
  Function.update_of_ne hne _ _

def step (st : Store Q ρ) (m : Mailbox Q) : MailStep ρ → Option (Mailbox Q)
  | .push p r => if m.posting p then none else some (m.pushed st p r)
  | .wake p => if m.posting p then some (m.notified p) else none
  | .pop =>
    if m.consumer = .running then
      match st.pop m.store with
      | some (_, q) => some { m with store := q }
      | none => some { m with consumer := .leaving }
    else none
  | .park => if m.consumer = .leaving then some { m with waker := true, consumer := .parked } else none
  | .run => if m.woken ∧ m.consumer ≠ .leaving then some { m with woken := false, consumer := .running } else none
  | .rouse => some { m with woken := true }

def Holds (st : Store Q ρ) (m : Mailbox Q) : Prop := (st.pop m.store).isSome

/-- The consumer will run again: it is queued, or its waker is there and a producer is about to look for it. -/
def WakePending (m : Mailbox Q) : Prop := m.woken = true ∨ (m.waker = true ∧ ∃ p, m.posting p = true)

def Lost (st : Store Q ρ) (m : Mailbox Q) : Prop := m.consumer = .parked ∧ m.Holds st ∧ ¬ m.WakePending

/-- No producer is the last one to look for the waker of a consumer that has missed its request and has not left a
waker. -/
def InTime (st : Store Q ρ) (m : Mailbox Q) : MailStep ρ → Prop
  | .wake p => m.consumer = .leaving → m.Holds st →
      m.waker = true ∨ m.woken = true ∨ ∃ p', p' ≠ p ∧ m.posting p' = true
  | _ => True

structure Awake (st : Store Q ρ) (m : Mailbox Q) : Prop where
  waker : m.consumer = .parked → m.waker = true ∨ m.woken = true
  request : m.consumer ≠ .running → m.Holds st → m.woken = true ∨ ∃ p, m.posting p = true

theorem Awake.new (st : Store Q ρ) (q : Q) : (new q).Awake st := ⟨nofun, fun h => absurd rfl h⟩

theorem Awake.pushed (h : m.Awake st) (p : Nat) (r : ρ) : (m.pushed st p r).Awake st :=
  ⟨h.waker, fun _ _ => .inr ⟨p, Function.update_self _ _ _⟩⟩

theorem Awake.notified (h : m.Awake st) {p : Nat} (htime : InTime st m (.wake p)) : (m.notified p).Awake st := by
  have hwoken : m.waker = true ∨ m.woken = true → (m.notified p).woken = true := by
    rintro (h | h) <;> simp [Mailbox.notified, h]
  refine ⟨fun hparked => .inr (hwoken (h.waker hparked)), fun hconsumer hholds => ?_⟩
  cases hphase : m.consumer with
  | running => exact absurd hphase hconsumer
  | parked => exact .inl (hwoken (h.waker hphase))
  | leaving =>
    rcases htime hphase hholds with hwaker | hwake | ⟨p', hne, hposting⟩
    · exact .inl (hwoken (.inl hwaker))
    · exact .inl (hwoken (.inr hwake))
    · exact .inr ⟨p', (posting_notified_of_ne hne).trans hposting⟩

theorem Awake.step (h : m.Awake st) (htime : InTime st m e) (hstep : step st m e = some m') : m'.Awake st := by
  cases e <;> simp only [step, ite_none_left_eq_some, ite_none_right_eq_some, some.injEq] at hstep
  case pop =>
    obtain ⟨hrunning, hstep⟩ := hstep
    cases hpop : st.pop m.store with
    | some x =>
      simp only [hpop] at hstep
      cases hstep
      exact ⟨fun hparked => absurd (hrunning.symm.trans hparked) (by decide), fun hne => absurd hrunning hne⟩
    | none =>
      simp only [hpop] at hstep
      cases hstep
      refine ⟨nofun, fun _ hholds => ?_⟩
      rw [Holds, hpop] at hholds
      cases hholds
  case rouse =>
    cases hstep
    exact ⟨fun _ => .inr rfl, fun _ _ => .inl rfl⟩
  all_goals obtain ⟨hcond, rfl⟩ := hstep
  case push p r => exact h.pushed p r
  case wake => exact h.notified htime
  case park => exact ⟨fun _ => .inl rfl, fun _ => h.request (by rw [hcond]; decide)⟩
  case run => exact ⟨nofun, fun hne => absurd rfl hne⟩

theorem Awake.not_lost (h : m.Awake st) : ¬ m.Lost st := by
  rintro ⟨hparked, hholds, hnone⟩
  rcases h.waker hparked with hwaker | hwoken
  · rcases h.request (by rw [hparked]; decide) hholds with hwoken | hposting
    · exact hnone (.inl hwoken)
    · exact hnone (.inr ⟨hwaker, hposting⟩)
  · exact hnone (.inl hwoken)

/-- If a producer does come last, the request is lost as soon as the consumer has left its waker. -/
theorem lost_of_not_inTime {p : Nat} (htime : ¬ InTime st m (.wake p)) :
    ∃ m', step st (m.notified p) (.park : MailStep ρ) = some m' ∧ m'.Lost st := by
  simp only [InTime, not_forall, not_or, not_exists, not_and] at htime
  obtain ⟨hleaving, hholds, hwaker, hwoken, hlast⟩ := htime
  refine ⟨{ m.notified p with waker := true, consumer := .parked }, if_pos hleaving, rfl, hholds, ?_⟩
  rintro (hwake | ⟨-, p', hposting⟩)
  · simp only [notified, Bool.or_eq_true] at hwake
    exact hwake.elim hwoken hwaker
  · by_cases heq : p' = p
    · subst heq
      simp [notified] at hposting
    · exact hlast p' heq ((posting_notified_of_ne heq).symm.trans hposting)

section

def Moves (st : Store Q ρ) (m : Mailbox Q) (m' : Mailbox Q) : Option (MailStep ρ) → Prop
  | some e => m.step st e = some m'
  | none => m' = m

variable {σ ε : Type*} {step : σ → ε → Option σ} {mailbox : σ → Mailbox Q} {mailStep : σ → ε → Option (MailStep ρ)}

/-- Every step of a system is one of its mailbox, or leaves the mailbox alone. -/
def Simulates (st : Store Q ρ) (step : σ → ε → Option σ) (mailbox : σ → Mailbox Q)
    (mailStep : σ → ε → Option (MailStep ρ)) : Prop :=
  ∀ s e s', step s e = some s' → Moves st (mailbox s) (mailbox s') (mailStep s e)

/-- A step of the system at which no producer comes too late. -/
def StepInTime (st : Store Q ρ) (mailbox : σ → Mailbox Q) (mailStep : σ → ε → Option (MailStep ρ)) (s : σ) (e : ε) :
    Prop := ∀ x ∈ mailStep s e, InTime st (mailbox s) x

theorem Simulates.awake (hsim : Simulates st step mailbox mailStep) {s s' : σ} {e : ε} (hs : (mailbox s).Awake st)
    (htime : StepInTime st mailbox mailStep s e) (hstep : step s e = some s') : (mailbox s').Awake st := by
  have hmail := hsim s e s' hstep
  cases hx : mailStep s e with
  | some x =>
    rw [hx] at hmail
    exact hs.step (htime x hx) hmail
  | none =>
    rw [hx] at hmail
    exact hmail ▸ hs

theorem Simulates.not_lost (hsim : Simulates st step mailbox mailStep) {s t : σ} {es : List ε}
    (hs : (mailbox s).Awake st) (hg : Guarded step (StepInTime st mailbox mailStep) s es)
    (he : exec step s es = some t) : ¬ (mailbox t).Lost st :=
  Awake.not_lost (exec_invariant (I := fun s => (mailbox s).Awake st) (fun _ _ _ => hsim.awake) hs hg he)

/-- No wake is lost in the runs from `init` in which every producer comes in time, and where one does not, the consumer
can lose its wake in its next step. -/
structure LostOnlyLate (st : Store Q ρ) (step : σ → ε → Option σ) (mailbox : σ → Mailbox Q)
    (mailStep : σ → ε → Option (MailStep ρ)) (init : σ) : Prop where
  kept : ∀ es t, Guarded step (StepInTime st mailbox mailStep) init es → exec step init es = some t →
    ¬ (mailbox t).Lost st
  lost : ∀ s e s', step s e = some s' → ¬ StepInTime st mailbox mailStep s e →
    ∃ e' s'', step s' e' = some s'' ∧ (mailbox s'').Lost st

theorem Simulates.lostOnlyLate (hsim : Simulates st step mailbox mailStep) {init : σ} (hinit : (mailbox init).Awake st)
    (park : ε) (hpark : ∀ s, (mailbox s).consumer = .leaving → mailStep s park = some .park ∧ (step s park).isSome) :
    LostOnlyLate st step mailbox mailStep init where
  kept es t hg he := hsim.not_lost hinit hg he
  lost s e s' hstep hlate := by
    simp only [StepInTime, not_forall] at hlate
    obtain ⟨x, hx, hlate⟩ := hlate
    have hmail := hsim s e s' hstep
    rw [mem_def.mp hx] at hmail
    cases x with
    | wake p =>
      obtain ⟨m, hm, hlost⟩ := lost_of_not_inTime hlate
      simp only [Moves, Mailbox.step] at hmail
      split_ifs at hmail
      rw [some.inj hmail] at hm
      have hleaving : (mailbox s').consumer = .leaving := by
        simp only [Mailbox.step] at hm
        split_ifs at hm with hleaving
        exact hleaving
      obtain ⟨hpark', hsome⟩ := hpark s' hleaving
      obtain ⟨s'', hs''⟩ := isSome_iff_exists.mp hsome
      have hnext := hsim s' park s'' hs''
      rw [hpark'] at hnext
      refine ⟨park, s'', hs'', ?_⟩
      rwa [← some.inj (hm.symm.trans hnext)]
    | push | pop | park | run | rouse => exact absurd trivial hlate

end

end Mailbox
end Ruos.Lib
