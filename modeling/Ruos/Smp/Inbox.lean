import Ruos.Lib.Run

/-! The message bus between cores of `smp/inbox.rs`: the inbox of each core, the senders that enqueue messages, the
cores that drain their inboxes, and the futures that wait for the replies. Every step is one critical section or one
access to an atomic. The messages arrive in order. -/
namespace Ruos.Smp

open Lib

/-- The first three fields are not in the code; a message and its reply slot have the same number. -/
structure InboxMsg where
  id : Nat
  sender : Nat
  target : Nat
  op : List UInt8 → UInt64
  input : List UInt8

def InboxMsg.value (m : InboxMsg) : UInt64 := m.op m.input

structure ReplySlot where
  result : UInt64
  done : Bool
  waker : Option Nat

structure CoreInbox where
  queue : List InboxMsg
  pending : Bool

/-- What `enqueue` does next. -/
inductive Sender
  | idle
  | pushing (m : InboxMsg)
  /-- Set `pending`. -/
  | marking (target : Nat)
  /-- Send the interrupt. -/
  | signalling (target : Nat)

/-- What `drain_inbox` does next on a core. -/
inductive Drain
  | idle
  | popping
  | running (m : InboxMsg)
  /-- `complete`: store the result. -/
  | storing (id : Nat) (value : UInt64)
  /-- `complete`: set `done`. -/
  | finishing (id : Nat)
  /-- `complete`: take the waker and wake its task. -/
  | notifying (id : Nat)

/-- What `poll` of a reply future does next, in a task. -/
inductive ReplyPoll
  | idle
  /-- Load `done`. -/
  | loading (task : Nat)
  /-- Leave the waker of the task. -/
  | registering (task : Nat)
  /-- Load `done` again. -/
  | rechecking (task : Nat)
  /-- Load the result and return it. -/
  | reading
  | pending (task : Nat)
  | resolved (value : UInt64)

/-- A task is woken for a future if its waker has been used since it began to poll the future. The last three fields
are not in the code: all messages so far, those that each core has executed, and the replies that are complete. -/
structure Bus where
  inboxes : Nat → CoreInbox
  drains : Nat → Drain
  ipis : Nat → Nat
  senders : Nat → Sender
  replies : Nat → ReplySlot
  futures : Nat → ReplyPoll
  woken : Nat → Nat → Bool
  sent : List InboxMsg
  executed : Nat → List InboxMsg
  completed : List Nat

inductive BusStep
  | request (sender target : Nat) (op : List UInt8 → UInt64) (input : List UInt8)
  /-- The next step of `enqueue`. -/
  | send (sender : Nat)
  | interrupt (core : Nat)
  | drain (core : Nat)
  /-- The next step of `drain_inbox`. -/
  | work (core : Nat)
  | poll (id task : Nat)
  /-- The next step of `poll`. -/
  | resume (id : Nat)

namespace Bus

def new : Bus where
  inboxes := fun _ => ⟨[], false⟩
  drains := fun _ => .idle
  ipis := fun _ => 0
  senders := fun _ => .idle
  replies := fun _ => ⟨0, false, none⟩
  futures := fun _ => .idle
  woken := fun _ _ => false
  sent := []
  executed := fun _ => []
  completed := []

def setInbox (s : Bus) (c : Nat) (inbox : CoreInbox) : Bus := { s with inboxes := Function.update s.inboxes c inbox }

def setDrain (s : Bus) (c : Nat) (d : Drain) : Bus := { s with drains := Function.update s.drains c d }

def setSender (s : Bus) (t : Nat) (x : Sender) : Bus := { s with senders := Function.update s.senders t x }

def setReply (s : Bus) (id : Nat) (r : ReplySlot) : Bus := { s with replies := Function.update s.replies id r }

def setFuture (s : Bus) (id : Nat) (p : ReplyPoll) : Bus := { s with futures := Function.update s.futures id p }

def setWoken (s : Bus) (id task : Nat) (woken : Bool) : Bus :=
  { s with woken := Function.update s.woken id (Function.update (s.woken id) task woken) }

def markPending (s : Bus) (c : Nat) : Bus := s.setInbox c { s.inboxes c with pending := true }

def execute (s : Bus) (c : Nat) (m : InboxMsg) : Bus :=
  { s with executed := Function.update s.executed c (s.executed c ++ [m]) }

def notify (s : Bus) (id : Nat) : Bus :=
  { s with
    replies := Function.update s.replies id { s.replies id with waker := none }
    woken := fun id' task => s.woken id' task || decide (id' = id ∧ (s.replies id).waker = some task)
    completed := id :: s.completed }

def beginRequest (s : Bus) (m : InboxMsg) : Bus := { s.setSender m.sender (.pushing m) with sent := s.sent ++ [m] }

def send (s : Bus) (t : Nat) : Option Bus :=
  match s.senders t with
  | .idle => none
  | .pushing m =>
    let inbox := s.inboxes m.target
    some ((s.setInbox m.target { inbox with queue := inbox.queue ++ [m] }).setSender t (.marking m.target))
  | .marking c => some ((s.markPending c).setSender t (.signalling c))
  | .signalling c => some ({ s with ipis := Function.update s.ipis c (s.ipis c + 1) }.setSender t .idle)

def work (s : Bus) (c : Nat) : Option Bus :=
  match s.drains c with
  | .idle => none
  | .popping =>
    match (s.inboxes c).queue with
    | [] => some (s.setDrain c .idle)
    | m :: q => some ((s.setInbox c { s.inboxes c with queue := q }).setDrain c (.running m))
  | .running m => some ((s.execute c m).setDrain c (.storing m.id m.value))
  | .storing id value => some ((s.setReply id { s.replies id with result := value }).setDrain c (.finishing id))
  | .finishing id => some ((s.setReply id { s.replies id with done := true }).setDrain c (.notifying id))
  | .notifying id => some ((s.notify id).setDrain c .popping)

def resume (s : Bus) (id : Nat) : Option Bus :=
  let r := s.replies id
  match s.futures id with
  | .idle | .pending _ | .resolved _ => none
  | .loading task => some (s.setFuture id (if r.done then .reading else .registering task))
  | .registering task => some ((s.setReply id { r with waker := some task }).setFuture id (.rechecking task))
  | .rechecking task => some (s.setFuture id (if r.done then .reading else .pending task))
  | .reading => some (s.setFuture id (.resolved r.result))

def beginPoll (s : Bus) (id task : Nat) : Bus := (s.setWoken id task false).setFuture id (.loading task)

def step (s : Bus) : BusStep → Option Bus
  | .request t target op input =>
    match s.senders t with
    | .idle => some (s.beginRequest ⟨s.sent.length, t, target, op, input⟩)
    | _ => none
  | .send t => s.send t
  | .interrupt c =>
    if s.ipis c = 0 then none else some ({ s with ipis := Function.update s.ipis c (s.ipis c - 1) }.markPending c)
  | .drain c =>
    match s.drains c with
    | .idle =>
      if (s.inboxes c).pending then some ((s.setInbox c { s.inboxes c with pending := false }).setDrain c .popping)
      else some s
    | _ => none
  | .work c => s.work c
  | .poll id task =>
    if id < s.sent.length then
      match s.futures id with
      | .idle | .pending _ => some (s.beginPoll id task)
      | _ => none
    else none
  | .resume id => s.resume id
end Bus

open Option Sender Function

namespace Bus

variable {s s' : Bus} {e : BusStep}

section

variable (s : Bus) (c t id : Nat)

@[simp] theorem drains_setDrain_self (d : Drain) : (s.setDrain c d).drains c = d := update_self _ _ _

@[simp] theorem drains_setDrain_of_ne {c c' : Nat} (hne : c' ≠ c) (d : Drain) :
    (s.setDrain c d).drains c' = s.drains c' := update_of_ne hne _ _

@[simp] theorem inboxes_setInbox_self (inbox : CoreInbox) : (s.setInbox c inbox).inboxes c = inbox :=
  update_self _ _ _

@[simp] theorem inboxes_setInbox_of_ne {c c' : Nat} (hne : c' ≠ c) (inbox : CoreInbox) :
    (s.setInbox c inbox).inboxes c' = s.inboxes c' := update_of_ne hne _ _

@[simp] theorem senders_setSender_self (x : Sender) : (s.setSender t x).senders t = x := update_self _ _ _

@[simp] theorem senders_setSender_of_ne {t t' : Nat} (hne : t' ≠ t) (x : Sender) :
    (s.setSender t x).senders t' = s.senders t' := update_of_ne hne _ _

@[simp] theorem inboxes_setDrain (d : Drain) : (s.setDrain c d).inboxes = s.inboxes := rfl

@[simp] theorem inboxes_setSender (x : Sender) : (s.setSender t x).inboxes = s.inboxes := rfl

@[simp] theorem drains_setInbox (inbox : CoreInbox) : (s.setInbox c inbox).drains = s.drains := rfl

@[simp] theorem senders_setInbox (inbox : CoreInbox) : (s.setInbox c inbox).senders = s.senders := rfl

end

inductive Transition (s : Bus) : BusStep → Bus → Prop
  | request {t target : Nat} {op : List UInt8 → UInt64} {input : List UInt8} (ht : s.senders t = .idle) :
      Transition s (.request t target op input) (s.beginRequest ⟨s.sent.length, t, target, op, input⟩)
  | push {t : Nat} {m : InboxMsg} (ht : s.senders t = .pushing m) : Transition s (.send t)
      ((s.setInbox m.target { s.inboxes m.target with queue := (s.inboxes m.target).queue ++ [m] }).setSender t
        (.marking m.target))
  | mark {t c : Nat} (ht : s.senders t = .marking c) :
      Transition s (.send t) ((s.markPending c).setSender t (.signalling c))
  | signal {t c : Nat} (ht : s.senders t = .signalling c) : Transition s (.send t)
      ({ s with ipis := Function.update s.ipis c (s.ipis c + 1) }.setSender t .idle)
  | interrupt {c : Nat} : Transition s (.interrupt c)
      ({ s with ipis := Function.update s.ipis c (s.ipis c - 1) }.markPending c)
  | drainNone {c : Nat} : Transition s (.drain c) s
  | drain {c : Nat} (hc : s.drains c = .idle) : Transition s (.drain c)
      ((s.setInbox c { s.inboxes c with pending := false }).setDrain c .popping)
  | popNone {c : Nat} (hc : s.drains c = .popping) (hq : (s.inboxes c).queue = []) :
      Transition s (.work c) (s.setDrain c .idle)
  | pop {c : Nat} {m : InboxMsg} {q : List InboxMsg} (hc : s.drains c = .popping) (hq : (s.inboxes c).queue = m :: q) :
      Transition s (.work c) ((s.setInbox c { s.inboxes c with queue := q }).setDrain c (.running m))
  | run {c : Nat} {m : InboxMsg} (hc : s.drains c = .running m) :
      Transition s (.work c) ((s.execute c m).setDrain c (.storing m.id m.value))
  | store {c id : Nat} {value : UInt64} (hc : s.drains c = .storing id value) : Transition s (.work c)
      ((s.setReply id { s.replies id with result := value }).setDrain c (.finishing id))
  | finish {c id : Nat} (hc : s.drains c = .finishing id) : Transition s (.work c)
      ((s.setReply id { s.replies id with done := true }).setDrain c (.notifying id))
  | notify {c id : Nat} (hc : s.drains c = .notifying id) : Transition s (.work c) ((s.notify id).setDrain c .popping)
  | poll {id task : Nat} : Transition s (.poll id task) (s.beginPoll id task)
  | load {id task : Nat} (hf : s.futures id = .loading task) : Transition s (.resume id)
      (s.setFuture id (if (s.replies id).done then .reading else .registering task))
  | register {id task : Nat} (hf : s.futures id = .registering task) : Transition s (.resume id)
      ((s.setReply id { s.replies id with waker := some task }).setFuture id (.rechecking task))
  | recheck {id task : Nat} (hf : s.futures id = .rechecking task) : Transition s (.resume id)
      (s.setFuture id (if (s.replies id).done then .reading else .pending task))
  | read {id : Nat} (hf : s.futures id = .reading) : Transition s (.resume id)
      (s.setFuture id (.resolved (s.replies id).result))

theorem transition_of_step (h : s.step e = some s') : Transition s e s' := by
  cases e <;> simp only [step, send, work, resume] at h
  case request t target op input =>
    split at h <;> cases h
    exact .request ‹_›
  case send t =>
    split at h <;> cases h
    · exact .push ‹_›
    · exact .mark ‹_›
    · exact .signal ‹_›
  case interrupt c =>
    split_ifs at h
    cases h
    exact .interrupt
  case drain c =>
    split at h
    · split_ifs at h <;> cases h
      · exact .drain ‹_›
      · exact .drainNone
    · cases h
  case work c =>
    split at h
    · cases h
    · split at h <;> cases h
      · exact .popNone ‹_› ‹_›
      · exact .pop ‹_› ‹_›
    all_goals cases h
    · exact .run ‹_›
    · exact .store ‹_›
    · exact .finish ‹_›
    · exact .notify ‹_›
  case poll id task =>
    split_ifs at h
    split at h <;> cases h <;> exact .poll
  case resume id =>
    split at h <;> cases h
    · exact .load ‹_›
    · exact .register ‹_›
    · exact .recheck ‹_›
    · exact .read ‹_›

end Bus

def Drain.message : Drain → List InboxMsg
  | .running m => [m]
  | _ => []

def Sender.message : Sender → List InboxMsg
  | .pushing m => [m]
  | _ => []

variable {m : InboxMsg}

theorem Sender.eq_pushing {x : Sender} (h : x.message = [m]) : x = .pushing m := by
  cases x <;> simp_all [message]

namespace Bus

variable {s s' : Bus} {e : BusStep} {c c' t : Nat}

/-- The messages from a sender to a core, in the order they were sent. -/
def sentTo (s : Bus) (t c : Nat) : List InboxMsg := s.sent.filter fun m => m.sender == t && m.target == c

/-- The messages that a core has executed, the one whose operation it is about to run, and those in its inbox. -/
def arrived (s : Bus) (c : Nat) : List InboxMsg := s.executed c ++ (s.drains c).message ++ (s.inboxes c).queue

def onTheWay (s : Bus) (t c : Nat) : List InboxMsg := (s.senders t).message.filter (·.target == c)

/-- The core drains its inbox, or will do so because of `pending`, or because of a sender that is about to set it. -/
def Outstanding (s : Bus) (c : Nat) : Prop :=
  (s.inboxes c).pending = true ∨ s.drains c ≠ .idle ∨ ∃ t, s.senders t = .marking c

structure Delivered (s : Bus) : Prop where
  numbered : ∀ (i : Nat) (m : InboxMsg), s.sent[i]? = some m → m.id = i
  pushing : ∀ t m, s.senders t = .pushing m → m.sender = t
  order : ∀ t c, s.sentTo t c = (s.arrived c).filter (·.sender == t) ++ s.onTheWay t c
  marked : ∀ c, (s.inboxes c).queue ≠ [] → s.Outstanding c

theorem Outstanding.mono (h : s.Outstanding c) (hp : (s.inboxes c).pending = true → (s'.inboxes c).pending = true)
    (hd : s.drains c ≠ .idle → s'.drains c ≠ .idle)
    (hs : ∀ t, s.senders t = .marking c → s'.senders t = .marking c) : s'.Outstanding c :=
  h.imp hp fun h => h.imp hd fun ⟨t, ht⟩ => ⟨t, hs t ht⟩

theorem senders_setSender_of_marking {x : Sender} (ht : s.senders t ≠ .marking c) {t' : Nat}
    (ht' : s.senders t' = .marking c) : (s.setSender t x).senders t' = .marking c := by
  have hne : t' ≠ t := fun heq => ht (heq ▸ ht')
  exact (senders_setSender_of_ne s hne x).trans ht'

namespace Delivered

theorem new : Bus.new.Delivered where
  numbered := fun i m h => absurd h (by simp [Bus.new])
  pushing := fun t m h => absurd h (by simp [Bus.new])
  order := fun t c => by simp [Bus.new, sentTo, arrived, onTheWay, Drain.message, message]
  marked := fun c h => absurd h (by simp [Bus.new])

theorem keep (h : s.Delivered) (hsent : s'.sent = s.sent)
    (hsenders : ∀ t, (s'.senders t).message = (s.senders t).message) (harrived : ∀ c, s'.arrived c = s.arrived c)
    (hmarked : ∀ c, (s'.inboxes c).queue ≠ [] → s'.Outstanding c) : s'.Delivered where
  numbered := hsent ▸ h.numbered
  pushing := fun t m hm => by
    refine h.pushing t m (eq_pushing ?_)
    rw [← hsenders t, hm]
    rfl
  order := fun t c => by
    simpa only [sentTo, onTheWay, hsent, hsenders, harrived] using h.order t c
  marked := hmarked

theorem keepCore (h : s.Delivered) (hsent : s'.sent = s.sent) (hsenders : s'.senders = s.senders)
    (hothers : ∀ c' ≠ c, s'.inboxes c' = s.inboxes c' ∧ s'.drains c' = s.drains c' ∧ s'.executed c' = s.executed c')
    (harrived : s'.arrived c = s.arrived c) (hout : (s'.inboxes c).queue ≠ [] → s'.Outstanding c) : s'.Delivered := by
  refine h.keep hsent (fun t => by rw [hsenders]) (fun c' => ?_) fun c' hq => ?_
  · by_cases hcc : c' = c
    · exact hcc ▸ harrived
    · obtain ⟨hinbox, hdrain, hexecuted⟩ := hothers c' hcc
      simp only [arrived, hinbox, hdrain, hexecuted]
  · by_cases hcc : c' = c
    · exact hcc ▸ hout (hcc ▸ hq)
    · obtain ⟨hinbox, hdrain, -⟩ := hothers c' hcc
      refine (h.marked c' (hinbox ▸ hq)).mono (fun hp => hinbox ▸ hp) (fun hd => hdrain ▸ hd) fun t ht => ?_
      exact hsenders ▸ ht

theorem keepDrain (h : s.Delivered) (hsent : s'.sent = s.sent) (hsenders : s'.senders = s.senders)
    (hinboxes : s'.inboxes = s.inboxes) (hexecuted : s'.executed = s.executed)
    (hdrains : ∀ c, (s'.drains c).message = (s.drains c).message ∧ (s.drains c ≠ .idle → s'.drains c ≠ .idle)) :
    s'.Delivered := by
  refine h.keep hsent (fun t => by rw [hsenders]) (fun c => ?_) fun c hq => ?_
  · simp only [arrived, hexecuted, hinboxes, (hdrains c).1]
  · rw [hinboxes] at hq
    exact (h.marked c hq).mono (fun hp => hinboxes ▸ hp) (hdrains c).2 fun t ht => hsenders ▸ ht

theorem drains_setDrain_keeps {d : Drain} (hmessage : d.message = (s.drains c).message) (hd : d ≠ .idle) (c' : Nat) :
    ((s.setDrain c d).drains c').message = (s.drains c').message ∧
      (s.drains c' ≠ .idle → (s.setDrain c d).drains c' ≠ .idle) := by
  by_cases hc : c' = c
  · subst hc
    simp [hmessage, hd]
  · simp [hc]

theorem senders_setSender_keeps {x : Sender} (hmessage : x.message = (s.senders t).message) (t' : Nat) :
    ((s.setSender t x).senders t').message = (s.senders t').message := by
  by_cases ht : t' = t
  · subst ht
    simp [hmessage]
  · simp [ht]

theorem request (h : s.Delivered) (hid : m.id = s.sent.length) (ht : s.senders m.sender = .idle) :
    (s.beginRequest m).Delivered where
  numbered := fun i m' hm => by
    rcases Nat.lt_or_ge i s.sent.length with hlt | hge
    · exact h.numbered i m' ((List.getElem?_append_left hlt).symm.trans hm)
    · obtain ⟨hi, heq⟩ := List.getElem?_eq_some_iff.mp hm
      simp only [beginRequest, List.length_append, List.length_singleton] at hi
      obtain rfl : i = s.sent.length := by omega
      simp [beginRequest] at hm
      rw [← hm, hid]
  pushing := fun t' m' hm => by
    by_cases htt : t' = m.sender
    · subst htt
      have hpush := (senders_setSender_self s m.sender (.pushing m)).symm.trans hm
      rw [pushing.inj hpush]
    · exact h.pushing t' m' ((senders_setSender_of_ne s htt _).symm.trans hm)
  order := fun t' c => by
    have horder := h.order t' c
    change (s.sent ++ [m]).filter _ = (s.arrived c).filter _ ++
      ((s.setSender m.sender (.pushing m)).senders t').message.filter _
    rw [List.filter_append]
    change s.sentTo t' c ++ _ = _
    rw [horder]
    by_cases htt : t' = m.sender
    · subst htt
      simp [onTheWay, ht, message, List.filter_cons]
    · simp [onTheWay, htt, Ne.symm htt]
  marked := fun c hq =>
    (h.marked c hq).mono (fun hp => hp) (fun hd => hd) fun _ => senders_setSender_of_marking (by simp [ht])

theorem arrived_push (s : Bus) (m : InboxMsg) (c : Nat) :
    ((s.setInbox m.target { s.inboxes m.target with queue := (s.inboxes m.target).queue ++ [m] }).setSender t
      (.marking m.target)).arrived c = s.arrived c ++ if m.target = c then [m] else [] := by
  by_cases hc : c = m.target
  · subst hc
    simp [arrived, setInbox, setSender]
  · simp [arrived, setInbox, setSender, hc, Ne.symm hc]

theorem push (h : s.Delivered) (ht : s.senders t = .pushing m) :
    ((s.setInbox m.target { s.inboxes m.target with queue := (s.inboxes m.target).queue ++ [m] }).setSender t
      (.marking m.target)).Delivered where
  numbered := h.numbered
  pushing := fun t' m' hm => by
    by_cases htt : t' = t
    · subst htt
      simp at hm
    · exact h.pushing t' m' ((senders_setSender_of_ne s htt _).symm.trans hm)
  order := fun t' c => by
    have hsender := h.pushing t m ht
    have harrived := arrived_push (t := t) s m c
    change s.sentTo t' c = _
    rw [h.order t' c, harrived, List.filter_append, List.append_assoc]
    congr 1
    by_cases htt : t' = t
    · subst htt
      by_cases hc : m.target = c <;> simp [onTheWay, ht, message, hsender, hc]
    · have hother : [m].filter (·.sender == t') = [] := by simp [hsender, Ne.symm htt]
      by_cases hc : m.target = c <;> simp [onTheWay, htt, hc, hother]
  marked := fun c hq => by
    by_cases hc : c = m.target
    · subst hc
      exact .inr (.inr ⟨t, by simp⟩)
    · simp only [inboxes_setSender, inboxes_setInbox_of_ne s hc] at hq
      refine (h.marked c hq).mono (fun hp => ?_) (fun hd => hd) fun _ => senders_setSender_of_marking (by simp [ht])
      simpa [hc] using hp

theorem arrived_markPending (s : Bus) (c c' : Nat) : (s.markPending c).arrived c' = s.arrived c' := by
  by_cases hc : c' = c
  · subst hc
    simp [arrived, markPending, setInbox]
  · simp [arrived, markPending, setInbox, hc]

theorem outstanding_markPending (h : s.Outstanding c') : (s.markPending c).Outstanding c' := by
  refine h.mono (fun hp => ?_) (fun hd => hd) fun _ ht => ht
  by_cases hc : c' = c
  · subst hc
    simp [markPending]
  · simpa [markPending, hc] using hp

theorem step (h : s.Delivered) (hs : s.step e = some s') : s'.Delivered := by
  cases transition_of_step hs with
  | request ht => exact h.request rfl ht
  | push ht => exact h.push ht
  | @mark t c ht =>
    refine h.keep rfl (senders_setSender_keeps (congrArg message ht).symm) (arrived_markPending s c) ?_
    intro c' hq
    by_cases hc : c' = c
    · subst hc
      exact .inl (by simp [markPending])
    · have hq' : (s.inboxes c').queue ≠ [] := by simpa [markPending, hc] using hq
      refine (outstanding_markPending (h.marked c' hq')).mono (fun hp => hp) (fun hd => hd) fun _ ht' => ?_
      refine senders_setSender_of_marking (fun hm => hc ?_) ht'
      exact (marking.inj (ht.symm.trans hm)).symm
  | signal ht =>
    refine h.keep rfl (senders_setSender_keeps (congrArg message ht).symm) (fun c => rfl) fun c hq => ?_
    exact (h.marked c hq).mono (fun hp => hp) (fun hd => hd) fun _ => senders_setSender_of_marking (by simp [ht])
  | @interrupt c =>
    refine h.keep rfl (fun _ => rfl) (arrived_markPending s c) fun c' hq => ?_
    refine outstanding_markPending (h.marked c' ?_)
    by_cases hc : c' = c
    · subst hc
      simpa [markPending] using hq
    · simpa [markPending, hc] using hq
  | drainNone => exact h
  | @popNone c hc hnil =>
    refine h.keepCore rfl rfl (fun c' hcc => ?_) ?_ fun hq => absurd hnil hq
    · simp [setDrain, hcc]
    · simp [arrived, setDrain, hc, Drain.message]
  | @drain c | @pop c | @run c =>
    refine h.keepCore (c := c) rfl rfl (fun c' hcc => ?_) ?_ fun _ => .inr (.inl (by simp))
    · simp [execute, setInbox, setDrain, hcc]
    · simp [arrived, execute, setInbox, setDrain, Drain.message, *]
  | store hc | finish hc | notify hc =>
    exact h.keepDrain rfl rfl rfl rfl (drains_setDrain_keeps (congrArg Drain.message hc).symm (by simp))
  | poll | load hf | register hf | recheck hf | read hf => exact h.keepDrain rfl rfl rfl rfl fun _ => ⟨rfl, fun hd => hd⟩

end Delivered
end Bus
end Ruos.Smp
