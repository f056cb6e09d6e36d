import Ruos.Lib.Run
import Ruos.Lib.Slab

/-! The socket pool of `net/sockets.rs` over the two socket sets of `NetState`, and where the sockets of its entries are.
A TCP socket of smoltcp is any type with the operations that the pool calls; `none` as a result is a panic. -/
namespace Ruos.Net

open Lib

inductive State
  | closed | listen | synSent | synReceived | established | finWait1 | finWait2 | closeWait | closing | lastAck | timeWait
deriving DecidableEq

/-- The interface whose context `connect` is given. -/
inductive Iface
  | lo | net | nic
deriving DecidableEq

structure Endpoint where
  addr : BitVec 32
  port : BitVec 16
deriving DecidableEq

class TcpSocket (T : Type) where
  new : T
  state : T → State
  /-- The first component says whether the call succeeds; likewise below. -/
  listen : T → BitVec 16 → Bool × T
  connect : T → Iface → Endpoint → BitVec 16 → Bool × T
  canRecv : T → Bool
  canSend : T → Bool
  recvSlice : T → Nat → Option (List UInt8) × T
  sendSlice : T → List UInt8 → Option Nat × T
  close : T → T

/-- The second kind stands for the DNS, DHCP, ICMP and UDP sockets. A TCP socket has a serial number, which is not in
the code. -/
inductive Socket (T : Type)
  | tcp (serial : Nat) (t : T)
  | other
deriving DecidableEq

/-- The serial number of the socket that was created for the entry is not in the code. -/
structure SockEntry where
  handle : Nat
  ethernet : Bool
  closing : Bool
  serial : Nat
deriving DecidableEq

structure Place where
  ethernet : Bool
  handle : Nat
deriving DecidableEq

/-- The sets are `sockets` and, for `true`, `net_sockets`. The first two fields tell which of `iface_net` and `iface_nic`
there is; `next` is the next serial number. -/
structure NetState (T : Type) where
  ifaceNet : Bool
  ifaceNic : Bool
  sockets : Bool → Slab (Socket T)
  pool : Slab SockEntry
  next : Nat

inductive SockOp
  | listen (port : BitVec 16)
  | connectStart (remote : Endpoint) (localPort : BitVec 16)
  | stateOf
  | tryRecv (len : Nat)
  | trySend (buf : List UInt8)
  | close
  /-- One round of `recv`. -/
  | recv (len : Nat)
  /-- One round of `send`. -/
  | send (buf : List UInt8)
deriving DecidableEq

inductive Reply
  | done (result : Except String Unit)
  | state (code : Nat)
  | received (bytes : Option (List UInt8))
  | sent (n : Option Nat)

section

variable {T : Type} [TcpSocket T]

open TcpSocket (state canRecv canSend recvSlice sendSlice)

def stateOf (t : T) : Nat :=
  match state t with
  | .established => 1
  | .closed | .timeWait | .closeWait => 2
  | _ => 0

def tryRecv (len : Nat) (t : T) : Option (List UInt8) × T :=
  if state t = .closeWait ∨ state t = .closed ∨ state t = .timeWait then (some [], t)
  else if canRecv t then
    match recvSlice t len with
    | (some [], t') => (none, t')
    | (some bytes, t') => (some bytes, t')
    | (none, t') => (none, t')
  else (none, t)

def trySend (buf : List UInt8) (t : T) : Option Nat × T :=
  if canSend t then sendSlice t buf
  else if state t = .closed ∨ state t = .timeWait then (some 0, t)
  else (none, t)

def recv (len : Nat) (t : T) : Option (List UInt8) × T :=
  if canRecv t then ((recvSlice t len).1.filter fun bytes => !bytes.isEmpty, (recvSlice t len).2) else (none, t)

def send (buf : List UInt8) (t : T) : Option Nat × T :=
  if canSend t then ((sendSlice t buf).1.filter (0 < ·), (sendSlice t buf).2) else (none, t)

def check (text : String) (ok : Bool) : Except String Unit := if ok then .ok () else .error text

def SockOp.act (iface : Iface) : SockOp → T → Reply × T
  | .listen port, t => ((TcpSocket.listen t port).map (fun ok => .done (check "listen failed" ok)) id)
  | .connectStart remote localPort, t =>
    ((TcpSocket.connect t iface remote localPort).map (fun ok => .done (check "connect failed" ok)) id)
  | .stateOf, t => (.state (Net.stateOf t), t)
  | .tryRecv len, t => (Net.tryRecv len t).map .received id
  | .trySend buf, t => (Net.trySend buf t).map .sent id
  | .close, t => (.done (.ok ()), TcpSocket.close t)
  | .recv len, t => (Net.recv len t).map .received id
  | .send buf, t => (Net.send buf t).map .sent id

end

namespace NetState

variable {T : Type}

def socketAt (s : NetState T) (p : Place) : Option (Socket T) := (s.sockets p.ethernet).get p.handle

/-- `get` of a socket set at the type of TCP sockets. -/
def tcp (s : NetState T) (p : Place) : Option (Nat × T) :=
  match s.socketAt p with
  | some (.tcp n t) => some (n, t)
  | _ => none

def setSocket (s : NetState T) (p : Place) (o : Option (Socket T)) : NetState T :=
  { s with sockets := Function.update s.sockets p.ethernet ((s.sockets p.ethernet).set p.handle o) }

def setEntry (s : NetState T) (idx : Nat) (e : SockEntry) : NetState T := { s with pool := s.pool.set idx (some e) }

def isEthernet (s : NetState T) (h : Nat) : Bool := s.pool.any fun o => o.any fun e => e.handle == h && e.ethernet

def handle (s : NetState T) (idx : Nat) : Option Nat := (s.pool.get idx).map (·.handle)

def ethernetIface (s : NetState T) : Option Iface := if s.ifaceNet then some .net else if s.ifaceNic then some .nic else none

/-- The interface for which a call borrows a socket; only `connect_start` looks at it, and for an Ethernet socket it
insists on one. -/
def iface (s : NetState T) (h : Nat) : SockOp → Option Iface
  | .connectStart _ _ => if s.isEthernet h then s.ethernetIface else some .lo
  | _ => some .lo

/-- The socket that a call with this handle borrows: `tcp_get_mut`, and the same choice in `connect_start`. -/
def borrow (s : NetState T) (h : Nat) (op : SockOp) : Option (Iface × Place × Nat × T) := do
  let iface ← s.iface h op
  let x ← s.tcp ⟨s.isEthernet h, h⟩
  some (iface, ⟨s.isEthernet h, h⟩, x)

section

variable [TcpSocket T]

def perform (s : NetState T) (h : Nat) (op : SockOp) : Option (Reply × NetState T) :=
  (s.borrow h op).map fun (iface, p, n, t) => ((op.act iface t).1, s.setSocket p (some (.tcp n (op.act iface t).2)))

/-- The entries that `reclaim` looks at. -/
def candidates (s : NetState T) : List (Nat × SockEntry) := s.pool.entries.filter (·.2.closing)

/-- The loop of `reclaim` over the candidates, with the entries found dead so far. -/
def reap (s : NetState T) : List (Nat × SockEntry) → List Nat → Option (NetState T × List Nat)
  | [], dead => some (s, dead)
  | (i, e) :: rest, dead =>
    match s.tcp ⟨e.ethernet, e.handle⟩ with
    | none => none
    | some (_, t) =>
      if TcpSocket.state t = .closed then reap (s.setSocket ⟨e.ethernet, e.handle⟩ none) rest (dead ++ [i])
      else reap s rest dead

def reclaim (s : NetState T) : Option (NetState T) :=
  (s.reap s.candidates []).map fun x => { x.1 with pool := x.1.pool.clear x.2 }

def add (s : NetState T) (ethernet : Bool) (x : Socket T) : Nat × NetState T :=
  (((s.sockets ethernet).insert x).1,
    { s with sockets := Function.update s.sockets ethernet ((s.sockets ethernet).insert x).2 })

def enter (s : NetState T) (e : SockEntry) : Nat × NetState T :=
  ((s.pool.insert e).1, { s with pool := (s.pool.insert e).2, next := s.next + 1 })

/-- `alloc_tcp` and, for `true`, `alloc_tcp_eth`. -/
def allocTcpIn (s : NetState T) (ethernet : Bool) : Option (Nat × NetState T) :=
  s.reclaim.map fun s =>
    (s.add ethernet (.tcp s.next TcpSocket.new)).2.enter
      ⟨(s.add ethernet (.tcp s.next TcpSocket.new)).1, ethernet, false, s.next⟩

def release (s : NetState T) (idx : Nat) : Option (NetState T) :=
  match s.pool.get idx with
  | none => some s
  | some e => ((s.setEntry idx { e with closing := true }).perform e.handle .close).map (·.2)

end

/-- `net::init`, by which of the network cards are found and whether the `netconsole` feature is on. -/
def init (virtio nic netconsole : Bool) : NetState T where
  ifaceNet := virtio
  ifaceNic := !virtio && nic
  sockets := fun ethernet =>
    if ethernet then
      some .other :: ((if virtio || nic then [some .other] else []) ++ (if netconsole then [some .other] else []))
    else []
  pool := []
  next := 0

end NetState

inductive SockStep (T : Type)
  | alloc (ethernet : Bool)
  | release (idx : Nat)
  | operate (h : Nat) (op : SockOp)
  /-- `net::poll` changes the TCP sockets of both sets. -/
  | poll (f : Place → T → T)
  /-- Another kind of socket is added to the Ethernet set. -/
  | addOther
  /-- Such a socket is removed by the code that added it. -/
  | removeOther (h : Nat)

def Socket.poll {T : Type} (f : T → T) : Socket T → Socket T
  | .tcp n t => .tcp n (f t)
  | .other => .other

namespace NetState

variable {T : Type} [TcpSocket T]

def step (s : NetState T) : SockStep T → Option (NetState T)
  | .alloc ethernet => (s.allocTcpIn ethernet).map (·.2)
  | .release idx => s.release idx
  | .operate h op => (s.perform h op).map (·.2)
  | .poll f =>
    some { s with sockets := fun ethernet =>
      (s.sockets ethernet).mapIdx fun h o => o.map (Socket.poll (f ⟨ethernet, h⟩)) }
  | .addOther => some (s.add true .other).2
  | .removeOther h =>
    match s.socketAt ⟨true, h⟩ with
    | some .other => some (s.setSocket ⟨true, h⟩ none)
    | _ => none
end NetState

open Function List Option Slab Socket

variable {T : Type}

def SockEntry.place (e : SockEntry) : Place := ⟨e.ethernet, e.handle⟩

def Socket.serial : Socket T → Option Nat
  | .tcp n _ => some n
  | .other => none

theorem Socket.serial_poll (f : T → T) (x : Socket T) : (x.poll f).serial = x.serial := by
  cases x <;> rfl

namespace NetState

variable {s s' : NetState T} {p q : Place} {dead : List Nat}

def serialAt (s : NetState T) (p : Place) : Option Nat := (s.socketAt p).bind Socket.serial

theorem tcp_eq_some {n : Nat} {t : T} : s.tcp p = some (n, t) ↔ s.socketAt p = some (.tcp n t) := by
  unfold tcp
  split <;> simp_all

theorem tcp_of_serialAt {n : Nat} (h : s.serialAt p = some n) : ∃ t, s.tcp p = some (n, t) := by
  simp only [tcp_eq_some]
  obtain ⟨x, hx, hn⟩ := bind_eq_some_iff.mp h
  cases x with
  | tcp m t => exact ⟨t, some.inj hn ▸ hx⟩
  | other => cases hn

variable {x : Socket T}

theorem socketAt_setSocket (hp : s.socketAt p = some x) (o : Option (Socket T)) (q : Place) :
    (s.setSocket p o).socketAt q = if q = p then o else s.socketAt q := by
  have hlt := lt_length_of_get hp
  by_cases hset : q.ethernet = p.ethernet
  · simp only [socketAt, setSocket, hset, update_self, get_set hlt]
    by_cases hh : q.handle = p.handle
    · rw [if_pos hh, if_pos (by cases p; cases q; simp_all)]
    · rw [if_neg hh, if_neg fun heq => hh (by rw [heq])]
  · simp only [socketAt, setSocket, update_of_ne hset]
    rw [if_neg fun heq => hset (by rw [heq])]

theorem socketAt_add_self (s : NetState T) (ethernet : Bool) (x : Socket T) :
    (s.add ethernet x).2.socketAt ⟨ethernet, (s.add ethernet x).1⟩ = some x := by
  simp [socketAt, add, get_insert]

theorem socketAt_add_of_ne {ethernet : Bool} (hq : q ≠ ⟨ethernet, (s.add ethernet x).1⟩) :
    (s.add ethernet x).2.socketAt q = s.socketAt q := by
  by_cases hset : q.ethernet = ethernet
  · subst hset
    have hh : q.handle ≠ ((s.sockets q.ethernet).insert x).1 := fun heq => hq (by rw [add, ← heq])
    simp [socketAt, add, get_insert, hh]
  · simp [socketAt, add, update_of_ne hset]

theorem socketAt_of_add (s : NetState T) (ethernet : Bool) (x : Socket T) :
    s.socketAt ⟨ethernet, (s.add ethernet x).1⟩ = none := Slab.get_insert_fst _ _

/-- Every entry but the dead ones has its own socket in the set it was created in. -/
structure Sound (dead : List Nat) (s : NetState T) : Prop where
  entry : ∀ i e, s.pool.get i = some e → i ∉ dead → s.serialAt e.place = some e.serial
  unique : ∀ i j e e', s.pool.get i = some e → s.pool.get j = some e' → e.serial = e'.serial → i = j
  fresh : ∀ i e, s.pool.get i = some e → e.serial < s.next
  bound : ∀ p n, s.serialAt p = some n → n < s.next
  serials : ∀ p q n, s.serialAt p = some n → s.serialAt q = some n → p = q

theorem sound_init (virtio nic netconsole : Bool) : Sound [] (init virtio nic netconsole : NetState T) := by
  have hserial : ∀ p, (init virtio nic netconsole : NetState T).serialAt p = none := by
    rintro ⟨ethernet, h⟩
    cases hx : (init virtio nic netconsole).socketAt ⟨ethernet, h⟩ with
    | none => rw [serialAt, hx]; rfl
    | some x =>
      have hmem : some x ∈ (init virtio nic netconsole : NetState T).sockets ethernet :=
        mem_iff_exists_get.mpr ⟨h, hx⟩
      have hother : x = .other := by
        cases ethernet <;> cases virtio <;> cases nic <;> cases netconsole <;> simp_all [init]
      rw [serialAt, hx, hother]
      rfl
  have hpool : ∀ i, (init virtio nic netconsole : NetState T).pool.get i = none := fun i => rfl
  exact ⟨by simp [hpool], by simp [hpool], by simp [hpool], by simp [hserial], by simp [hserial]⟩

theorem Sound.congr (h : Sound dead s) (hserial : ∀ p, s'.serialAt p = s.serialAt p)
    (hpool : ∀ i e', s'.pool.get i = some e' → ∃ e, s.pool.get i = some e ∧ e'.place = e.place ∧ e'.serial = e.serial)
    (hnext : s'.next = s.next) : Sound dead s' where
  entry := fun i e' he' hi => by
    obtain ⟨e, he, hplace, heq⟩ := hpool i e' he'
    rw [hserial, hplace, heq]
    exact h.entry i e he hi
  unique := fun i j e₁ e₂ h₁ h₂ heq => by
    obtain ⟨e, he, -, hse⟩ := hpool i e₁ h₁
    obtain ⟨e', he', -, hse'⟩ := hpool j e₂ h₂
    exact h.unique i j e e' he he' (by rw [← hse, ← hse', heq])
  fresh := fun i e' he' => by
    obtain ⟨e, he, -, heq⟩ := hpool i e' he'
    rw [heq, hnext]
    exact h.fresh i e he
  bound := fun p n hn => by
    rw [hnext]
    exact h.bound p n ((hserial p).symm.trans hn)
  serials := fun p q n hp hq => h.serials p q n ((hserial p).symm.trans hp) ((hserial q).symm.trans hq)

theorem Sound.place_ne (h : Sound dead s) {i j : Nat} {e e' : SockEntry} (hi : s.pool.get i = some e)
    (hj : s.pool.get j = some e') (hid : i ∉ dead) (hjd : j ∉ dead) (hne : i ≠ j) : e.place ≠ e'.place := by
  intro heq
  have hserial := h.entry i e hi hid
  rw [heq, h.entry j e' hj hjd] at hserial
  exact hne (h.unique i j e e' hi hj (some.inj hserial).symm)

theorem serialAt_setSocket (hp : s.socketAt p = some x) (o : Option (Socket T)) (q : Place) :
    (s.setSocket p o).serialAt q = if q = p then o.bind Socket.serial else s.serialAt q := by
  unfold serialAt
  rw [socketAt_setSocket hp]
  split_ifs <;> rfl

theorem Sound.setSocket (h : Sound dead s) {x y : Socket T} (hp : s.socketAt p = some x) (hserial : y.serial = x.serial) :
    Sound dead (s.setSocket p (some y)) := by
  refine h.congr (fun q => ?_) (fun i e he => ⟨e, he, rfl, rfl⟩) rfl
  rw [serialAt_setSocket hp]
  split_ifs with hq
  · rw [hq, bind_some, hserial, serialAt, hp, bind_some]
  · rfl

theorem Sound.bury (h : Sound dead s) {i : Nat} {e : SockEntry} (he : s.pool.get i = some e) (hi : i ∉ dead) :
    Sound (dead ++ [i]) (s.setSocket e.place none) := by
  obtain ⟨t, ht⟩ := tcp_of_serialAt (h.entry i e he hi)
  have hserial := serialAt_setSocket (tcp_eq_some.mp ht) none
  have hmono : ∀ q n, (s.setSocket e.place none).serialAt q = some n → s.serialAt q = some n := by
    intro q n hq
    rw [hserial] at hq
    split_ifs at hq with heq
    · cases hq
    · exact hq
  refine ⟨fun j e' he' hj => ?_, h.unique, h.fresh, fun q n hq => h.bound q n (hmono q n hq),
    fun q r n hq hr => h.serials q r n (hmono q n hq) (hmono r n hr)⟩
  obtain ⟨hjd, hji⟩ : j ∉ dead ∧ j ≠ i := by simpa using hj
  rw [hserial, if_neg (h.place_ne he' he hjd hi hji)]
  exact h.entry j e' he' hjd

theorem Sound.grow (h : Sound [] s) {e : SockEntry} {idx : Nat} (hnew : e.serial = s.next)
    (hplace : s.serialAt e.place = none) (hserial : ∀ q, s'.serialAt q = if q = e.place then some e.serial else s.serialAt q)
    (hpool : ∀ i, s'.pool.get i = if i = idx then some e else s.pool.get i) (hnext : s'.next = s.next + 1) :
    Sound [] s' := by
  have hentry : ∀ i e', s'.pool.get i = some e' → (i = idx ∧ e' = e) ∨ s.pool.get i = some e' := by
    intro i e' he'
    rw [hpool] at he'
    split_ifs at he' with hi
    · exact .inl ⟨hi, (some.inj he').symm⟩
    · exact .inr he'
  have hat : ∀ q n, s'.serialAt q = some n → (q = e.place ∧ n = s.next) ∨ s.serialAt q = some n := by
    intro q n hn
    rw [hserial] at hn
    split_ifs at hn with hq
    · exact .inl ⟨hq, (some.inj hn).symm.trans hnew⟩
    · exact .inr hn
  refine ⟨fun i e' he' _ => ?_, fun i j e₁ e₂ h₁ h₂ heq => ?_, fun i e' he' => ?_, fun q n hn => ?_,
    fun q r n hq hr => ?_⟩
  · rw [hserial]
    rcases hentry i e' he' with ⟨-, rfl⟩ | hold
    · rw [if_pos rfl]
    · have hown := h.entry i e' hold (by simp)
      rw [if_neg fun heq => by simp [heq, hplace] at hown, hown]
  · rcases hentry i e₁ h₁ with ⟨rfl, rfl⟩ | hi <;> rcases hentry j e₂ h₂ with ⟨rfl, rfl⟩ | hj
    · rfl
    · exact absurd (h.fresh j e₂ hj) (by rw [← heq, hnew]; exact lt_irrefl _)
    · exact absurd (h.fresh i e₁ hi) (by rw [heq, hnew]; exact lt_irrefl _)
    · exact h.unique i j e₁ e₂ hi hj heq
  · rw [hnext]
    rcases hentry i e' he' with ⟨-, rfl⟩ | hold
    · exact hnew ▸ Nat.lt_succ_self _
    · exact Nat.lt_succ_of_lt (h.fresh i e' hold)
  · rw [hnext]
    rcases hat q n hn with ⟨-, rfl⟩ | hold
    · exact Nat.lt_succ_self _
    · exact Nat.lt_succ_of_lt (h.bound q n hold)
  · rcases hat q n hq with ⟨rfl, rfl⟩ | hq <;> rcases hat r _ hr with ⟨rfl, hn⟩ | hr
    · rfl
    · exact absurd (h.bound r _ hr) (lt_irrefl _)
    · exact absurd (h.bound q n hq) (hn ▸ lt_irrefl _)
    · exact h.serials q r n hq hr

theorem Sound.enter (h : Sound [] s) (ethernet : Bool) (t : T) : Sound [] ((s.add ethernet (.tcp s.next t)).2.enter
      ⟨(s.add ethernet (.tcp s.next t)).1, ethernet, false, s.next⟩).2 := by
  refine h.grow rfl ?_ (fun q => ?_) (fun i => get_insert s.pool _ i) rfl
  · exact congrArg (Option.bind · serial) (socketAt_of_add s ethernet _)
  · split_ifs with hq
    · rw [hq]
      exact congrArg (Option.bind · serial) (socketAt_add_self s ethernet _)
    · exact congrArg (Option.bind · serial) (socketAt_add_of_ne hq)

theorem Sound.poll (h : Sound [] s) (f : Place → T → T) : Sound [] { s with
    sockets := fun ethernet => (s.sockets ethernet).mapIdx fun k o => o.map (Socket.poll (f ⟨ethernet, k⟩)) } := by
  refine h.congr (fun q => ?_) (fun i e he => ⟨e, he, rfl, rfl⟩) rfl
  unfold serialAt socketAt
  rw [get_mapIdx fun k => Socket.poll (f ⟨q.ethernet, k⟩)]
  cases (s.sockets q.ethernet).get q.handle with
  | none => rfl
  | some x => exact Socket.serial_poll _ x

theorem borrow_eq_some {h : Nat} {op : SockOp} {iface : Iface} {n : Nat} {t : T} :
    s.borrow h op = some (iface, p, n, t) ↔
      s.iface h op = some iface ∧ p = ⟨s.isEthernet h, h⟩ ∧ s.tcp ⟨s.isEthernet h, h⟩ = some (n, t) := by
  unfold borrow
  cases s.iface h op with
  | none => simp
  | some i =>
    cases s.tcp ⟨s.isEthernet h, h⟩ with
    | none => simp
    | some x => simp [Prod.ext_iff, eq_comm]

variable [TcpSocket T]

theorem Sound.reap (cs : List (Nat × SockEntry)) (h : Sound dead s) (hcs : ∀ c ∈ cs, s.pool.get c.1 = some c.2)
    (hdead : ∀ c ∈ cs, c.1 ∉ dead) (hne : cs.Pairwise fun a b => a.1 ≠ b.1) :
    ∃ x, s.reap cs dead = some x ∧ Sound x.2 x.1 := by
  induction cs generalizing s dead with
  | nil => exact ⟨(s, dead), rfl, h⟩
  | cons c cs ih =>
    obtain ⟨i, e⟩ := c
    obtain ⟨hhead, htail⟩ := pairwise_cons.mp hne
    have he := hcs (i, e) mem_cons_self
    have hi := hdead (i, e) mem_cons_self
    have hcs' : ∀ c ∈ cs, s.pool.get c.1 = some c.2 := fun c hc => hcs c (mem_cons_of_mem _ hc)
    have hdead' : ∀ c ∈ cs, c.1 ∉ dead := fun c hc => hdead c (mem_cons_of_mem _ hc)
    obtain ⟨t, ht⟩ := tcp_of_serialAt (h.entry i e he hi)
    have ht' : s.tcp ⟨e.ethernet, e.handle⟩ = some (e.serial, t) := ht
    simp only [reap, ht']
    split_ifs
    · refine ih (h.bury he hi) hcs' (fun c hc => ?_) htail
      simpa using ⟨hdead' c hc, (hhead c hc).symm⟩
    · exact ih h hcs' hdead' htail

theorem Sound.reclaim (h : Sound [] s) : ∃ s', s.reclaim = some s' ∧ Sound [] s' := by
  have hmem : ∀ c ∈ s.candidates, s.pool.get c.1 = some c.2 := fun c hc =>
    get_of_mem_entries (mem_of_mem_filter hc)
  obtain ⟨x, hx, hsound⟩ := h.reap s.candidates hmem (by simp) ((pairwise_entries s.pool).filter _)
  refine ⟨_, by rw [NetState.reclaim, hx]; rfl, ?_⟩
  have hget : ∀ i e, (x.1.pool.clear x.2).get i = some e → x.1.pool.get i = some e ∧ i ∉ x.2 := by
    intro i e he
    rw [get_clear] at he
    split_ifs at he with hi
    exact ⟨he, hi⟩
  refine ⟨fun i e he _ => ?_, fun i j e e' he he' => ?_, fun i e he => ?_, hsound.bound, hsound.serials⟩
  · obtain ⟨hold, hi⟩ := hget i e he
    exact hsound.entry i e hold hi
  · exact hsound.unique i j e e' (hget i e he).1 (hget j e' he').1
  · exact hsound.fresh i e (hget i e he).1

theorem Sound.alloc (h : Sound [] s) (ethernet : Bool) : ∃ x, s.allocTcpIn ethernet = some x ∧ Sound [] x.2 := by
  obtain ⟨s', hs', hsound⟩ := h.reclaim
  exact ⟨_, by rw [allocTcpIn, hs']; rfl, hsound.enter ethernet _⟩

theorem Sound.perform (h : Sound dead s) {k : Nat} {op : SockOp} {x : Reply × NetState T}
    (hs : s.perform k op = some x) : Sound dead x.2 := by
  obtain ⟨⟨iface, p, n, t⟩, hb, rfl⟩ := map_eq_some_iff.mp hs
  obtain ⟨-, rfl, ht⟩ := borrow_eq_some.mp hb
  exact h.setSocket (tcp_eq_some.mp ht) rfl

theorem Sound.release (h : Sound [] s) {idx : Nat} (hs : s.release idx = some s') : Sound [] s' := by
  unfold NetState.release at hs
  cases he : s.pool.get idx with
  | none =>
    rw [he] at hs
    exact some.inj hs ▸ h
  | some e =>
    rw [he] at hs
    obtain ⟨x, hx, rfl⟩ := map_eq_some_iff.mp hs
    have hclosing : Sound [] (s.setEntry idx { e with closing := true }) := by
      refine h.congr (fun q => rfl) (fun i e' he' => ?_) rfl
      rw [setEntry, get_set (lt_length_of_get he)] at he'
      split_ifs at he' with hi
      · exact ⟨e, hi ▸ he, by rw [← some.inj he']; exact ⟨rfl, rfl⟩⟩
      · exact ⟨e', he', rfl, rfl⟩
    exact hclosing.perform hx

theorem Sound.step (h : Sound [] s) {e : SockStep T} (hs : s.step e = some s') : Sound [] s' := by
  cases e with
  | alloc ethernet =>
    obtain ⟨x, hx, hsound⟩ := h.alloc ethernet
    rw [NetState.step, hx] at hs
    exact some.inj hs ▸ hsound
  | release idx => exact h.release hs
  | operate k op =>
    obtain ⟨x, hx, rfl⟩ := map_eq_some_iff.mp hs
    exact h.perform hx
  | poll f => exact some.inj hs ▸ h.poll f
  | addOther =>
    refine some.inj hs ▸ h.congr (fun q => ?_) (fun i e he => ⟨e, he, rfl, rfl⟩) rfl
    unfold serialAt
    by_cases hq : q = ⟨true, (s.add true .other).1⟩
    · rw [hq, socketAt_add_self, socketAt_of_add]
      rfl
    · rw [socketAt_add_of_ne hq]
  | removeOther k =>
    simp only [NetState.step] at hs
    split at hs
    · rename_i hother
      refine some.inj hs ▸ h.congr (fun q => ?_) (fun i e he => ⟨e, he, rfl, rfl⟩) rfl
      rw [serialAt_setSocket hother]
      split_ifs with hq
      · rw [hq, serialAt, hother]
        rfl
      · rfl
    · cases hs

end NetState
end Ruos.Net
