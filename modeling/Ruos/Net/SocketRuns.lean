import Ruos.Net.Sockets

/-! Which socket a call with the handle of a pool entry acts on, over the runs of `net/sockets.rs`, and reading with
`try_recv` over a stack that may go from any state to any other. -/
namespace Ruos.Net

open Lib

variable {T : Type}

namespace NetState

variable {s : NetState T}

/-- No Ethernet entry has the handle of this loopback entry. -/
def Unshared (s : NetState T) (e : SockEntry) : Prop :=
  e.ethernet = false → ∀ j e', s.pool.get j = some e' → e'.ethernet = true → e'.handle ≠ e.handle

def Wired (s : NetState T) (e : SockEntry) : SockOp → Prop
  | .connectStart _ _ => e.ethernet = true → s.ifaceNet = true ∨ s.ifaceNic = true
  | _ => True

/-- The call with the handle of the entry borrows the socket that was created for it, in the set it was created in. -/
def Reaches (s : NetState T) (e : SockEntry) (op : SockOp) : Prop :=
  ∃ iface p t, s.borrow e.handle op = some (iface, p, e.serial, t) ∧ p.ethernet = e.ethernet

theorem isEthernet_iff {h : Nat} :
    s.isEthernet h = true ↔ ∃ j e, s.pool.get j = some e ∧ e.ethernet = true ∧ e.handle = h := by
  simp only [isEthernet, List.any_eq_true, Option.any_eq_true, Bool.and_eq_true, beq_iff_eq]
  constructor
  · rintro ⟨o, ho, e, rfl, hh, he⟩
    obtain ⟨j, hj⟩ := Slab.mem_iff_exists_get.mp ho
    exact ⟨j, e, hj, he, hh⟩
  · rintro ⟨j, e, hj, he, hh⟩
    exact ⟨some e, Slab.mem_iff_exists_get.mpr ⟨j, hj⟩, e, rfl, hh, he⟩

variable {e : SockEntry}

theorem isEthernet_eq_iff {i : Nat} (he : s.pool.get i = some e) :
    s.isEthernet e.handle = e.ethernet ↔ s.Unshared e := by
  cases heth : e.ethernet with
  | true =>
    have hset : s.isEthernet e.handle = true := isEthernet_iff.mpr ⟨i, e, he, heth, rfl⟩
    simp [hset, Unshared, heth]
  | false =>
    rw [← Bool.not_eq_true, isEthernet_iff]
    constructor
    · exact fun h _ j e' he' heth' heq => h ⟨j, e', he', heth', heq⟩
    · rintro h ⟨j, e', he', heth', heq⟩
      exact h heth j e' he' heth' heq

theorem iface_isSome (hset : s.isEthernet e.handle = e.ethernet) (op : SockOp) :
    (∃ iface, s.iface e.handle op = some iface) ↔ s.Wired e op := by
  cases op with
  | connectStart remote localPort =>
    simp only [iface, hset, Wired, ethernetIface]
    cases e.ethernet <;> cases s.ifaceNet <;> simp
  | _ => simp [iface, Wired]

theorem Sound.reaches_iff (h : Sound [] s) {i : Nat} (he : s.pool.get i = some e) (op : SockOp) :
    s.Reaches e op ↔ s.Unshared e ∧ s.Wired e op := by
  rw [← isEthernet_eq_iff he]
  constructor
  · rintro ⟨iface, p, t, hb, hp⟩
    obtain ⟨hiface, rfl, -⟩ := borrow_eq_some.mp hb
    exact ⟨hp, (iface_isSome hp op).mp ⟨iface, hiface⟩⟩
  · rintro ⟨hset, hwired⟩
    obtain ⟨iface, hiface⟩ := (iface_isSome hset op).mpr hwired
    obtain ⟨t, ht⟩ := tcp_of_serialAt (h.entry i e he (by simp))
    exact ⟨iface, _, t, borrow_eq_some.mpr ⟨hiface, rfl, by rw [hset]; exact ht⟩, hset⟩

/-- A call with the handle of a pool entry acts on the socket that was created for the entry, in the set it was created
in, iff the handle is not also that of an Ethernet entry while the entry is a loopback one, and a connection over
Ethernet has a wired interface. -/
theorem operations_reach_own_socket [TcpSocket T] {virtio nic netconsole : Bool} {es : List (SockStep T)}
    (hrun : exec step (init virtio nic netconsole) es = some s) {i : Nat} {e : SockEntry} (he : s.pool.get i = some e)
    (op : SockOp) : s.Reaches e op ↔ s.Unshared e ∧ s.Wired e op := by
  have h : Sound [] s := exec_preserves (fun _ _ _ h => h.step) (sound_init virtio nic netconsole) hrun
  exact h.reaches_iff he op

end NetState

/-- A socket of which only the state is known. -/
instance State.tcpSocket : TcpSocket State where
  new := .closed
  state := id
  listen t _ := if t = .closed then (true, .listen) else (false, t)
  connect t _ _ _ := if t = .closed then (true, .synSent) else (false, t)
  canRecv _ := false
  canSend t := t = .established ∨ t = .closeWait
  recvSlice t _ := (none, t)
  sendSlice t _ := (none, t)
  close
    | .listen | .synSent => .closed
    | .synReceived | .established => .finWait1
    | .closeWait => .lastAck
    | t => t

namespace NetState

/-- With a wired card, a listener on the Ethernet side and three sockets on the loopback side. -/
def fourSockets : List (SockStep State) := [.alloc true, .alloc false, .alloc false, .alloc false]

theorem reaches_own_socket_of_listener :
    ∃ s e, exec step (init true false false) fourSockets = some s ∧ s.pool.get 0 = some e ∧
      s.Reaches e (.listen 22) := by
  refine ⟨_, ⟨2, true, false, 0⟩, rfl, rfl, ?_⟩
  refine (@operations_reach_own_socket State _ _ true false false fourSockets rfl 0 _ rfl (.listen 22)).mpr ?_
  exact ⟨fun h => absurd h (by decide), trivial⟩

/-- The third loopback socket has the handle of the Ethernet listener, which its `listen` then acts on. -/
theorem listen_acts_on_other_socket :
    ∃ s e, exec step (init true false false) fourSockets = some s ∧ s.pool.get 3 = some e ∧ e.ethernet = false ∧
      ¬ s.Reaches e (.listen 8080) ∧
      ∃ x, s.perform e.handle (.listen 8080) = some x ∧ x.2.tcp ⟨true, 2⟩ = some (0, .listen) ∧
        x.2.tcp ⟨false, 2⟩ = some (3, .closed) := by
  refine ⟨_, ⟨2, false, false, 3⟩, rfl, rfl, rfl, ?_, _, rfl, rfl, rfl⟩
  rintro ⟨iface, p, t, hb, -⟩
  have hserial : some (0 : Nat) = some 3 := congrArg (Option.map fun x : Iface × Place × Nat × State => x.2.2.1) hb
  exact absurd hserial (by decide)
end NetState

open TcpSocket

/-- A socket with its receive buffer, all bytes that arrived and all that were read. -/
structure Stream where
  state : State
  rx : List UInt8
  arrived : List UInt8
  received : List UInt8

namespace Stream

def new (state : State) : Stream := ⟨state, [], [], []⟩

def goto (s : Stream) (state : State) : Stream := { s with state := state }

/-- Buffered data is reported in every state. -/
instance tcpSocket : TcpSocket Stream where
  new := new .closed
  state := state
  listen s port := (TcpSocket.listen s.state port).map id s.goto
  connect s iface remote port := (TcpSocket.connect s.state iface remote port).map id s.goto
  canRecv s := !s.rx.isEmpty
  canSend s := TcpSocket.canSend s.state
  recvSlice s len := (some (s.rx.take len), { s with rx := s.rx.drop len, received := s.received ++ s.rx.take len })
  sendSlice s _ := (none, s)
  close s := s.goto (TcpSocket.close s.state)

inductive Event
  | arrive (bytes : List UInt8)
  | goto (state : State)
  | tryRecv (len : Nat)

/-- Data is taken as long as the peer has not closed its side. -/
def step (s : Stream) : Event → Option Stream
  | .arrive bytes =>
    if s.state ∈ [.synReceived, .established, .finWait1, .finWait2] then
      some { s with rx := s.rx ++ bytes, arrived := s.arrived ++ bytes }
    else none
  | .goto state => some (s.goto state)
  | .tryRecv len => some (tryRecv len s).2

variable {s s' : Stream} {e : Event} {len : Nat}

/-- The three ways in which a call ends. -/
theorem tryRecv_cases (s : Stream) (len : Nat) : tryRecv len s = (some [], s) ∨ s.rx = [] ∧ tryRecv len s = (none, s) ∨
    s.rx ≠ [] ∧ (0 < len → (tryRecv len s).1 = some (s.rx.take len)) ∧
      (tryRecv len s).2 = { s with rx := s.rx.drop len, received := s.received ++ s.rx.take len } := by
  unfold tryRecv
  split_ifs with hclosed hrecv
  · exact .inl rfl
  · have hrx : s.rx ≠ [] := by simpa [canRecv] using hrecv
    refine .inr (.inr ⟨hrx, fun hlen => ?_, ?_⟩)
    · have hne : s.rx.take len ≠ [] := by simp [hrx, Nat.ne_of_gt hlen]
      obtain ⟨x, xs, heq⟩ := List.exists_cons_of_ne_nil hne
      simp only [recvSlice, heq]
    · cases h : s.rx.take len <;> simp only [recvSlice, h]
  · exact .inr (.inl ⟨by simpa [canRecv] using hrecv, rfl⟩)

def InOrder (s : Stream) : Prop := s.arrived = s.received ++ s.rx

theorem InOrder.step (h : s.InOrder) (hs : s.step e = some s') : s'.InOrder := by
  cases e <;> simp only [Stream.step] at hs
  case arrive bytes =>
    split_ifs at hs
    cases hs
    simp only [InOrder]
    rw [h, List.append_assoc]
  case goto =>
    cases hs
    exact h
  case tryRecv len =>
    cases hs
    obtain heq | ⟨-, heq⟩ | ⟨-, -, heq⟩ := s.tryRecv_cases len
    · rwa [heq]
    · rwa [heq]
    · rw [heq]
      simpa [InOrder] using h

end Stream
end Ruos.Net
