import Petra.Base.Run
import Petra.Kernel

/-! # The peer of a UDP socket

The endpoint that a send without an address goes to is written by `connect` and by every receive.
-/

namespace Petra.Net

open Base Option Errno

structure IpEndpoint where
  addr : Nat
  port : Nat
  deriving DecidableEq

inductive SocketAddress
  | inet (ep : IpEndpoint)
  | unix (path : String)
  | netlink (pid groups : Nat)

def SocketAddress.asInet : SocketAddress → Option IpEndpoint
  | .inet ep => some ep
  | .unix _ | .netlink .. => none

/-- A datagram, with the endpoint at its other end. -/
structure Datagram where
  endpoint : IpEndpoint
  data : List UInt8
  deriving DecidableEq

/-- What the stack answers during a call: whether it knows the handle, whether an ephemeral port
can be bound, whether there is room to send and the packet is taken, and what `poll` brings. -/
structure NetAnswer where
  found : Bool := true
  binds : Bool := true
  canSend : Bool := true
  sends : Bool := true
  polled : List Datagram := []

structure UdpSocket where
  isOpen : Bool := false
  nonblocking : Bool := false
  remoteEndpoint : Option IpEndpoint := none
  rx : List Datagram := []
  tx : List Datagram := []

namespace UdpSocket

/-- Look up the handle and bind a socket that is not open, as every call does. -/
def autobind (s : UdpSocket) (net : NetAnswer) : Except Errno UdpSocket :=
  if net.found = false then .error .EBADF
  else if s.isOpen then .ok s
  else if net.binds then .ok { s with isOpen := true }
  else .error .EADDRINUSE

def connect (s : UdpSocket) (net : NetAnswer) : SocketAddress → Except Errno UdpSocket
  | .inet endpoint => do
    let s ← s.autobind net
    .ok { s with remoteEndpoint := some endpoint }
  | .unix _ | .netlink .. => .error .EINVAL

/-- `nonblocking` of the socket or `MSG_DONTWAIT`. -/
def dontWait (s : UdpSocket) (flags : Nat) : Bool := s.nonblocking || flags &&& 0x40 != 0

/-- What `send` and `sendto` do once they have an address or none. -/
def transmit (s : UdpSocket) (net : NetAnswer) (data : List UInt8) (flags : Nat) :
    Option IpEndpoint → UdpSocket × Except Errno Nat
  | none => (s, .error .EDESTADDRREQ)
  | some target =>
    match s.autobind net with
    | .error e => (s, .error e)
    | .ok s =>
      if net.canSend then
        if net.sends then ({ s with tx := s.tx ++ [⟨target, data⟩] }, .ok data.length)
        else (s, .error .ENOBUFS)
      else (s, .error (if s.dontWait flags then .EAGAIN else .ENOBUFS))

def send (s : UdpSocket) (net : NetAnswer) (data : List UInt8) (flags : Nat) :
    UdpSocket × Except Errno Nat :=
  s.transmit net data flags s.remoteEndpoint

def sendto (s : UdpSocket) (net : NetAnswer) (data : List UInt8) (dest : Option SocketAddress)
    (flags : Nat) : UdpSocket × Except Errno Nat :=
  s.transmit net data flags ((dest.bind (·.asInet)).or s.remoteEndpoint)

/-- One turn of the loop of `recvfrom`. There is no result when the caller sleeps after it. -/
def recvfrom (s : UdpSocket) (net : NetAnswer) (len flags : Nat) :
    UdpSocket × Option (Except Errno (Nat × SocketAddress)) :=
  match s.autobind net with
  | .error e => (s, some (.error e))
  | .ok s =>
    match s.rx ++ net.polled with
    | [] => (s, if s.dontWait flags then some (.error .EAGAIN) else none)
    | packet :: rx =>
      -- `recv_slice` has taken the packet when it finds that the buffer is too short.
      if len < packet.data.length then ({ s with rx }, some (.error EIO))
      else
        ({ s with rx, remoteEndpoint := some packet.endpoint },
          some (.ok (packet.data.length, .inet packet.endpoint)))

/-- One turn of the loop of `recv`. -/
def recv (s : UdpSocket) (net : NetAnswer) (len flags : Nat) :
    UdpSocket × Option (Except Errno Nat) :=
  let (s, r) := s.recvfrom net len flags
  (s, r.map (·.map (·.1)))

end UdpSocket

inductive UdpOp
  | connect (net : NetAnswer) (addr : SocketAddress)
  | send (net : NetAnswer) (data : List UInt8) (flags : Nat)
  | sendto (net : NetAnswer) (data : List UInt8) (dest : Option SocketAddress) (flags : Nat)
  | recv (net : NetAnswer) (len flags : Nat)
  | recvfrom (net : NetAnswer) (len flags : Nat)
  | arrive (packet : Datagram)

/-- A socket, and the endpoint of the most recent `connect` that succeeded. -/
structure UdpState where
  socket : UdpSocket := {}
  connected : Option IpEndpoint := none

namespace UdpState

def step (s : UdpState) : UdpOp → Except Panic UdpState
  | .connect net addr =>
    match s.socket.connect net addr with
    | .ok socket => .ok ⟨socket, addr.asInet⟩
    | .error _ => .ok s
  | .send net data flags => .ok { s with socket := (s.socket.send net data flags).1 }
  | .sendto net data dest flags => .ok { s with socket := (s.socket.sendto net data dest flags).1 }
  | .recv net len flags => .ok { s with socket := (s.socket.recv net len flags).1 }
  | .recvfrom net len flags => .ok { s with socket := (s.socket.recvfrom net len flags).1 }
  | .arrive packet => .ok { s with socket.rx := s.socket.rx ++ [packet] }

/-- A receive takes no packet but one of the peer. -/
def FromPeer (s : UdpState) : UdpOp → Prop
  | .recv net .. | .recvfrom net .. =>
    ∀ packet ∈ (s.socket.rx ++ net.polled).head?, s.connected = some packet.endpoint
  | _ => True

instance (s : UdpState) (op : UdpOp) : Decidable (s.FromPeer op) := by
  cases op <;> unfold FromPeer <;> infer_instance

end UdpState

variable {s s' : UdpSocket} {u u' start : UdpState} {net : NetAnswer} {op : UdpOp}

namespace UdpSocket

/-- The data went to the endpoint, or nothing was sent for another reason than a missing address. -/
def SendsTo (s : UdpSocket) (ep : IpEndpoint) (data : List UInt8)
    (r : UdpSocket × Except Errno Nat) : Prop :=
  r.1.tx = s.tx ++ [⟨ep, data⟩] ∧ r.2 = .ok data.length ∨
    r.1.tx = s.tx ∧ ∃ e, r.2 = .error e ∧ e ≠ .EDESTADDRREQ

theorem autobind_eq_ok (h : s.autobind net = .ok s') :
    s'.remoteEndpoint = s.remoteEndpoint ∧ s'.rx = s.rx ∧ s'.tx = s.tx := by
  unfold autobind at h
  split_ifs at h <;> cases h <;> exact ⟨rfl, rfl, rfl⟩

theorem connect_eq_ok {addr : SocketAddress} (h : s.connect net addr = .ok s') :
    s'.remoteEndpoint = addr.asInet := by
  cases addr with
  | inet ep =>
    obtain ⟨mid, _, hmid⟩ := ok_of_bind h
    cases hmid
    rfl
  | unix _ | netlink _ _ => cases h

theorem transmit_remote (data : List UInt8) (flags : Nat) (dest : Option IpEndpoint) :
    (s.transmit net data flags dest).1.remoteEndpoint = s.remoteEndpoint := by
  unfold transmit
  split
  · rfl
  · split
    · rfl
    · rename_i h
      split_ifs <;> exact (autobind_eq_ok h).1

theorem transmit_some (data : List UInt8) (flags : Nat) (target : IpEndpoint) :
    s.SendsTo target data (s.transmit net data flags (some target)) := by
  dsimp only [transmit, SendsTo]
  split
  · rename_i e h
    unfold autobind at h
    split_ifs at h <;> cases h <;> exact .inr ⟨rfl, _, rfl, nofun⟩
  · rename_i h
    rw [← (autobind_eq_ok h).2.2]
    split_ifs
    · exact .inl ⟨rfl, rfl⟩
    all_goals exact .inr ⟨rfl, _, rfl, nofun⟩

/-- A receive leaves the endpoint, or puts that of the first packet in its place. -/
theorem recvfrom_remote (len flags : Nat) :
    (s.recvfrom net len flags).1.remoteEndpoint = s.remoteEndpoint ∨
      ∃ packet ∈ (s.rx ++ net.polled).head?,
        (s.recvfrom net len flags).1.remoteEndpoint = some packet.endpoint := by
  unfold recvfrom
  split
  · exact .inl rfl
  · rename_i h
    rw [← (autobind_eq_ok h).1, ← (autobind_eq_ok h).2.1]
    split
    · exact .inl rfl
    · rename_i packet rx hrx
      split_ifs
      · exact .inl rfl
      · exact .inr ⟨packet, by rw [hrx]; rfl, rfl⟩

end UdpSocket

namespace UdpState

theorem connected_step (h : u.socket.remoteEndpoint = u.connected) (hpeer : u.FromPeer op)
    (hstep : u.step op = .ok u') : u'.socket.remoteEndpoint = u'.connected := by
  -- The two kinds of receive write the field alike.
  have hrecv : ∀ net len flags, u.FromPeer (.recvfrom net len flags) →
      (u.socket.recvfrom net len flags).1.remoteEndpoint = u.connected := by
    intro net len flags hpeer
    rcases UdpSocket.recvfrom_remote len flags with hsame | ⟨packet, hpacket, hnew⟩
    · rw [hsame, h]
    · rw [hnew, hpeer packet hpacket]
  cases op with
  | connect net addr =>
    dsimp only [step] at hstep
    split at hstep <;> cases hstep
    · exact UdpSocket.connect_eq_ok ‹_›
    · exact h
  | send net data flags | sendto net data dest flags =>
    cases hstep
    exact (UdpSocket.transmit_remote ..).trans h
  | recv net len flags | recvfrom net len flags =>
    cases hstep
    exact hrecv net len flags hpeer
  | arrive packet =>
    cases hstep
    exact h

/-- As long as only the peer is heard, a send without an address goes to the endpoint of the
most recent `connect`, and asks for one if there was none. -/
theorem sent_to_connected (hstart : start.socket.remoteEndpoint = start.connected)
    (h : Visits step FromPeer start u) (net : NetAnswer) (data : List UInt8) (flags : Nat) :
    ∀ r ∈ [u.socket.send net data flags, u.socket.sendto net data none flags],
      (u.connected = none → r = (u.socket, .error .EDESTADDRREQ)) ∧
        ∀ ep, u.connected = some ep → u.socket.SendsTo ep data r := by
  have hinv := h.invariant hstart fun _ _ _ => connected_step
  have hsame : ∀ r ∈ [u.socket.send net data flags, u.socket.sendto net data none flags],
      r = u.socket.transmit net data flags u.connected := by
    rw [← hinv]
    simp [UdpSocket.send, UdpSocket.sendto]
  intro r hr
  rw [hsame r hr]
  refine ⟨fun hnone => by rw [hnone]; rfl, fun ep hep => ?_⟩
  rw [hep]
  exact UdpSocket.transmit_some data flags ep

/-- A socket hears its peer and answers it. -/
theorem sent_after_answer : ∃ (u : UdpState) (ep : IpEndpoint), u.connected = some ep ∧
    u.socket.SendsTo ep [7] (u.socket.send {} [7] 0) := by
  obtain ⟨u, hu, hep⟩ := exists_visits step FromPeer {} [.connect {} (.inet ⟨1, 53⟩),
    .arrive ⟨⟨1, 53⟩, [0]⟩, .recv {} 8 0] (fun u => u.connected = some ⟨1, 53⟩) (by decide)
  exact ⟨u, _, hep, (sent_to_connected rfl hu {} [7] 0 _ (.head _)).2 _ hep⟩

/-- A socket that hears somebody else turns away from its peer. -/
theorem sent_to_stranger : ∃ u, run step {} [.connect {} (.inet ⟨1, 53⟩),
      .arrive ⟨⟨2, 99⟩, [0]⟩, .recv {} 8 0] = .ok u ∧ u.connected = some ⟨1, 53⟩ ∧
    u.socket.send {} [7] 0 = (⟨true, false, some ⟨2, 99⟩, [], [⟨⟨2, 99⟩, [7]⟩]⟩, .ok 1) :=
  ⟨_, rfl, rfl, rfl⟩

end UdpState
end Petra.Net
