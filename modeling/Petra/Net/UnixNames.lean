import Petra.Base.Run
import Petra.Kernel

/-! # Names of unix sockets

`bind` enters a clone of the socket into a registry by path. The clone shares the kind of the
socket, and is closed like any socket when it is dropped. A connection that waits to be accepted
has the path of its listener as its own address, and every close takes the path of the closed
socket out of the registry.
-/

namespace Petra.Net

open Base Function

/-- What a socket is. Stream sockets start unconnected. Channels are known by their numbers. -/
inductive SocketKind
  | unconnected
  /-- With the connections to accept. -/
  | listener (queue : List Nat)
  | unix (tx rx : Nat)
  | dgram
  deriving DecidableEq

def SocketKind.channels : SocketKind → List Nat
  | .unix tx rx => [tx, rx]
  | _ => []

/-- A socket. `kind` is the number of its kind, which a clone shares. -/
structure KernelSocket where
  kind : Nat
  localAddr : Option String
  deriving DecidableEq

/-- Who has the references to a socket. -/
inductive Holder
  | nobody
  | user
  | queue
  | registry
  /-- Its listener is gone, and it is about to be dropped. -/
  | orphan
  deriving DecidableEq

structure UnixState where
  sockets : Nat → KernelSocket
  holder : Nat → Holder
  kinds : Nat → SocketKind
  /-- The channels that are marked closed. -/
  closed : Nat → Bool
  registry : String → Option Nat
  nextSocket : Nat
  nextKind : Nat
  nextChannel : Nat
  /-- History: the sockets that are clones. -/
  clone : Nat → Bool
  /-- History: the socket that has bound a path and was not closed since. -/
  binder : String → Option Nat

inductive UnixOp
  | create (isDgram : Bool)
  | pair
  | bind (x : Nat) (path : String)
  | listen (x : Nat)
  | connect (x : Nat) (path : String)
  | accept (x : Nat)
  | shutdown (x : Nat) (how : Nat)
  | close (x : Nat)
  /-- The last reference is dropped. -/
  | drop (x : Nat)

namespace UnixState

variable (s : UnixState)

def kindOf (x : Nat) : SocketKind := s.kinds (s.sockets x).kind

def setKind (x : Nat) (kind : SocketKind) : UnixState :=
  { s with kinds := update s.kinds (s.sockets x).kind kind }

def setHolder (x : Nat) (holder : Holder) : UnixState :=
  { s with holder := update s.holder x holder }

def setLocalAddr (x : Nat) (path : String) : UnixState :=
  { s with sockets := update s.sockets x { s.sockets x with localAddr := some path } }

/-- A new socket, with a kind of its own. -/
def newSocket (kind : SocketKind) (localAddr : Option String) (holder : Holder) : UnixState :=
  { s with
    sockets := update s.sockets s.nextSocket ⟨s.nextKind, localAddr⟩
    holder := update s.holder s.nextSocket holder
    kinds := update s.kinds s.nextKind kind
    nextSocket := s.nextSocket + 1
    nextKind := s.nextKind + 1 }

def markClosed (channels : List Nat) : UnixState :=
  { s with closed := fun ch => s.closed ch || channels.contains ch }

/-- The connections that are dropped with a kind that nobody refers to. -/
def pending (k : Nat) : List Nat :=
  match s.kinds k with
  | .listener queue =>
    if ∃ x < s.nextSocket, s.holder x ≠ .nobody ∧ (s.sockets x).kind = k then [] else queue
  | _ => []

/-- `unbind_unix_socket`. The clone is dropped, and closed, under the lock of the registry: if
it has an address of its own, or is the last to refer to waiting connections, a close waits for
that lock for ever. -/
def unbindUnixSocket (path : String) : Except Unit UnixState :=
  match s.registry path with
  | none => .ok s
  | some c =>
    if (s.sockets c).localAddr.isSome ∨
        (s.setHolder c .nobody).pending (s.sockets c).kind ≠ [] then .error ()
    else
      .ok ({ s.setHolder c .nobody with
        registry := update s.registry path none }.markClosed (s.kindOf c).channels)

/-- `KernelSocket::close`. -/
def closeSocket (x : Nat) : Except Unit UnixState := do
  let s ← match (s.sockets x).localAddr with
    | some path => s.unbindUnixSocket path
    | none => .ok s
  .ok (s.markClosed (s.kindOf x).channels)

/-- The socket no longer has any path. -/
def forget (x : Nat) : UnixState :=
  { s with binder := fun path => if s.binder path = some x then none else s.binder path }

def lookupUnixSocket (path : String) : Option Nat := s.registry path

/-- A clone with the number of the next socket. -/
def cloneSocketRef (x : Nat) (holder : Holder) : UnixState :=
  { s with
    sockets := update s.sockets s.nextSocket (s.sockets x)
    holder := update s.holder s.nextSocket holder
    nextSocket := s.nextSocket + 1
    clone := update s.clone s.nextSocket true }

def bind (x : Nat) (path : String) : Except Unit UnixState :=
  if path = "" then .ok (s.setLocalAddr x path)
  else
    match s.registry path with
    -- `EADDRINUSE`, and the clone is dropped again.
    | some _ => (s.cloneSocketRef x .nobody).closeSocket s.nextSocket
    | none =>
      .ok ({ s.cloneSocketRef x .registry with
        registry := update s.registry path (some s.nextSocket)
        binder := update s.binder path (some x) }.setLocalAddr x path)

def listen (x : Nat) : UnixState :=
  match s.kindOf x with
  | .unconnected => s.setKind x (.listener [])
  | _ => s

/-- A connection to a listener: two channels, and a socket for the other side. -/
def connectTo (x : Nat) (path : String) (c : Nat) (queue : List Nat) : UnixState :=
  let tx := s.nextChannel
  let rx := s.nextChannel + 1
  let y := s.nextSocket
  let s := { s with nextChannel := s.nextChannel + 2 }
  let s := s.newSocket (.unix rx tx) (some path) .queue
  let s := s.setKind x (.unix tx rx)
  s.setKind c (.listener (queue ++ [y]))

def connect (x : Nat) (path : String) : UnixState :=
  match s.kindOf x with
  | .unconnected | .dgram =>
    match s.lookupUnixSocket path with
    | none => s
    | some c =>
      match s.kindOf c with
      | .listener queue => s.connectTo x path c queue
      | _ => s
  | _ => s

def accept (x : Nat) : UnixState :=
  match s.kindOf x with
  | .listener (y :: queue) => (s.setKind x (.listener queue)).setHolder y .user
  | _ => s

def shutdown (x how : Nat) : UnixState :=
  match s.kindOf x with
  | .unix tx rx =>
    match how with
    | 0 => s.markClosed [rx]
    | 1 => s.markClosed [tx]
    | 2 => s.markClosed [rx, tx]
    | _ => s
  | _ => s

/-- The end of a dropped socket: the connections of a listener go with it. -/
def release (x : Nat) : UnixState :=
  let s := s.setHolder x .nobody
  { s with
    holder := fun y => if y ∈ s.pending (s.sockets x).kind then .orphan else s.holder y }

/-- One call on a socket that a process holds, or the drop of a socket. What a process does not
hold it cannot use; a call that never comes back ends the run. -/
def step : UnixOp → Except Unit UnixState
  | .create isDgram => .ok (s.newSocket (if isDgram then .dgram else .unconnected) none .user)
  | .pair =>
    let a := s.nextChannel
    let b := s.nextChannel + 1
    let s := { s with nextChannel := s.nextChannel + 2 }
    .ok ((s.newSocket (.unix a b) none .user).newSocket (.unix b a) none .user)
  | .bind x path => if s.holder x = .user then s.bind x path else .error ()
  | .listen x => if s.holder x = .user then .ok (s.listen x) else .error ()
  | .connect x path => if s.holder x = .user then .ok (s.connect x path) else .error ()
  | .accept x => if s.holder x = .user then .ok (s.accept x) else .error ()
  | .shutdown x how => if s.holder x = .user then .ok (s.shutdown x how) else .error ()
  | .close x =>
    if s.holder x = .user then do
      let s ← s.closeSocket x
      .ok (s.forget x)
    else .error ()
  | .drop x =>
    if s.holder x = .user ∨ s.holder x = .orphan then do
      let s ← s.closeSocket x
      .ok ((s.forget x).release x)
    else .error ()

def initial : UnixState where
  sockets := fun _ => ⟨0, none⟩
  holder := fun _ => .nobody
  kinds := fun _ => .unconnected
  closed := fun _ => false
  registry := fun _ => none
  nextSocket := 0
  nextKind := 0
  nextChannel := 0
  clone := fun _ => false
  binder := fun _ => none

end UnixState

end Petra.Net
