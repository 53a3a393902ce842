import HzMq.Library.Refinement
import HzMq.Liveness.Timeout

/-!
# The session of one connection

What a client is sent on its connection, but for the answers that the tables of the
broker decide, follows from its own messages and from the clock. The session keeps
which channels are open and when it was last refreshed; whatever other connections
send, and whichever tasks run in between, does not come into it.
-/

namespace HzMq.Protocol

@[ext] structure Link where
  lastActive : Int
  isOpen : Bytes → Bool

/-- There may be no connection. -/
abbrev Session := Option Link

/-- What is sent, without what the broker's tables decide: whether a channel was opened is
part of the session, whether a publication succeeded is not. -/
inductive Outline
  | channel (rid cid : Bytes) (ok : Bool)
  | answer (rid cid : Bytes)
  | status (rid cid : Bytes)
  | heartbeat (rid : Bytes)
  | shutdown
  deriving DecidableEq

inductive SessionEvent
  | connect
  | openChannel (rid cid : Bytes)
  | closeChannel (rid cid : Bytes)
  | call (rid cid : Bytes)
  | queueStatus (rid cid : Bytes)
  | heartbeat (rid : Bytes)
  | disconnect
  | checkTimeout

def Link.act (l : Link) (now : Int) : SessionEvent → List Outline × Session
  | .connect => ([], some l)
  | .openChannel rid cid =>
    ([.channel rid cid (!l.isOpen cid)],
      some { l with isOpen := Function.update l.isOpen cid true })
  | .closeChannel rid cid =>
    ([.channel rid cid true], some { l with isOpen := Function.update l.isOpen cid false })
  | .call rid cid => (if l.isOpen cid then [.answer rid cid] else [], some l)
  | .queueStatus rid cid => (if l.isOpen cid then [.status rid cid] else [], some l)
  | .heartbeat rid => ([.heartbeat rid], some { l with lastActive := now })
  | .disconnect => ([], none)
  | .checkTimeout =>
    (if TimedBroker.expired now l.lastActive connectionTimeout then [.shutdown] else [], some l)

/-- Without a connection a message is answered by a shutdown, except for a heartbeat. -/
def Session.act (s : Session) (e : Int × SessionEvent) : List Outline × Session :=
  match s with
  | some l => l.act e.1 e.2
  | none =>
    match e.2 with
    | .connect => ([], some ⟨e.1, fun _ => false⟩)
    | .heartbeat rid => ([.heartbeat rid], none)
    | .disconnect => ([], none)
    | .checkTimeout => ([], none)
    | _ => ([.shutdown], none)

inductive SystemEvent
  | network (e : Timed)
  | execute (index : Nat)
  | queueRuntimeStats (queueName : Bytes)
  | compactQueue (queueName : Bytes)

section Act

variable (codec : Codec) (matchHeaders : StrMap Bytes → StrMap Bytes → Bool)

theorem connections_consume (s : BrokerServer) (qname : Bytes) :
    (s.consume codec qname).2.connections = s.connections := by
  unfold BrokerServer.consume
  split
  · rfl
  · split <;> rfl

theorem connections_execute (s : BrokerServer) (index : Nat) :
    (s.execute codec index).2.connections = s.connections := by
  unfold BrokerServer.execute
  split
  · rfl
  · exact connections_consume codec _ _

/-- A step of the broker behind the connections' backs. -/
def onBroker (s : TimedBroker) (op : BrokerServer → BrokerServer)
    (keeps : (op s.broker).connections = s.broker.connections) : TimedBroker :=
  { s with
    broker := op s.broker
    agree := s.agree_broker (by funext conn; rw [BrokerServer.connected, keeps]; rfl) }

def SystemEvent.handle (s : TimedBroker) : SystemEvent → List Effect × TimedBroker
  | .network e => e.handle codec matchHeaders s
  | .execute index =>
    ([], onBroker s (fun b => (b.execute codec index).2) (connections_execute codec s.broker index))
  | .queueRuntimeStats queueName =>
    ([], onBroker s (fun b => { b with host := (b.host.queueRuntimeStats codec queueName).2 }) rfl)
  | .compactQueue queueName =>
    ([], onBroker s (fun b => { b with host := b.host.compactQueue codec queueName }) rfl)

end Act

def outline (event : ConnectionEvent) : Reply → Outline
  | .heartbeat rid => .heartbeat rid
  | .queueStatus rid cid _ => .status rid cid
  | .response (.query rid cid _) => .answer rid cid
  | .response (.consume cid tag _ _) => .answer tag cid
  | .response (.common rid cid ok) =>
    match event with
    | .message _ (.openChannel _ _) => .channel rid cid ok
    | .message _ (.closeChannel _ _) => .channel rid cid ok
    | _ => .answer rid cid

def outlinesOn (conn : Nat) (event : ConnectionEvent) (effects : List Effect) : List Outline :=
  effects.filterMap fun
    | .send c reply => if c = conn then some (outline event reply) else none
    | .shutdown c => if c = conn then some .shutdown else none

def actOn (codec : Codec) (matchHeaders : StrMap Bytes → StrMap Bytes → Bool) (conn : Nat)
    (s : TimedBroker) (e : SystemEvent) : List Outline × TimedBroker :=
  let (effects, s) := e.handle codec matchHeaders s
  match e with
  | .network e => (outlinesOn conn e.event effects, s)
  | _ => ([], s)

def sessionEvent : Request → SessionEvent
  | .openChannel rid cid => .openChannel rid cid
  | .closeChannel rid cid => .closeChannel rid cid
  | .call rid cid _ => .call rid cid
  | .queueStatus rid cid _ => .queueStatus rid cid
  | .heartbeat rid => .heartbeat rid

def ownEvent (conn : Nat) (e : Timed) : Option (Int × SessionEvent) :=
  match e.event with
  | .connect c => if c = conn then some (e.now, .connect) else none
  | .message c request => if c = conn then some (e.now, sessionEvent request) else none
  | .disconnect c => if c = conn then some (e.now, .disconnect) else none
  | .checkTimeout => some (e.now, .checkTimeout)

def ownEvent? (conn : Nat) : SystemEvent → Option (Int × SessionEvent)
  | .network e => ownEvent conn e
  | _ => none

def openOn (s : BrokerServer) (conn : Nat) : Option (Bytes → Bool) :=
  (s.connections.lookup conn).map fun channels cid => (channels.lookup cid).isSome

def sessionOf (conn : Nat) (s : TimedBroker) : Session :=
  (s.lastActive.lookup conn).bind fun last =>
    (openOn s.broker conn).map fun isOpen => ⟨last, isOpen⟩

/-- A channel object keeps the id under which it was opened. -/
def OwnIds (s : BrokerServer) : Prop :=
  ∀ conn cid ch, s.selectChannel conn cid = some ch → ch.ref.cid = cid

end HzMq.Protocol
