import HzMq.Server.Channel

/-!
# Connections and their time-outs (`connection.cpp`, `broker_server.cpp`)

The broker with its clock: each connection carries the time it was last active, and
each event comes with a reading of the steady clock in nanoseconds. The macro
`GET_CONN_CTX` ends at its closing brace, where no backslash continues the line:
the call of `refresh_connection` written below it is part of no handler.
-/

namespace HzMq

inductive Reply
  | response (response : Response)
  | heartbeat (rid : Bytes)
  | queueStatus (rid cid : Bytes) (status : MsgQueueManager.QueueStatus)

/-- The registered messages; those that are passed on to a channel are one case. -/
inductive Request
  | openChannel (rid cid : Bytes)
  | closeChannel (rid cid : Bytes)
  | call (rid cid : Bytes) (call : Call)
  | queueStatus (rid cid queueName : Bytes)
  | heartbeat (rid : Bytes)

inductive Effect
  | send (conn : Nat) (reply : Reply)
  | shutdown (conn : Nat)

namespace BrokerServer

def connected (s : BrokerServer) (conn : Nat) : Bool := (s.connections.lookup conn).isSome

section Connected

variable (s : BrokerServer) (conn : Nat)

theorem connected_putChannel (known : s.connected conn = true) (cid : Bytes) (ch : Channel) :
    (s.putChannel conn cid ch).connected = s.connected := by
  funext other
  by_cases same : other = conn
  · subst same
    rw [known]
    simp [connected, putChannel]
  · simp [connected, putChannel, AList.lookup_insert_ne same]

theorem connected_newConnection (other : Nat) :
    (s.newConnection conn).connected other = (decide (other = conn) || s.connected other) := by
  unfold newConnection
  by_cases same : other = conn
  · subst same
    split
    · next known => simp [connected, known]
    · simp [connected]
  · split
    · simp [same]
    · simp [connected, same, AList.lookup_insert_ne]

theorem connected_deleteConnection (other : Nat) :
    (s.deleteConnection conn).connected other = (decide (other ≠ conn) && s.connected other) := by
  by_cases same : other = conn
  · subst same
    simp [connected, deleteConnection]
  · simp [connected, deleteConnection, same, AList.lookup_erase_ne]

theorem connections_destroyChannel (ch : Channel) :
    (s.destroyChannel ch).connections = s.connections := by
  unfold destroyChannel
  split <;> rfl

theorem connected_openChannel (rid cid : Bytes) :
    (s.openChannel conn rid cid).2.connected = s.connected := by
  unfold openChannel
  split
  · rfl
  · next found =>
    split
    · rfl
    · exact s.connected_putChannel conn (Option.isSome_of_eq_some found) cid _

theorem connected_closeChannel (rid cid : Bytes) :
    (s.closeChannel conn rid cid).2.connected = s.connected := by
  unfold closeChannel
  split
  · rfl
  next channels found =>
    funext other
    by_cases same : other = conn
    · subst same
      simp [connected, found]
    · simp only [connected, AList.lookup_insert_ne same]
      split
      · rfl
      · rw [connections_destroyChannel]

variable (codec : Codec) (matchHeaders : StrMap Bytes → StrMap Bytes → Bool)

theorem connections_handle (ch : Channel) (rid cid : Bytes) (call : Call) :
    (s.handle codec matchHeaders ch rid cid call).2.2.connections = s.connections := by
  cases call with
  | declareQueue queueName durable exclusive autoDelete args =>
    simp only [handle]
    split <;> rfl
  | declareQueueWithDlq queueName durable exclusive autoDelete args config =>
    simp only [handle]
    split <;> rfl
  | basicPublish visit tasks exchangeName properties body =>
    simp only [handle, BrokerServer.basicPublish]
    cases s.host.selectExchange exchangeName <;> rfl
  | basicConsume tag queueName autoAck =>
    simp only [handle, BrokerServer.basicConsume]
    split <;> rfl
  | _ => rfl

theorem connected_request (rid cid : Bytes) (call : Call) :
    (s.request codec matchHeaders conn rid cid call).2.connected = s.connected := by
  unfold request selectChannel
  cases found : s.connections.lookup conn with
  | none => rfl
  | some channels =>
    cases opened : channels.lookup cid with
    | none => simp [opened]
    | some ch =>
      have same := s.connections_handle codec matchHeaders ch rid cid call
      have known : (s.handle codec matchHeaders ch rid cid call).2.2.connected conn = true := by
        rw [connected, same, found]
        rfl
      simp only [Option.bind_some, opened]
      rw [connected_putChannel _ _ known]
      funext other
      rw [connected, connected, same]

end Connected

end BrokerServer

structure TimedBroker where
  broker : BrokerServer
  lastActive : AList (fun _ : Nat => Int) := ∅
  agree : ∀ conn, (lastActive.lookup conn).isSome = broker.connected conn

namespace TimedBroker

open BrokerServer

section Agree

variable (s : TimedBroker) (conn : Nat) (now : Int)

theorem agree_newConnection (unknown : s.broker.connected conn = false) (other : Nat) :
    ((s.lastActive.insert conn now).lookup other).isSome =
      (s.broker.newConnection conn).connected other := by
  rw [connected_newConnection]
  by_cases same : other = conn
  · subst same
    simp
  · simp [same, AList.lookup_insert_ne, s.agree]

theorem agree_deleteConnection (other : Nat) :
    ((s.lastActive.erase conn).lookup other).isSome =
      (s.broker.deleteConnection conn).connected other := by
  rw [connected_deleteConnection]
  by_cases same : other = conn
  · subst same
    simp
  · simp [same, AList.lookup_erase_ne, s.agree]

theorem agree_refresh (known : s.broker.connected conn = true) (other : Nat) :
    ((s.lastActive.insert conn now).lookup other).isSome = s.broker.connected other := by
  by_cases same : other = conn
  · subst same
    simp [known]
  · simp [AList.lookup_insert_ne same, s.agree]

theorem agree_broker {broker : BrokerServer} (keeps : broker.connected = s.broker.connected)
    (other : Nat) : (s.lastActive.lookup other).isSome = broker.connected other := by
  rw [s.agree, keeps]

end Agree

variable (s : TimedBroker)

def new (broker : BrokerServer) (nobody : ∀ conn, broker.connected conn = false) : TimedBroker where
  broker := broker
  lastActive := ∅
  agree conn := (nobody conn).symm

def newConnection (conn : Nat) (now : Int) : TimedBroker :=
  if unknown : s.broker.connected conn = false then
    { broker := s.broker.newConnection conn
      lastActive := s.lastActive.insert conn now
      agree := s.agree_newConnection conn now unknown }
  else s

def deleteConnection (conn : Nat) : TimedBroker where
  broker := s.broker.deleteConnection conn
  lastActive := s.lastActive.erase conn
  agree := s.agree_deleteConnection conn

def refreshConnection (conn : Nat) (now : Int) : TimedBroker :=
  if known : s.broker.connected conn = true then
    { s with
      lastActive := s.lastActive.insert conn now
      agree := s.agree_refresh conn now known }
  else s

/-- `GET_CONN_CTX`, and then what is left of the handler. -/
def getConnCtx (conn : Nat) (handler : BrokerServer → Option Reply × BrokerServer)
    (keeps : (handler s.broker).2.connected = s.broker.connected) : List Effect × TimedBroker :=
  if s.broker.connected conn then
    (((handler s.broker).1.map (Effect.send conn)).toList,
      { s with broker := (handler s.broker).2, agree := s.agree_broker keeps })
  else ([.shutdown conn], s)

def onOpenChannel (conn : Nat) (rid cid : Bytes) : List Effect × TimedBroker :=
  s.getConnCtx conn
    (fun b => ((b.openChannel conn rid cid).1.map .response, (b.openChannel conn rid cid).2))
    (s.broker.connected_openChannel conn rid cid)

def onCloseChannel (conn : Nat) (rid cid : Bytes) : List Effect × TimedBroker :=
  s.getConnCtx conn
    (fun b => ((b.closeChannel conn rid cid).1.map .response, (b.closeChannel conn rid cid).2))
    (s.broker.connected_closeChannel conn rid cid)

/-- The one handler that asks the queue manager itself. -/
def onQueueStatusRequest (conn : Nat) (rid cid queueName : Bytes) : List Effect × TimedBroker :=
  s.getConnCtx conn
    (fun b =>
      ((b.selectChannel conn cid).map fun _ =>
        .queueStatus rid cid (b.host.queueMgr.getQueueStatus queueName), b))
    rfl

/-- It does not look for the connection first. -/
def onHeartbeat (conn : Nat) (rid : Bytes) (now : Int) : List Effect × TimedBroker :=
  ([.send conn (.heartbeat rid)], s.refreshConnection conn now)

def expired (now last timeout : Int) : Bool := now - last > timeout

/-- The connections that are shut down; they stay known until the network says they are gone. -/
def checkTimeout (now timeout : Int) : List Nat :=
  (s.lastActive.entries.filter fun e => expired now e.2 timeout).map Sigma.fst

variable (codec : Codec) (matchHeaders : StrMap Bytes → StrMap Bytes → Bool)

/-- The thirteen handlers that leave the rest to a channel. -/
def onCall (conn : Nat) (rid cid : Bytes) (call : Call) : List Effect × TimedBroker :=
  s.getConnCtx conn
    (fun b => ((b.request codec matchHeaders conn rid cid call).1.map .response,
      (b.request codec matchHeaders conn rid cid call).2))
    (s.broker.connected_request conn codec matchHeaders rid cid call)

def onMessage (conn : Nat) (now : Int) : Request → List Effect × TimedBroker
  | .openChannel rid cid => s.onOpenChannel conn rid cid
  | .closeChannel rid cid => s.onCloseChannel conn rid cid
  | .call rid cid call => s.onCall codec matchHeaders conn rid cid call
  | .queueStatus rid cid queueName => s.onQueueStatusRequest conn rid cid queueName
  | .heartbeat rid => s.onHeartbeat conn rid now

end TimedBroker

/-- Half a minute, as `runEvery` passes it. -/
def connectionTimeout : Int := 30 * 10 ^ 9

inductive ConnectionEvent
  | connect (conn : Nat)
  | message (conn : Nat) (request : Request)
  | disconnect (conn : Nat)
  | checkTimeout

structure Timed where
  now : Int
  event : ConnectionEvent

def Timed.handle (codec : Codec) (matchHeaders : StrMap Bytes → StrMap Bytes → Bool)
    (s : TimedBroker) (e : Timed) : List Effect × TimedBroker :=
  match e.event with
  | .connect conn => ([], s.newConnection conn e.now)
  | .message conn request => s.onMessage codec matchHeaders conn e.now request
  | .disconnect conn => ([], s.deleteConnection conn)
  | .checkTimeout => ((s.checkTimeout e.now connectionTimeout).map .shutdown, s)

end HzMq
