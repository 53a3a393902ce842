import HzMq.Client.Command
import HzMq.Library.Streams
import HzMq.Protocol.Session

/-!
# The server and its clients (`client.cpp`, `broker_server.cpp`)

Every connection has a client at its other end. What is under way on a connection
arrives in the order in which it was sent, and is lost when the connection is. A
client acknowledges each message that it is sent, naming the consumer tag where the
request wants the queue.
-/

namespace HzMq.Client

/-- The orders in which the server's loops visit their maps. -/
structure Visits where
  queues : Visit Binding
  tasks : Visit Binding
  stores : Visit QueueMessage

def toRequest (visits : Visits) : ClientMessage → Request
  | .openChannel rid cid => .openChannel rid cid
  | .closeChannel rid cid => .closeChannel rid cid
  | .declareExchange rid cid exchangeName type durable autoDelete =>
    .call rid cid (.declareExchange exchangeName type durable autoDelete ∅)
  | .declareQueue rid cid queueName exclusive durable autoDelete =>
    .call rid cid (.declareQueue queueName durable exclusive autoDelete ∅)
  | .bind rid cid exchangeName queueName bindingKey _ =>
    .call rid cid (.bind exchangeName queueName bindingKey)
  | .basicPublish rid cid exchangeName properties body =>
    .call rid cid (.basicPublish visits.queues visits.tasks exchangeName properties body)
  | .basicAck rid cid queueName messageId => .call rid cid (.basicAck queueName messageId)
  | .basicConsume rid cid consumerTag queueName autoAck =>
    .call rid cid (.basicConsume consumerTag queueName autoAck)
  | .basicCancel rid cid consumerTag queueName =>
    .call rid cid (.basicCancel consumerTag queueName)
  | .basicQuery rid cid => .call rid cid (.basicQuery visits.stores)
  | .queueStatus rid cid queueName => .queueStatus rid cid queueName
  | .heartbeat rid => .heartbeat rid

/-- `onConsumeResponse`: the acknowledgement that is sent for a message. -/
def onConsumeResponse : Response → Option ClientMessage
  | .consume cid consumerTag _ properties =>
    some (.basicAck (consumerTag ++ str "-ack-" ++ properties.id) cid consumerTag properties.id)
  | _ => none

inductive Packet
  | reply (reply : Reply)
  | delivery (delivery : Delivery)

structure System where
  server : TimedBroker
  up : List (Nat × ClientMessage) := []
  down : List (Nat × Packet) := []
  /-- The messages that the clients printed. -/
  received : List (Nat × Delivery) := []

def connectionOf (s : BrokerServer) (channel : ChannelRef) : Option Nat :=
  (s.connections.entries.find? fun e => e.2.entries.any fun c => c.2.ref = channel).map Sigma.fst

/-- The replies among the effects; a shutdown shows when the connection goes down. -/
def packets (effects : List Effect) : List (Nat × Packet) :=
  effects.filterMap fun
    | .send conn reply => some (conn, .reply reply)
    | .shutdown _ => none

inductive Step
  | connect (conn : Nat) (now : Int)
  | disconnect (conn : Nat)
  | command (conn : Nat) (line : Bytes)
  /-- The heartbeat thread comes around. -/
  | beat (conn : Nat)
  /-- The server handles the next request of a connection. -/
  | serve (conn : Nat) (now : Int) (visits : Visits)
  | execute (index : Nat)
  /-- A client gets the next packet. -/
  | receive (conn : Nat)
  | queueRuntimeStats (queueName : Bytes)
  | compactQueue (queueName : Bytes)

namespace System

variable (s : System)

def host : VirtualHost := s.server.broker.host

def submit (conn : Nat) (message : Option ClientMessage) : System :=
  if s.server.broker.connected conn then
    { s with up := s.up ++ (message.map (Prod.mk conn)).toList }
  else s

def receive (conn : Nat) : System :=
  match Streams.pop conn s.down with
  | (none, _) => s
  | (some (.reply _), down) => { s with down }
  | (some (.delivery d), down) =>
    { s with
      down
      received := s.received ++ [(conn, d)]
      up := s.up ++ ((onConsumeResponse d.response).map (Prod.mk conn)).toList }

variable (codec : Codec) (matchHeaders : StrMap Bytes → StrMap Bytes → Bool)

def serve (conn : Nat) (now : Int) (visits : Visits) : System :=
  match Streams.pop conn s.up with
  | (none, _) => s
  | (some message, up) =>
    let (effects, server) :=
      s.server.onMessage codec matchHeaders conn now (toRequest visits message)
    { s with server, up, down := s.down ++ packets effects }

/-- What a callback sends goes out on the connection of its channel. For a channel that was
destroyed the source has no such connection; see `Alive`. -/
def execute (index : Nat) : System :=
  let server := Protocol.onBroker s.server (fun b => (b.execute codec index).2)
    (Protocol.connections_execute codec s.server.broker index)
  match (s.server.broker.execute codec index).1 with
  | none => { s with server }
  | some d =>
    match connectionOf s.server.broker d.consumer.callback with
    | none => { s with server }
    | some conn => { s with server, down := s.down ++ [(conn, .delivery d)] }

def apply (s : System) : Step → System
  | .connect conn now => { s with server := s.server.newConnection conn now }
  | .disconnect conn =>
    { s with
      server := s.server.deleteConnection conn
      up := Streams.cut conn s.up
      down := Streams.cut conn s.down }
  | .command conn line => s.submit conn (messageSent line)
  | .beat conn => s.submit conn (some (.heartbeat (str "hb")))
  | .serve conn now visits => s.serve codec matchHeaders conn now visits
  | .execute index => s.execute codec index
  | .receive conn => s.receive conn
  | .queueRuntimeStats queueName =>
    { s with
      server := Protocol.onBroker s.server
        (fun b => { b with host := (b.host.queueRuntimeStats codec queueName).2 }) rfl }
  | .compactQueue queueName =>
    { s with
      server := Protocol.onBroker s.server
        (fun b => { b with host := b.host.compactQueue codec queueName }) rfl }

/-- A consume task runs on the channel that pushed it and calls back into the one that subscribed.
A run in which one of the two has been destroyed before is none that the source defines. -/
def Alive (s : System) : Step → Prop
  | .execute index =>
    (∀ task ∈ s.server.broker.pool[index]?,
        (connectionOf s.server.broker task.channel).isSome = true) ∧
      ∀ d ∈ (s.server.broker.execute codec index).1,
        (connectionOf s.server.broker d.consumer.callback).isSome = true
  | _ => True

instance (s : System) (step : Step) : Decidable (Alive codec s step) := by
  cases step <;> unfold Alive <;> infer_instance

end System

def Fresh (s : System) : Prop :=
  s.server.broker.Initial ∧ s.up = [] ∧ s.down = [] ∧ s.received = []

end HzMq.Client
