import HzMq.Server.Consumer
import HzMq.Server.VirtualHost

/-!
# Channels and the broker (`channel.cpp`, `connection.cpp`, `broker_server.cpp`)

Requests reach a channel of a connection; a publication leaves consume tasks in
the thread pool. A task runs as one step, and any waiting task may be the next
one. Responses are what the handlers send. Heartbeats and timeouts, which need
a clock, and the read-only status request are in `Server.Connection`.
-/

namespace HzMq

inductive Response
  | common (rid cid : Bytes) (ok : Bool)
  | query (rid cid body : Bytes)
  | consume (cid consumerTag body : Bytes) (properties : BasicProperties)
  deriving DecidableEq

structure Channel where
  ref : ChannelRef
  consumer : Option Consumer := none

/-- `std::bind(&channel::consume, this, qname)`. -/
structure Task where
  channel : ChannelRef
  qname : Bytes
  deriving DecidableEq

structure BrokerServer where
  host : VirtualHost
  cmp : ConsumerManager := {}
  connections : AList (fun _ : Nat => StrMap Channel) := ∅
  pool : List Task := []
  /-- How many channel objects there have been. -/
  opened : Nat := 0

structure Delivery where
  consumer : Consumer
  qname : Bytes
  message : MessagePtr
  response : Response

inductive Call
  | declareExchange (exchangeName : Bytes) (type : ExchangeType) (durable autoDelete : Bool)
      (args : StrMap Bytes)
  | deleteExchange (exchangeName : Bytes)
  | declareQueue (queueName : Bytes) (durable exclusive autoDelete : Bool) (args : StrMap Bytes)
  | declareQueueWithDlq (queueName : Bytes) (durable exclusive autoDelete : Bool)
      (args : StrMap Bytes) (dlqConfig : Option DeadLetterConfig)
  | deleteQueue (queueName : Bytes)
  | bind (exchangeName queueName bindingKey : Bytes)
  | unbind (exchangeName queueName : Bytes)
  | basicPublish (visit tasks : Visit Binding) (exchangeName : Bytes)
      (properties : Option BasicProperties) (body : Bytes)
  | basicAck (queueName messageId : Bytes)
  | basicNack (visit : Visit Binding) (queueName messageId : Bytes) (requeue : Bool)
      (reason : Bytes)
  | basicConsume (consumerTag queueName : Bytes) (autoAck : Bool)
  | basicCancel (consumerTag queueName : Bytes)
  | basicQuery (visit : Visit QueueMessage)

namespace BrokerServer

/-- The constructor: every queue the host already knows gets a consumer list. -/
def new (host : VirtualHost) : BrokerServer :=
  { host, cmp := host.queueMgr.msgQueues.keys.foldl ConsumerManager.initQueueConsumer {} }

section Codec

variable (codec : Codec)

/-- What the callback sends: of the properties only three fields. -/
def consumeCb (channel : ChannelRef) (tag : Bytes) (bp : BasicProperties) (body : Bytes) :
    Response :=
  .consume channel.cid tag body
    { id := bp.id, deliveryMode := bp.deliveryMode, routingKey := bp.routingKey }

def consume (s : BrokerServer) (qname : Bytes) : Option Delivery × BrokerServer :=
  match s.host.basicConsume codec qname with
  | (none, host) => (none, { s with host })
  | (some mp, host) =>
    match s.cmp.choose qname with
    | (none, cmp) => (none, { s with host, cmp })
    | (some cp, cmp) =>
      let response := consumeCb cp.callback cp.tag mp.payload.properties mp.body
      let host := if cp.autoAck then host.basicAck codec qname mp.id else host
      (some ⟨cp, qname, mp, response⟩, { s with host, cmp })

variable (matchHeaders : StrMap Bytes → StrMap Bytes → Bool)

/-- The answer is `ok` whenever the exchange exists. Every queue bound to the exchange
gets a task, whether it took the message or not. -/
def basicPublish (s : BrokerServer) (ch : ChannelRef) (visit tasks : Visit Binding)
    (exchangeName : Bytes) (properties : Option BasicProperties) (body : Bytes) :
    Bool × BrokerServer :=
  match s.host.selectExchange exchangeName with
  | none => (false, s)
  | some _ =>
    let (published, _, host) :=
      s.host.publishToExchange codec matchHeaders visit exchangeName properties body
    let pool :=
      if published then
        s.pool ++ (tasks.order (host.bindingsOf exchangeName)).map fun e => ⟨ch, e.1⟩
      else s.pool
    (true, { s with host, pool })

/-- A subscription answers `ok` even when its tag was taken and nothing was registered;
the channel then forgets the consumer it had. -/
def basicConsume (s : BrokerServer) (ch : Channel) (consumerTag queueName : Bytes)
    (autoAck : Bool) : Bool × Channel × BrokerServer :=
  if !s.host.queueMgr.exists? queueName then (false, ch, s)
  else
    let (consumer, cmp) := s.cmp.create consumerTag queueName autoAck ch.ref
    (true, { ch with consumer }, { s with cmp })

def handle (s : BrokerServer) (ch : Channel) (rid cid : Bytes) :
    Call → Response × Channel × BrokerServer
  | .declareExchange exchangeName type durable autoDelete args =>
    let (ok, host) := s.host.declareExchange exchangeName type durable autoDelete args
    (.common rid cid ok, ch, { s with host })
  | .deleteExchange exchangeName =>
    (.common rid cid true, ch, { s with host := s.host.deleteExchange exchangeName })
  | .declareQueue queueName durable exclusive autoDelete args =>
    let (ok, host) := s.host.declareQueue codec queueName durable exclusive autoDelete args
    if !ok then (.common rid cid false, ch, { s with host })
    else (.common rid cid true, ch, { s with host, cmp := s.cmp.initQueueConsumer queueName })
  | .declareQueueWithDlq queueName durable exclusive autoDelete args dlqConfig =>
    let (ok, host) := s.host.declareQueueWithDlq codec queueName durable exclusive autoDelete args
      (dlqConfig.getD {})
    if !ok then (.common rid cid false, ch, { s with host })
    else (.common rid cid true, ch, { s with host, cmp := s.cmp.initQueueConsumer queueName })
  | .deleteQueue queueName =>
    (.common rid cid true, ch, { s with cmp := s.cmp.destroyQueueConsumer queueName
                                        host := s.host.deleteQueue queueName })
  | .bind exchangeName queueName bindingKey =>
    let (ok, host) := s.host.bind exchangeName queueName bindingKey
    (.common rid cid ok, ch, { s with host })
  | .unbind exchangeName queueName =>
    (.common rid cid true, ch, { s with host := s.host.unbind exchangeName queueName })
  | .basicPublish visit tasks exchangeName properties body =>
    let (ok, s) := basicPublish codec matchHeaders s ch.ref visit tasks exchangeName properties body
    (.common rid cid ok, ch, s)
  | .basicAck queueName messageId =>
    (.common rid cid true, ch, { s with host := s.host.basicAck codec queueName messageId })
  | .basicNack visit queueName messageId requeue reason =>
    (.common rid cid true, ch, { s with
      host := s.host.basicNack codec matchHeaders visit queueName messageId requeue reason })
  | .basicConsume consumerTag queueName autoAck =>
    let (ok, ch, s) := s.basicConsume ch consumerTag queueName autoAck
    (.common rid cid ok, ch, s)
  | .basicCancel consumerTag queueName =>
    (.common rid cid true, ch, { s with cmp := s.cmp.remove consumerTag queueName })
  | .basicQuery visit =>
    let (body, host) := s.host.basicQuery codec visit
    (.query rid ch.ref.cid body, ch, { s with host })

/-- `~channel`. -/
def destroyChannel (s : BrokerServer) (ch : Channel) : BrokerServer :=
  match ch.consumer with
  | none => s
  | some consumer => { s with cmp := s.cmp.remove consumer.tag consumer.qname }

def selectChannel (s : BrokerServer) (conn : Nat) (cid : Bytes) : Option Channel :=
  (s.connections.lookup conn).bind fun channels => channels.lookup cid

def putChannel (s : BrokerServer) (conn : Nat) (cid : Bytes) (ch : Channel) : BrokerServer :=
  { s with connections :=
      s.connections.insert conn (((s.connections.lookup conn).getD ∅).insert cid ch) }

/-- A request to an unknown connection or channel is dropped without an answer. -/
def request (s : BrokerServer) (conn : Nat) (rid cid : Bytes) (call : Call) :
    Option Response × BrokerServer :=
  match s.selectChannel conn cid with
  | none => (none, s)
  | some ch =>
    let (response, ch, s) := handle codec matchHeaders s ch rid cid call
    (some response, s.putChannel conn cid ch)

def newConnection (s : BrokerServer) (conn : Nat) : BrokerServer :=
  if (s.connections.lookup conn).isSome then s
  else { s with connections := s.connections.insert conn ∅ }

def deleteConnection (s : BrokerServer) (conn : Nat) : BrokerServer :=
  let channels := (s.connections.lookup conn).getD ∅
  { channels.pairs.foldl (fun s e => s.destroyChannel e.2) s with
    connections := s.connections.erase conn }

def openChannel (s : BrokerServer) (conn : Nat) (rid cid : Bytes) :
    Option Response × BrokerServer :=
  match s.connections.lookup conn with
  | none => (none, s)
  | some channels =>
    if (channels.lookup cid).isSome then (some (.common rid cid false), s)
    else
      (some (.common rid cid true),
        { s.putChannel conn cid { ref := ⟨s.opened, cid⟩ } with opened := s.opened + 1 })

def closeChannel (s : BrokerServer) (conn : Nat) (rid cid : Bytes) :
    Option Response × BrokerServer :=
  match s.connections.lookup conn with
  | none => (none, s)
  | some channels =>
    let s := match channels.lookup cid with
      | none => s
      | some ch => s.destroyChannel ch
    (some (.common rid cid true),
      { s with connections := s.connections.insert conn (channels.erase cid) })

/-- One of the waiting tasks runs. It uses the channel that pushed it, and the callback that of
the subscription: in the source, both have to be there still. -/
def execute (s : BrokerServer) (index : Nat) : Option Delivery × BrokerServer :=
  match s.pool[index]? with
  | none => (none, s)
  | some task => consume codec { s with pool := s.pool.eraseIdx index } task.qname

end Codec

end BrokerServer

/-- What can happen to the broker. The last two come from the management interface. -/
inductive ServerOp
  | newConnection (conn : Nat)
  | deleteConnection (conn : Nat)
  | openChannel (conn : Nat) (rid cid : Bytes)
  | closeChannel (conn : Nat) (rid cid : Bytes)
  | request (conn : Nat) (rid cid : Bytes) (call : Call)
  | execute (index : Nat)
  | queueRuntimeStats (queueName : Bytes)
  | compactQueue (queueName : Bytes)

section Step

variable (codec : Codec) (matchHeaders : StrMap Bytes → StrMap Bytes → Bool)

def ServerOp.apply (s : BrokerServer) : ServerOp → BrokerServer
  | .newConnection conn => s.newConnection conn
  | .deleteConnection conn => s.deleteConnection conn
  | .openChannel conn rid cid => (s.openChannel conn rid cid).2
  | .closeChannel conn rid cid => (s.closeChannel conn rid cid).2
  | .request conn rid cid call => (s.request codec matchHeaders conn rid cid call).2
  | .execute index => (s.execute codec index).2
  | .queueRuntimeStats queueName =>
    { s with host := (s.host.queueRuntimeStats codec queueName).2 }
  | .compactQueue queueName => { s with host := s.host.compactQueue codec queueName }

def BrokerServer.Initial (s : BrokerServer) : Prop :=
  ∃ host : VirtualHost, host.Initial ∧ s = BrokerServer.new host

abbrev BrokerServer.Reachable (s : BrokerServer) : Prop :=
  Machine.Reachable BrokerServer.Initial (ServerOp.apply codec matchHeaders) s

end Step

end HzMq
