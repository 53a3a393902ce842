import HzMq.Common.Queue
import HzMq.Library.Run
import HzMq.Server.QueueMessage
import HzMq.Server.Route

/-!
# The virtual host (`virtual_host.cpp`)

Exchanges, queues, bindings and one message store for each queue. The sources of
`exchange_manager` and of `router::match_headers` are not in the repository: the
first is taken to be a map from names to exchanges, the second is a parameter. A
loop over a map takes the order of its visits as an argument. A
`BasicProperties*` that is changed through the pointer is returned.
-/

namespace HzMq

open FileStream

structure Exchange where
  name : Bytes
  type : ExchangeType
  durable : Bool
  autoDelete : Bool
  args : StrMap Bytes

abbrev MsgQueueBindingMap := StrMap Binding

structure VirtualHost where
  name : Bytes
  baseDir : Bytes
  exchangeMgr : StrMap Exchange
  queueMgr : MsgQueueManager := {}
  exchangeBindings : StrMap MsgQueueBindingMap := ∅
  queueMessages : StrMap QueueMessage := ∅
  /-- The counter behind `generate_id`. -/
  seq : Nat := 0
  fs : FileSystem

namespace VirtualHost

/-- The constructor, on the exchanges that the database holds. No queue is known
at this point, so there is nothing to recover. -/
def new (name baseDir : Bytes) (exchanges : StrMap Exchange) (seq : Nat) (fs : FileSystem) :
    VirtualHost :=
  { name, baseDir, seq, fs
    exchangeMgr :=
      if (exchanges.lookup []).isSome then exchanges
      else exchanges.insert [] ⟨[], .direct, false, false, ∅⟩ }

def generateId (h : VirtualHost) : Bytes × VirtualHost :=
  let seq := (h.seq + 1) % 2 ^ 64
  (toStdString seq, { h with seq })

def selectExchange (h : VirtualHost) (exchangeName : Bytes) : Option Exchange :=
  h.exchangeMgr.lookup exchangeName

/-- As with queues, an existing name answers true and stays as it is. -/
def declareExchange (h : VirtualHost) (exchangeName : Bytes) (type : ExchangeType)
    (durable autoDelete : Bool) (args : StrMap Bytes) : Bool × VirtualHost :=
  if (h.selectExchange exchangeName).isSome then (true, h)
  else
    (true, { h with
      exchangeMgr := h.exchangeMgr.insert exchangeName
        ⟨exchangeName, type, durable, autoDelete, args⟩ })

def deleteExchange (h : VirtualHost) (exchangeName : Bytes) : VirtualHost :=
  { h with
    exchangeBindings := h.exchangeBindings.erase exchangeName
    exchangeMgr := h.exchangeMgr.erase exchangeName }

/-- Both overloads; the shorter one leaves the arguments empty. -/
def bind (h : VirtualHost) (exchangeName queueName bindingKey : Bytes)
    (bindingArgs : StrMap Bytes := ∅) : Bool × VirtualHost :=
  if (h.selectExchange exchangeName).isNone || !h.queueMgr.exists? queueName then (false, h)
  else
    let bindingMap := (h.exchangeBindings.lookup exchangeName).getD ∅
    (true, { h with
      exchangeBindings := h.exchangeBindings.insert exchangeName
        (bindingMap.insert queueName ⟨exchangeName, queueName, bindingKey, bindingArgs⟩) })

def unbind (h : VirtualHost) (exchangeName queueName : Bytes) : VirtualHost :=
  match h.exchangeBindings.lookup exchangeName with
  | none => h
  | some bindingMap =>
    { h with exchangeBindings :=
        h.exchangeBindings.insert exchangeName (bindingMap.erase queueName) }

def bindingsOf (h : VirtualHost) (exchangeName : Bytes) : MsgQueueBindingMap :=
  (h.exchangeBindings.lookup exchangeName).getD ∅

/-- The streams of all stores stay on their files when these get other names. -/
def follow (h : VirtualHost) (newKey : PathKey → PathKey) : VirtualHost :=
  { h with queueMessages := h.queueMessages.mapValues fun store =>
      { store with file := store.file.rekey newKey } }

def withStore (h : VirtualHost) (queueName : Bytes) (store : QueueMessage) (fs : FileSystem) :
    VirtualHost :=
  { h with queueMessages := h.queueMessages.insert queueName store, fs }

section Codec

variable (codec : Codec)

def addStore (h : VirtualHost) (queueName : Bytes) (durable : Bool) : VirtualHost :=
  if (h.queueMessages.lookup queueName).isSome then h
  else
    let (store, fs) := QueueMessage.new h.fs h.baseDir queueName
    h.withStore queueName (if durable then store.recovery codec fs else store) fs

def declareQueue (h : VirtualHost) (queueName : Bytes) (durable exclusive autoDelete : Bool)
    (args : StrMap Bytes) : Bool × VirtualHost :=
  let (ok, queueMgr) := h.queueMgr.declareQueue queueName durable exclusive autoDelete args
  if !ok then (false, h)
  else
    let h := addStore codec { h with queueMgr } queueName durable
    (true, (h.bind [] queueName queueName).2)

def declareQueueWithDlq (h : VirtualHost) (queueName : Bytes) (durable exclusive autoDelete : Bool)
    (args : StrMap Bytes) (dlqConfig : DeadLetterConfig) : Bool × VirtualHost :=
  let (ok, queueMgr) :=
    h.queueMgr.declareQueueWithDlq queueName durable exclusive autoDelete args dlqConfig
  if !ok then (false, h)
  else (true, addStore codec { h with queueMgr } queueName durable)

def deleteQueue (h : VirtualHost) (queueName : Bytes) : VirtualHost :=
  { h with
    queueMessages := h.queueMessages.erase queueName
    queueMgr := h.queueMgr.deleteQueue queueName
    exchangeBindings := h.exchangeBindings.mapValues fun bindingMap => bindingMap.erase queueName }

/-- The durability flag of a queue; an unknown queue is not durable. -/
def isDurable (h : VirtualHost) (queueName : Bytes) : Bool :=
  match h.queueMgr.selectQueue queueName with
  | some info => info.durable
  | none => false

def deliver (h : VirtualHost) (queueName : Bytes) (store : QueueMessage)
    (bp : Option BasicProperties) (body : Bytes) : Bool × VirtualHost :=
  let (ok, store, fs) := store.insert codec h.fs bp body (h.isDurable queueName)
  (ok, h.withStore queueName store fs)

/-- The first change `basic_publish` makes: a given message without an id gets one. -/
def assignId (h : VirtualHost) (bp : Option BasicProperties) :
    Option BasicProperties × VirtualHost :=
  match bp with
  | none => (none, h)
  | some props =>
    if props.id = [] then
      let (id, h) := h.generateId
      (some { props with id }, h)
    else (some props, h)

def basicPublish (h : VirtualHost) (queueName : Bytes) (bp : Option BasicProperties)
    (body : Bytes) : Bool × Option BasicProperties × VirtualHost :=
  match h.queueMessages.lookup queueName with
  | none => (false, bp, h)
  | some store =>
    let (bp, h) := h.assignId bp
    -- a missing argument is replaced by a fresh object the caller never sees
    let props := bp.getD {}
    if props.routingKey ≠ [] ∧ props.routingKey ≠ queueName then (false, bp, h)
    else
      let props := { props with routingKey := queueName }
      let (ok, h) := deliver codec h queueName store (some props) body
      (ok, bp.map fun _ => props, h)

variable (matchHeaders : StrMap Bytes → StrMap Bytes → Bool)

/-- The `switch` over the type of the exchange. -/
def shouldPublish (type : ExchangeType) (routingKey : Bytes) (messageHeaders : StrMap Bytes)
    (binding : Binding) : Bool :=
  match type with
  | .direct => Router.matchRoute .direct routingKey binding.bindingKey
  | .fanout => Router.matchRoute .fanout routingKey binding.bindingKey
  | .topic => Router.matchRoute .topic routingKey binding.bindingKey
  | .headers => matchHeaders messageHeaders binding.bindingArgs
  | .other _ => false

/-- The loop of `publish_to_exchange`: the properties are shared by all targets. -/
def publishLoop (should : Binding → Bool) (body : Bytes) :
    List (Bytes × Binding) → Bool → Option BasicProperties → VirtualHost →
      Bool × Option BasicProperties × VirtualHost
  | [], published, bp, h => (published, bp, h)
  | (queueName, binding) :: rest, published, bp, h =>
    if should binding then
      let (ok, bp, h) := basicPublish codec h queueName bp body
      publishLoop should body rest (published || ok) bp h
    else publishLoop should body rest published bp h

def publishToExchange (visit : Visit Binding) (h : VirtualHost) (exchangeName : Bytes)
    (bp : Option BasicProperties) (body : Bytes) :
    Bool × Option BasicProperties × VirtualHost :=
  match h.selectExchange exchangeName with
  | none => (false, bp, h)
  | some exchange =>
    let bindings := h.bindingsOf exchangeName
    if bindings.entries = [] then (false, bp, h)
    else
      let routingKey := match bp with
        | some props => props.routingKey
        | none => []
      let messageHeaders := match bp with
        | some props => props.headers
        | none => ∅
      publishLoop codec (shouldPublish matchHeaders exchange.type routingKey messageHeaders) body
        (visit.order bindings) false bp h

/-- The loop of `publish_ex`, which inserts without a second look at the key. -/
def publishExLoop (type : ExchangeType) (props : BasicProperties) (body : Bytes) :
    List (Bytes × Binding) → Bool → VirtualHost → Bool × VirtualHost
  | [], delivered, h => (delivered, h)
  | (queueName, binding) :: rest, delivered, h =>
    if !Router.matchRoute type props.routingKey binding.bindingKey then
      publishExLoop type props body rest delivered h
    else
      match h.queueMessages.lookup queueName with
      | none => publishExLoop type props body rest delivered h
      | some store =>
        let (ok, h) := deliver codec h queueName store (some props) body
        publishExLoop type props body rest (delivered || ok) h

def publishEx (visit : Visit Binding) (h : VirtualHost) (exchangeName routingKey : Bytes)
    (bp : Option BasicProperties) (body : Bytes) :
    Bool × Option BasicProperties × VirtualHost :=
  match h.selectExchange exchangeName with
  | none => (false, bp, h)
  | some exchange =>
    let props := bp.getD {}
    let props := if props.routingKey = [] then { props with routingKey } else props
    let (delivered, h) := publishExLoop codec exchange.type props body
      (visit.order (h.bindingsOf exchangeName)) false h
    (delivered, bp.map fun _ => props, h)

/-- `front()` and then `remove` by the id that was found there. -/
def takeFront (h : VirtualHost) (queueName : Bytes) : Option MessagePtr × VirtualHost :=
  match h.queueMessages.lookup queueName with
  | none => (none, h)
  | some store =>
    match store.front with
    | none => (none, h)
    | some msg =>
      let (store, fs) := store.remove codec h.fs msg.id
      (some msg, h.withStore queueName store fs)

def basicConsume (h : VirtualHost) (queueName : Bytes) : Option MessagePtr × VirtualHost :=
  takeFront codec h queueName

def basicConsumeAndRemove (h : VirtualHost) (queueName : Bytes) :
    Option MessagePtr × VirtualHost :=
  takeFront codec h queueName

def basicAck (h : VirtualHost) (queueName msgId : Bytes) : VirtualHost :=
  match h.queueMessages.lookup queueName with
  | none => h
  | some store =>
    let (store, fs) := store.remove codec h.fs msgId
    h.withStore queueName store fs

/-- The properties of a dead letter; the original's are not copied. -/
def dlqProps (id : Bytes) (dlqConfig : DeadLetterConfig) : BasicProperties :=
  { id, deliveryMode := .durable, routingKey := dlqConfig.routingKey }

/-- The last part of `basic_nack`: publish a copy to the dead-letter exchange, then
drop the original. -/
def deadLetter (visit : Visit Binding) (h : VirtualHost) (queueName msgId : Bytes)
    (dlqConfig : DeadLetterConfig) (targetMsg : MessagePtr) : VirtualHost :=
  let (id, h) := h.generateId
  let h :=
    if dlqConfig.exchangeName ≠ [] then
      (publishToExchange codec matchHeaders visit h dlqConfig.exchangeName
        (some (dlqProps id dlqConfig)) targetMsg.body).2.2
    else h
  -- the store is the same object, with whatever the publication added to it
  basicAck codec h queueName msgId

/-- The `reason` is not used. -/
def basicNack (visit : Visit Binding) (h : VirtualHost) (queueName msgId : Bytes)
    (requeue : Bool) (_reason : Bytes) : VirtualHost :=
  match h.queueMessages.lookup queueName with
  | none => h
  | some store =>
    match h.queueMgr.selectQueue queueName with
    | none => h
    | some info =>
      if requeue then h
      else if !info.hasDeadLetterConfig then basicAck codec h queueName msgId
      else
        match store.front with
        | none => h
        | some _ =>
          match store.getAllMessages.find? fun m => m.id == msgId with
          | none => h
          | some targetMsg =>
            deadLetter codec matchHeaders visit h queueName msgId info.dlqConfig targetMsg

def queryTarget : List (Bytes × QueueMessage) → Option (Bytes × QueueMessage × MessagePtr)
  | [] => none
  | (queueName, store) :: rest =>
    if store.getableCount = 0 then queryTarget rest
    else
      match store.front with
      | none => queryTarget rest
      | some msg => some (queueName, store, msg)

def basicQuery (visit : Visit QueueMessage) (h : VirtualHost) : Bytes × VirtualHost :=
  match queryTarget (visit.order h.queueMessages) with
  | none => ([], h)
  | some (queueName, store, msg) =>
    let (store, fs) := store.remove codec h.fs msg.id
    (msg.body, h.withStore queueName store fs)

def queueRuntimeStats (h : VirtualHost) (queueName : Bytes) : QueueMessage.Stats × VirtualHost :=
  match h.queueMessages.lookup queueName with
  | none => ({}, h)
  | some store =>
    let (stats, store) := store.getStats codec h.fs
    (stats, h.withStore queueName store h.fs)

def compactQueue (h : VirtualHost) (queueName : Bytes) : VirtualHost :=
  match h.queueMessages.lookup queueName with
  | none => h
  | some store =>
    let (compacted, fs) := store.compact codec h.fs
    (h.follow (store.follow h.fs)).withStore queueName compacted fs

end Codec

/-- What a queue holds; a queue that does not exist holds nothing. -/
def contents (h : VirtualHost) (queueName : Bytes) : List MessagePtr :=
  match h.queueMessages.lookup queueName with
  | none => []
  | some store => store.msgs

end VirtualHost

inductive HostOp
  | declareExchange (exchangeName : Bytes) (type : ExchangeType) (durable autoDelete : Bool)
      (args : StrMap Bytes)
  | deleteExchange (exchangeName : Bytes)
  | declareQueue (queueName : Bytes) (durable exclusive autoDelete : Bool) (args : StrMap Bytes)
  | declareQueueWithDlq (queueName : Bytes) (durable exclusive autoDelete : Bool)
      (args : StrMap Bytes) (dlqConfig : DeadLetterConfig)
  | deleteQueue (queueName : Bytes)
  | bind (exchangeName queueName bindingKey : Bytes) (bindingArgs : StrMap Bytes)
  | unbind (exchangeName queueName : Bytes)
  | basicPublish (queueName : Bytes) (bp : Option BasicProperties) (body : Bytes)
  | publishToExchange (visit : Visit Binding) (exchangeName : Bytes)
      (bp : Option BasicProperties) (body : Bytes)
  | publishEx (visit : Visit Binding) (exchangeName routingKey : Bytes)
      (bp : Option BasicProperties) (body : Bytes)
  | basicConsume (queueName : Bytes)
  | basicConsumeAndRemove (queueName : Bytes)
  | basicAck (queueName msgId : Bytes)
  | basicNack (visit : Visit Binding) (queueName msgId : Bytes) (requeue : Bool) (reason : Bytes)
  | basicQuery (visit : Visit QueueMessage)
  | queueRuntimeStats (queueName : Bytes)
  | compactQueue (queueName : Bytes)

section Step

variable (codec : Codec) (matchHeaders : StrMap Bytes → StrMap Bytes → Bool)

def HostOp.apply (h : VirtualHost) : HostOp → VirtualHost
  | .declareExchange name type durable autoDelete args =>
    (h.declareExchange name type durable autoDelete args).2
  | .deleteExchange name => h.deleteExchange name
  | .declareQueue name durable exclusive autoDelete args =>
    (h.declareQueue codec name durable exclusive autoDelete args).2
  | .declareQueueWithDlq name durable exclusive autoDelete args config =>
    (h.declareQueueWithDlq codec name durable exclusive autoDelete args config).2
  | .deleteQueue name => h.deleteQueue name
  | .bind exchange queue key args => (h.bind exchange queue key args).2
  | .unbind exchange queue => h.unbind exchange queue
  | .basicPublish queue bp body => (h.basicPublish codec queue bp body).2.2
  | .publishToExchange visit exchange bp body =>
    (h.publishToExchange codec matchHeaders visit exchange bp body).2.2
  | .publishEx visit exchange key bp body => (h.publishEx codec visit exchange key bp body).2.2
  | .basicConsume queue => (h.basicConsume codec queue).2
  | .basicConsumeAndRemove queue => (h.basicConsumeAndRemove codec queue).2
  | .basicAck queue id => h.basicAck codec queue id
  | .basicNack visit queue id requeue reason =>
    h.basicNack codec matchHeaders visit queue id requeue reason
  | .basicQuery visit => (h.basicQuery codec visit).2
  | .queueRuntimeStats queue => (h.queueRuntimeStats codec queue).2
  | .compactQueue queue => h.compactQueue codec queue

/-- A host right after construction, whatever the database and the disk hold. -/
def VirtualHost.Initial (h : VirtualHost) : Prop :=
  ∃ name baseDir exchanges seq fs, h = VirtualHost.new name baseDir exchanges seq fs

def VirtualHost.blank : VirtualHost :=
  .new (str "TestHost") (str "d") ∅ 0 (.blank 4096 (by decide))

theorem VirtualHost.blank_initial : VirtualHost.blank.Initial := ⟨_, _, _, _, _, rfl⟩

abbrev VirtualHost.Reachable (h : VirtualHost) : Prop :=
  Machine.Reachable VirtualHost.Initial (HostOp.apply codec matchHeaders) h

end Step

end HzMq
