import HzMq.Server.VirtualHost.Publish

/-!
# What a virtual host is for

The service behind the virtual host, without disk and without attributes: names of
exchanges with their types, names of queues with the place their dead letters go
to, bindings, and for each queue a list of letters. A publication is one step, not
a loop: it says which queues receive the message and what they receive.
-/

namespace HzMq

open VirtualHost

/-- What there is to see of a message. -/
structure Letter where
  properties? : Option BasicProperties
  body : Bytes
  deriving DecidableEq

namespace Letter

def id (l : Letter) : Bytes := (l.properties?.getD {}).id

/-- The letters that are left when one is removed by an id; the empty id means the first. -/
def remove (letters : List Letter) (id : Bytes) : List Letter :=
  if id = [] then letters.tail else letters.eraseP fun l => l.id == id

end Letter

structure DeadLetterTarget where
  exchangeName : Bytes
  routingKey : Bytes
  deriving DecidableEq

@[ext] structure Service where
  exchanges : Bytes → Option ExchangeType
  queues : Bytes → Option DeadLetterTarget
  bindings : StrMap MsgQueueBindingMap
  letters : Bytes → List Letter
  /-- The last number that was given out as an id. -/
  seq : Nat

namespace Service

variable (t : Service)

def nextId : Bytes := toStdString ((t.seq + 1) % 2 ^ 64)

def advance : Service := { t with seq := (t.seq + 1) % 2 ^ 64 }

def bindingsOf (exchangeName : Bytes) : MsgQueueBindingMap :=
  (t.bindings.lookup exchangeName).getD ∅

def declareExchange (exchangeName : Bytes) (type : ExchangeType) : Service :=
  if (t.exchanges exchangeName).isSome then t
  else { t with exchanges := Function.update t.exchanges exchangeName (some type) }

def deleteExchange (exchangeName : Bytes) : Service :=
  { t with
    exchanges := Function.update t.exchanges exchangeName none
    bindings := t.bindings.erase exchangeName }

def bind (exchangeName queueName bindingKey : Bytes) (bindingArgs : StrMap Bytes) :
    Bool × Service :=
  if (t.exchanges exchangeName).isNone || (t.queues queueName).isNone then (false, t)
  else
    (true, { t with
      bindings := t.bindings.insert exchangeName ((t.bindingsOf exchangeName).insert queueName
        ⟨exchangeName, queueName, bindingKey, bindingArgs⟩) })

def unbind (exchangeName queueName : Bytes) : Service :=
  match t.bindings.lookup exchangeName with
  | none => t
  | some bindingMap =>
    { t with bindings := t.bindings.insert exchangeName (bindingMap.erase queueName) }

def addQueue (queueName : Bytes) (target : DeadLetterTarget) (kept : List Letter) : Service :=
  if (t.queues queueName).isSome then t
  else
    { t with
      queues := Function.update t.queues queueName (some target)
      letters := Function.update t.letters queueName kept }

def deleteQueue (queueName : Bytes) : Service :=
  { t with
    queues := Function.update t.queues queueName none
    letters := Function.update t.letters queueName []
    bindings := t.bindings.mapValues fun bindingMap => bindingMap.erase queueName }

def post (receivers : List Bytes) (letter : Bytes → Letter) : Service :=
  { t with
    letters := fun queueName =>
      if queueName ∈ receivers then t.letters queueName ++ [letter queueName]
      else t.letters queueName }

def idFor : Option BasicProperties → Bytes
  | none => []
  | some props => if props.id = [] then t.nextId else props.id

def letterFor (bp : Option BasicProperties) (body queueName : Bytes) : Letter :=
  ⟨some { bp.getD {} with id := t.idFor bp, routingKey := queueName }, body⟩

/-- A publication counts an id when the message comes without one and some queue is tried. -/
def counts (bp : Option BasicProperties) (tried : Bool) : Bool :=
  tried && bp.any fun props => props.id = []

def publishQueue (queueName : Bytes) (bp : Option BasicProperties) (body : Bytes) :
    Bool × Service :=
  if (t.queues queueName).isNone then (false, t)
  else
    let receivers :=
      if acceptsKey (bp.map BasicProperties.routingKey) queueName then [queueName] else []
    let t' := t.post receivers (t.letterFor bp body)
    (!receivers.isEmpty, if counts bp true then t'.advance else t')

section Publish

variable (matchHeaders : StrMap Bytes → StrMap Bytes → Bool)

def matching (type : ExchangeType) (bp : Option BasicProperties) : Binding → Bool :=
  shouldPublish matchHeaders type (routingKeyOf bp) (headersOf bp)

def publish (visit : Visit Binding) (exchangeName : Bytes) (bp : Option BasicProperties)
    (body : Bytes) : Bool × Service :=
  match t.exchanges exchangeName with
  | none => (false, t)
  | some type =>
    let entries := visit.order (t.bindingsOf exchangeName)
    let receivers :=
      accepted (matching matchHeaders type bp) (bp.map BasicProperties.routingKey) entries
    let t' := t.post receivers (t.letterFor bp body)
    (!receivers.isEmpty,
      if counts bp (entries.any fun e => matching matchHeaders type bp e.2) then t'.advance
      else t')

/-- `publish_ex` numbers nothing and leaves the key as it is. -/
def publishEx (visit : Visit Binding) (exchangeName routingKey : Bytes)
    (bp : Option BasicProperties) (body : Bytes) : Bool × Service :=
  match t.exchanges exchangeName with
  | none => (false, t)
  | some type =>
    let props := exProps bp routingKey
    let receivers :=
      followed type props.routingKey (visit.order (t.bindingsOf exchangeName))
    (!receivers.isEmpty, t.post receivers fun _ => ⟨some props, body⟩)

def take (queueName : Bytes) : Option Letter × Service :=
  ((t.letters queueName).head?,
    { t with letters := Function.update t.letters queueName (t.letters queueName).tail })

def ack (queueName id : Bytes) : Service :=
  { t with
    letters := Function.update t.letters queueName (Letter.remove (t.letters queueName) id) }

/-- A rejected message is dropped, or goes on as a new message under a new id. -/
def nack (visit : Visit Binding) (queueName id : Bytes) (requeue : Bool) : Service :=
  match t.queues queueName with
  | none => t
  | some target =>
    if requeue then t
    else if target.exchangeName = [] then t.ack queueName id
    else
      match (t.letters queueName).find? fun l => l.id == id with
      | none => t
      | some letter =>
        let props : BasicProperties :=
          { id := t.nextId, deliveryMode := .durable, routingKey := target.routingKey }
        (t.advance.publish matchHeaders visit target.exchangeName (some props) letter.body).2.ack
          queueName id

end Publish

def query (names : List Bytes) : Bytes × Service :=
  match names.find? fun queueName => !(t.letters queueName).isEmpty with
  | none => ([], t)
  | some queueName =>
    let taken := t.take queueName
    ((taken.1.map Letter.body).getD [], taken.2)

end Service

inductive ServiceOp
  | declareExchange (exchangeName : Bytes) (type : ExchangeType)
  | deleteExchange (exchangeName : Bytes)
  | declareQueue (queueName : Bytes) (kept : List Letter)
  | declareQueueWithDlq (queueName : Bytes) (target : DeadLetterTarget) (kept : List Letter)
  | deleteQueue (queueName : Bytes)
  | bind (exchangeName queueName bindingKey : Bytes) (bindingArgs : StrMap Bytes)
  | unbind (exchangeName queueName : Bytes)
  | publishQueue (queueName : Bytes) (bp : Option BasicProperties) (body : Bytes)
  | publish (visit : Visit Binding) (exchangeName : Bytes) (bp : Option BasicProperties)
      (body : Bytes)
  | publishEx (visit : Visit Binding) (exchangeName routingKey : Bytes)
      (bp : Option BasicProperties) (body : Bytes)
  | take (queueName : Bytes)
  | ack (queueName id : Bytes)
  | nack (visit : Visit Binding) (queueName id : Bytes) (requeue : Bool)
  | query (names : List Bytes)

inductive ServiceAnswer
  | done (ok : Bool)
  | letter (letter? : Option Letter)
  | text (body : Bytes)
  deriving DecidableEq

def ServiceOp.act (matchHeaders : StrMap Bytes → StrMap Bytes → Bool) (t : Service) :
    ServiceOp → List ServiceAnswer × Service
  | .declareExchange exchangeName type => ([.done true], t.declareExchange exchangeName type)
  | .deleteExchange exchangeName => ([], t.deleteExchange exchangeName)
  | .declareQueue queueName kept =>
    ([.done true], ((t.addQueue queueName ⟨[], []⟩ kept).bind [] queueName queueName ∅).2)
  | .declareQueueWithDlq queueName target kept =>
    ([.done true], t.addQueue queueName target kept)
  | .deleteQueue queueName => ([], t.deleteQueue queueName)
  | .bind exchangeName queueName bindingKey bindingArgs =>
    let (ok, t) := t.bind exchangeName queueName bindingKey bindingArgs
    ([.done ok], t)
  | .unbind exchangeName queueName => ([], t.unbind exchangeName queueName)
  | .publishQueue queueName bp body =>
    let (ok, t) := t.publishQueue queueName bp body
    ([.done ok], t)
  | .publish visit exchangeName bp body =>
    let (ok, t) := t.publish matchHeaders visit exchangeName bp body
    ([.done ok], t)
  | .publishEx visit exchangeName routingKey bp body =>
    let (ok, t) := t.publishEx visit exchangeName routingKey bp body
    ([.done ok], t)
  | .take queueName =>
    let (letter?, t) := t.take queueName
    ([.letter letter?], t)
  | .ack queueName id => ([], t.ack queueName id)
  | .nack visit queueName id requeue => ([], t.nack matchHeaders visit queueName id requeue)
  | .query names =>
    let (body, t) := t.query names
    ([.text body], t)

end HzMq
