import HzMq.Delivery.Identifiers
import HzMq.Service.Refinement

/-!
# A service that remembers

The service of the host together with a memory in place of the disk. What the durable
queues hold is remembered, name by name, and a durable declaration starts with what is
remembered under its name. A new process has forgotten everything else, also which
queues there were. A deletion forgets the queue and not what it held.
-/

namespace HzMq

open VirtualHost Delivery

structure DurableService where
  service : Service
  durable : Bytes → Bool
  memory : Bytes → List Letter

namespace DurableService

variable (t : DurableService)

def recalled (queueName : Bytes) (durable : Bool) : List Letter :=
  if durable then t.memory queueName else []

/-- Who is durable after a declaration: a queue that is there stays as it is. -/
def declare (queueName : Bytes) (durable : Bool) : Bytes → Bool :=
  if (t.service.queues queueName).isSome then t.durable
  else Function.update t.durable queueName durable

/-- One step of the service; then the letters of the durable queues are remembered. -/
def follow (matchHeaders : StrMap Bytes → StrMap Bytes → Bool) (op : ServiceOp)
    (durable : Bytes → Bool) : List ServiceAnswer × DurableService :=
  let after := op.act matchHeaders t.service
  (after.1,
    { service := after.2, durable
      memory := fun queueName =>
        if durable queueName then after.2.letters queueName else t.memory queueName })

def restart (exchanges : Bytes → Option ExchangeType) (seq : Nat) : DurableService where
  service :=
    { exchanges, queues := fun _ => none, bindings := ∅, letters := fun _ => [], seq }
  durable _ := false
  memory := t.memory

end DurableService

inductive DurableOp
  | declareQueue (queueName : Bytes) (durable : Bool)
  | declareQueueWithDlq (queueName : Bytes) (durable : Bool) (target : DeadLetterTarget)
  | deleteQueue (queueName : Bytes)
  /-- Any operation that neither makes nor deletes a queue. -/
  | serve (op : ServiceOp)
  | restart (exchanges : Bytes → Option ExchangeType) (seq : Nat)

def DurableOp.act (matchHeaders : StrMap Bytes → StrMap Bytes → Bool) (t : DurableService) :
    DurableOp → List ServiceAnswer × DurableService
  | .declareQueue queueName durable =>
    t.follow matchHeaders (.declareQueue queueName (t.recalled queueName durable))
      (t.declare queueName durable)
  | .declareQueueWithDlq queueName durable target =>
    t.follow matchHeaders (.declareQueueWithDlq queueName target (t.recalled queueName durable))
      (t.declare queueName durable)
  | .deleteQueue queueName =>
    t.follow matchHeaders (.deleteQueue queueName) (Function.update t.durable queueName false)
  | .serve op => t.follow matchHeaders op t.durable
  | .restart exchanges seq => ([], t.restart exchanges seq)

namespace Delivery.LifeOp

variable (codec : Codec) (matchHeaders : StrMap Bytes → StrMap Bytes → Bool)

def reads (h : VirtualHost) : LifeOp → Option DurableOp
  | .host (.declareQueue queueName durable _ _ _) => some (.declareQueue queueName durable)
  | .host (.declareQueueWithDlq queueName durable _ _ _ config) =>
    some (.declareQueueWithDlq queueName durable ⟨config.exchangeName, config.routingKey⟩)
  | .host (.deleteQueue queueName) => some (.deleteQueue queueName)
  | .host op => (op.reads codec h).map .serve
  | .restart name exchanges seq =>
    some (.restart (VirtualHost.new name h.baseDir exchanges seq h.fs).service.exchanges seq)

def act (h : VirtualHost) (op : LifeOp) : List ServiceAnswer × VirtualHost :=
  (match op with
    | .host op => op.answers codec matchHeaders h
    | .restart _ _ _ => [], op.apply codec matchHeaders h)

end Delivery.LifeOp

end HzMq
