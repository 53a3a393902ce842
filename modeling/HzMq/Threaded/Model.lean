import HzMq.Liveness.TaskExecution
import HzMq.Service.Noninterference

/-!
# The broker and its threads (`broker_server.cpp`, `channel.cpp`, `thread_pool.cpp`)

The network's thread handles one message at a time: it changes the tables, pushes the
tasks of a publication one by one and sends the reply last, while the workers of the
thread pool already take and execute tasks. Management requests come in on a thread of
their own. A consume task is as many steps as it makes calls; no lock is held from one
of them to the next.
-/

namespace HzMq

inductive Thread
  | network
  | worker
  | management
  deriving DecidableEq

def ServerOp.thread : ServerOp → Thread
  | .execute _ => .worker
  | .queueRuntimeStats _ => .management
  | .compactQueue _ => .management
  | _ => .network

def Shown.isReply : Shown → Bool
  | .reply .. => true
  | .message .. => false

/-- A message is shown when the callback sends it. -/
def Delivery.shown (d : Delivery) : Shown := .message d.consumer.callback d.response

/-- How far a consume task is, and what it holds. -/
inductive Stage
  /-- `front` has returned the message, which is still in the queue. -/
  | looked (mp : MessagePtr)
  | removed (mp : MessagePtr)
  | chosen (mp : MessagePtr) (cp : Consumer)
  /-- The callback has sent the message. -/
  | called (mp : MessagePtr) (cp : Consumer)
  | returning

def Stage.isReturning : Stage → Bool
  | .returning => true
  | _ => false

namespace BrokerServer

variable (s : BrokerServer)

def withPool (pool : List Task) : BrokerServer := { s with pool }

def look (qname : Bytes) : Stage :=
  match (s.host.queueMessages.lookup qname).bind QueueMessage.front with
  | none => .returning
  | some mp => .looked mp

/-- The next call. A message is removed as `basic_ack` does it. -/
def advance (codec : Codec) (qname : Bytes) : Stage → List Shown × Stage × BrokerServer
  | .looked mp => ([], .removed mp, { s with host := s.host.basicAck codec qname mp.id })
  | .removed mp =>
    match s.cmp.choose qname with
    | (none, cmp) => ([], .returning, { s with cmp })
    | (some cp, cmp) => ([], .chosen mp cp, { s with cmp })
  | .chosen mp cp =>
    ([.message cp.callback (consumeCb cp.callback cp.tag mp.payload.properties mp.body)],
      .called mp cp, s)
  | .called mp cp =>
    ([], .returning, if cp.autoAck then { s with host := s.host.basicAck codec qname mp.id } else s)
  | .returning => ([], .returning, s)

end BrokerServer

def ThreadPool.Action.byPool {α : Type*} : ThreadPool.Action α → Bool
  | .push _ | .destroy => false
  | _ => true

structure Begun where
  worker : Nat
  task : Task
  stage : Stage

/-- The tasks are in the thread pool, and not in the broker's own list. -/
structure ThreadedBroker where
  broker : BrokerServer
  pool : ThreadPool Task
  inside : List Begun := []
  /-- What the handler in progress has yet to push, and then to send. -/
  toPush : List Task := []
  toSend : List Shown := []
  noTasks : broker.pool = []

inductive ThreadedOp
  | handle (op : ServerOp)
  | push
  | send
  /-- A worker makes the next call of its task. -/
  | consume (worker : Nat)
  | work (action : ThreadPool.Action Task)

namespace ThreadedBroker

/-- The server leaves the number of workers to the machine. -/
def new (host : VirtualHost) (hardwareConcurrency : Nat) : ThreadedBroker where
  broker := .new host
  pool := .new 0 hardwareConcurrency
  noTasks := rfl

variable (s : ThreadedBroker)

def busy : Bool := !(s.toPush.isEmpty && s.toSend.isEmpty)

def ready (op : ServerOp) : Bool :=
  match op.thread with
  | .network => !s.busy
  | .worker => false
  | .management => true

def waiting : List Task := s.pool.inHand ++ s.pool.tasks ++ s.toPush

def begun : List Task := s.inside.map Begun.task

def insideOf (worker : Nat) : Option Begun := s.inside.find? fun e => e.worker = worker

/-- A worker returns from its task after the last call. -/
def permits : ThreadPool.Action Task → Bool
  | .finish worker => (s.insideOf worker).any fun e => e.stage.isReturning
  | action => action.byPool

section Act

variable (codec : Codec) (matchHeaders : StrMap Bytes → StrMap Bytes → Bool)

def handle (op : ServerOp) : ThreadedBroker :=
  let (shown, broker) := op.act codec matchHeaders s.broker
  { s with
    broker := broker.withPool []
    toPush := s.toPush ++ broker.pool
    toSend := s.toSend ++ shown
    noTasks := rfl }

def push : ThreadedBroker :=
  match s.toPush with
  | [] => s
  | task :: rest => { s with pool := (s.pool.push task).2, toPush := rest }

def send : List Shown × ThreadedBroker :=
  if s.toPush.isEmpty then (s.toSend, { s with toSend := [] }) else ([], s)

def begin (worker : Nat) : ThreadedBroker :=
  match s.pool.threads[worker]? with
  | some (.running task) =>
    { s with inside := ⟨worker, task, s.broker.look task.qname⟩ :: s.inside }
  | _ => s

def proceed (e : Begun) : List Shown × ThreadedBroker :=
  let (shown, stage, broker) := s.broker.advance codec e.task.qname e.stage
  (shown, { s with
    broker := broker.withPool []
    inside := s.inside.map fun b => if b.worker = e.worker then { b with stage } else b
    noTasks := rfl })

def consume (worker : Nat) : List Shown × ThreadedBroker :=
  match s.insideOf worker with
  | none => ([], s.begin worker)
  | some e => s.proceed codec e

def work (action : ThreadPool.Action Task) : ThreadedBroker :=
  match s.pool.step action with
  | none => s
  | some (.executed worker _, pool) =>
    { s with pool, inside := s.inside.filter fun e => e.worker ≠ worker }
  | some (_, pool) => { s with pool }

/-- A step that is not possible changes nothing. -/
def act (s : ThreadedBroker) : ThreadedOp → List Shown × ThreadedBroker
  | .handle op => ([], if s.ready op then s.handle codec matchHeaders op else s)
  | .push => ([], s.push)
  | .send => s.send
  | .consume worker => s.consume codec worker
  | .work action => ([], if s.permits action then s.work action else s)

end Act

def input (s : ThreadedBroker) : ThreadedOp → Option ServerOp
  | .handle op => if s.ready op then some op else none
  | _ => none

/-- From the first call of a consume task until its worker returns, no other thread gets at the
tables. Nothing in the source sees to that. -/
def Undisturbed (s : ThreadedBroker) : ThreadedOp → Prop
  | .handle _ => s.inside.isEmpty = true
  | .consume worker => ∀ e ∈ s.inside, e.worker = worker
  | _ => True

instance (s : ThreadedBroker) (a : ThreadedOp) : Decidable (s.Undisturbed a) := by
  cases a <;> unfold Undisturbed <;> infer_instance

end ThreadedBroker

def ServerOp.outside (op : ServerOp) : Option ServerOp :=
  if op.thread = .worker then none else some op

end HzMq
