import HzMq.Common.StdString

/-!
# Queue metadata (`queue.hpp`, `queue.cpp`)

The mapper keeps nothing on disk: `insert` always answers true and `all` is
empty, so after a start no queue is known.
-/

namespace HzMq

structure DeadLetterConfig where
  exchangeName : Bytes := []
  routingKey : Bytes := []
  maxRetries : UInt32 := 3
  deriving DecidableEq

structure MsgQueue where
  name : Bytes := []
  durable : Bool := false
  exclusive : Bool := false
  autoDelete : Bool := false
  args : StrMap Bytes := ∅
  dlqConfig : DeadLetterConfig := {}
  deriving DecidableEq

def MsgQueue.hasDeadLetterConfig (q : MsgQueue) : Bool := q.dlqConfig.exchangeName ≠ []

def MsgQueue.setDeadLetterConfig (q : MsgQueue) (config : DeadLetterConfig) : MsgQueue :=
  { q with dlqConfig := config }

namespace MsgQueue

def ampersand : UInt8 := 38

def equals : UInt8 := 61

/-- A pair without an `=` is passed over; a key that comes again gets the later value. -/
def readPair (args : StrMap Bytes) (pair : Bytes) : StrMap Bytes :=
  match findChar pair equals 0 with
  | none => args
  | some eq => args.insert (substr pair 0 eq) (pair.drop (eq + 1))

def setArgsLoop (strArgs : Bytes) : Nat → StrMap Bytes → Nat → StrMap Bytes
  | 0, args, _ => args
  | fuel + 1, args, start =>
    if start < strArgs.length then
      match findChar strArgs ampersand start with
      | none => readPair args (strArgs.drop start)
      | some pos =>
        setArgsLoop strArgs fuel (readPair args (substr strArgs start (pos - start))) (pos + 1)
    else args

def setArgs (q : MsgQueue) (strArgs : Bytes) : MsgQueue :=
  { q with args := setArgsLoop strArgs strArgs.length q.args 0 }

def getArgsLoop (result : Bytes) : List (Bytes × Bytes) → Bytes
  | [] => result
  | (key, value) :: rest =>
    let result := result ++ (key ++ str "=" ++ value)
    getArgsLoop (if rest ≠ [] then result ++ str "&" else result) rest

def getArgs (q : MsgQueue) (visit : Visit Bytes) : Bytes := getArgsLoop [] (visit.order q.args)

example : (setArgs {} (str "key1=value1&&key2=v=2&key1=value3&x")).args.pairs =
    [(str "key1", str "value3"), (str "key2", str "v=2")] := by decide

end MsgQueue

namespace MsgQueueMapper

def insert (_ : MsgQueue) : Bool := true

def all : StrMap MsgQueue := ∅

end MsgQueueMapper

structure MsgQueueManager where
  msgQueues : StrMap MsgQueue := MsgQueueMapper.all

namespace MsgQueueManager

def selectQueue (mgr : MsgQueueManager) (name : Bytes) : Option MsgQueue :=
  mgr.msgQueues.lookup name

def exists? (mgr : MsgQueueManager) (name : Bytes) : Bool := (mgr.msgQueues.lookup name).isSome

/-- The body both declarations share: an existing name answers true and keeps
its attributes. -/
def declare (mgr : MsgQueueManager) (name : Bytes) (q : MsgQueue) : Bool × MsgQueueManager :=
  if mgr.exists? name then (true, mgr)
  else if q.durable && !MsgQueueMapper.insert q then (false, mgr)
  else (true, ⟨mgr.msgQueues.insert name q⟩)

def declareQueue (mgr : MsgQueueManager) (name : Bytes) (durable exclusive autoDelete : Bool)
    (args : StrMap Bytes) : Bool × MsgQueueManager :=
  mgr.declare name { name, durable, exclusive, autoDelete, args }

def declareQueueWithDlq (mgr : MsgQueueManager) (name : Bytes)
    (durable exclusive autoDelete : Bool) (args : StrMap Bytes) (config : DeadLetterConfig) :
    Bool × MsgQueueManager :=
  mgr.declare name
    (MsgQueue.setDeadLetterConfig { name, durable, exclusive, autoDelete, args } config)

def deleteQueue (mgr : MsgQueueManager) (name : Bytes) : MsgQueueManager :=
  ⟨mgr.msgQueues.erase name⟩

structure QueueStatus where
  exists? : Bool := false
  durable : Bool := false
  exclusive : Bool := false
  autoDelete : Bool := false
  args : StrMap Bytes := ∅
  deriving DecidableEq

def getQueueStatus (mgr : MsgQueueManager) (name : Bytes) : QueueStatus :=
  match mgr.msgQueues.lookup name with
  | none => {}
  | some q => ⟨true, q.durable, q.exclusive, q.autoDelete, q.args⟩

/-- As the mapper accepts every queue, so does the manager. -/
@[simp] theorem declare_fst (mgr : MsgQueueManager) (name : Bytes) (q : MsgQueue) :
    (mgr.declare name q).1 = true := by
  unfold declare
  split
  · rfl
  · simp [MsgQueueMapper.insert]

theorem exists?_declare (mgr : MsgQueueManager) (name other : Bytes) (q : MsgQueue) :
    (mgr.declare name q).2.exists? other = (decide (other = name) || mgr.exists? other) := by
  unfold declare
  by_cases known : mgr.exists? name = true
  · rw [if_pos known]
    by_cases same : other = name
    · subst same
      simp [known]
    · simp [same]
  · rw [if_neg known]
    by_cases same : other = name
    · subst same
      simp [MsgQueueMapper.insert, exists?]
    · simp [MsgQueueMapper.insert, exists?, same, AList.lookup_insert_ne]

/-- A known queue keeps its attributes, whatever is declared. -/
theorem selectQueue_declare {mgr : MsgQueueManager} {name : Bytes} {info : MsgQueue}
    (known : mgr.selectQueue name = some info) (other : Bytes) (q : MsgQueue) :
    (mgr.declare other q).2.selectQueue name = some info := by
  unfold declare
  split
  · exact known
  next unknown =>
    have differs : name ≠ other := by
      rintro rfl
      exact unknown (Option.isSome_of_eq_some known)
    simpa [MsgQueueMapper.insert, selectQueue, AList.lookup_insert_ne differs] using known

theorem exists?_deleteQueue (mgr : MsgQueueManager) (name other : Bytes) :
    (mgr.deleteQueue name).exists? other = (decide (other ≠ name) && mgr.exists? other) := by
  by_cases same : other = name
  · subst same
    simp [deleteQueue, exists?]
  · simp [deleteQueue, exists?, same, AList.lookup_erase_ne]

end MsgQueueManager

/-- `binding.hpp`: the arguments matter for headers exchanges only. -/
structure Binding where
  exchangeName : Bytes
  queueName : Bytes
  bindingKey : Bytes
  bindingArgs : StrMap Bytes := ∅
  deriving DecidableEq

end HzMq
