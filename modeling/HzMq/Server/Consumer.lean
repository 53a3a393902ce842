import HzMq.Common.StdTypes

/-!
# Consumers (`consumer.cpp`)

Each queue has its list of consumers, which are chosen in turn. A callback is
known by the channel object it is bound to.
-/

namespace HzMq

/-- A channel's `this`, and the id that the object keeps. -/
structure ChannelRef where
  addr : Nat
  cid : Bytes
  deriving DecidableEq

structure Consumer where
  tag : Bytes
  qname : Bytes
  autoAck : Bool
  /-- The channel whose `consume_cb` is called. -/
  callback : ChannelRef
  deriving DecidableEq

structure QueueConsumer where
  qname : Bytes
  rrIndex : Nat := 0
  consumers : List Consumer := []

namespace QueueConsumer

/-- A tag is registered once; a second registration answers null. -/
def create (qc : QueueConsumer) (ctag queueName : Bytes) (ackFlag : Bool) (cb : ChannelRef) :
    Option Consumer × QueueConsumer :=
  if qc.consumers.any fun c => c.tag == ctag then (none, qc)
  else
    let newConsumer : Consumer := ⟨ctag, queueName, ackFlag, cb⟩
    (some newConsumer, { qc with consumers := qc.consumers ++ [newConsumer] })

def remove (qc : QueueConsumer) (ctag : Bytes) : QueueConsumer :=
  { qc with consumers := qc.consumers.eraseP fun c => c.tag == ctag }

/-- The index is taken modulo the size before and after it is advanced. -/
def rrChoose (qc : QueueConsumer) : Option Consumer × QueueConsumer :=
  if qc.consumers = [] then (none, qc)
  else
    (qc.consumers[qc.rrIndex % qc.consumers.length]?,
      { qc with rrIndex := (qc.rrIndex + 1) % qc.consumers.length })

def empty (qc : QueueConsumer) : Bool := qc.consumers.isEmpty

def exists? (qc : QueueConsumer) (ctag : Bytes) : Bool := qc.consumers.any fun c => c.tag == ctag

def clear (qc : QueueConsumer) : QueueConsumer := { qc with consumers := [], rrIndex := 0 }

theorem rrChoose_isSome {qc : QueueConsumer} (registered : qc.consumers ≠ []) :
    qc.rrChoose.1.isSome := by
  have positive := List.length_pos_iff.mpr registered
  simp [rrChoose, registered, Nat.mod_lt _ positive]

theorem rrChoose_mem {qc : QueueConsumer} {c : Consumer} (chosen : qc.rrChoose.1 = some c) :
    c ∈ qc.consumers := by
  unfold rrChoose at chosen
  split at chosen
  · cases chosen
  · exact List.mem_of_getElem? chosen

end QueueConsumer

structure ConsumerManager where
  queueConsumers : StrMap QueueConsumer := ∅

namespace ConsumerManager

def initQueueConsumer (mgr : ConsumerManager) (qname : Bytes) : ConsumerManager :=
  if (mgr.queueConsumers.lookup qname).isNone then
    ⟨mgr.queueConsumers.insert qname { qname }⟩
  else mgr

def destroyQueueConsumer (mgr : ConsumerManager) (qname : Bytes) : ConsumerManager :=
  ⟨mgr.queueConsumers.erase qname⟩

def create (mgr : ConsumerManager) (ctag queueName : Bytes) (ackFlag : Bool) (cb : ChannelRef) :
    Option Consumer × ConsumerManager :=
  match mgr.queueConsumers.lookup queueName with
  | none => (none, mgr)
  | some qc =>
    let (consumer, qc) := qc.create ctag queueName ackFlag cb
    (consumer, ⟨mgr.queueConsumers.insert queueName qc⟩)

def remove (mgr : ConsumerManager) (ctag queueName : Bytes) : ConsumerManager :=
  match mgr.queueConsumers.lookup queueName with
  | none => mgr
  | some qc => ⟨mgr.queueConsumers.insert queueName (qc.remove ctag)⟩

def choose (mgr : ConsumerManager) (queueName : Bytes) : Option Consumer × ConsumerManager :=
  match mgr.queueConsumers.lookup queueName with
  | none => (none, mgr)
  | some qc =>
    let (consumer, qc) := qc.rrChoose
    (consumer, ⟨mgr.queueConsumers.insert queueName qc⟩)

def consumersOf (mgr : ConsumerManager) (queueName : Bytes) : List Consumer :=
  ((mgr.queueConsumers.lookup queueName).map QueueConsumer.consumers).getD []

section Known

variable (mgr : ConsumerManager) (queueName : Bytes)

theorem isSome_initQueueConsumer (other : Bytes) :
    ((mgr.initQueueConsumer queueName).queueConsumers.lookup other).isSome =
      (decide (other = queueName) || (mgr.queueConsumers.lookup other).isSome) := by
  unfold initQueueConsumer
  by_cases same : other = queueName
  · subst same
    cases found : mgr.queueConsumers.lookup other <;> simp [found]
  · split <;> simp [same, AList.lookup_insert_ne]

theorem isSome_destroyQueueConsumer (other : Bytes) :
    ((mgr.destroyQueueConsumer queueName).queueConsumers.lookup other).isSome =
      (decide (other ≠ queueName) && (mgr.queueConsumers.lookup other).isSome) := by
  by_cases same : other = queueName
  · subst same
    simp [destroyQueueConsumer]
  · simp [destroyQueueConsumer, same, AList.lookup_erase_ne]

theorem isSome_create (ctag : Bytes) (ackFlag : Bool) (cb : ChannelRef) (other : Bytes) :
    ((mgr.create ctag queueName ackFlag cb).2.queueConsumers.lookup other).isSome =
      (mgr.queueConsumers.lookup other).isSome := by
  unfold create
  cases found : mgr.queueConsumers.lookup queueName with
  | none => rfl
  | some qc => exact StrMap.isSome_lookup_replace found _ other

theorem isSome_remove (ctag other : Bytes) :
    ((mgr.remove ctag queueName).queueConsumers.lookup other).isSome =
      (mgr.queueConsumers.lookup other).isSome := by
  unfold remove
  cases found : mgr.queueConsumers.lookup queueName with
  | none => rfl
  | some qc => exact StrMap.isSome_lookup_replace found _ other

theorem isSome_choose (other : Bytes) :
    ((mgr.choose queueName).2.queueConsumers.lookup other).isSome =
      (mgr.queueConsumers.lookup other).isSome := by
  unfold choose
  cases found : mgr.queueConsumers.lookup queueName with
  | none => rfl
  | some qc => exact StrMap.isSome_lookup_replace found _ other

end Known

theorem choose_mem {mgr : ConsumerManager} {queueName : Bytes} {c : Consumer}
    (chosen : (mgr.choose queueName).1 = some c) : c ∈ mgr.consumersOf queueName := by
  unfold choose at chosen
  cases found : mgr.queueConsumers.lookup queueName with
  | none => simp [found] at chosen
  | some qc =>
    simp only [found] at chosen
    simpa [consumersOf, found] using QueueConsumer.rrChoose_mem chosen

section Lists

variable (mgr : ConsumerManager)

theorem consumersOf_insert (queueName : Bytes) (qc : QueueConsumer) (other : Bytes) :
    consumersOf ⟨mgr.queueConsumers.insert queueName qc⟩ other =
      if other = queueName then qc.consumers else mgr.consumersOf other := by
  by_cases same : other = queueName
  · subst same
    simp [consumersOf]
  · simp [consumersOf, same, AList.lookup_insert_ne]

theorem consumersOf_of_lookup {queueName : Bytes} {qc : QueueConsumer}
    (found : mgr.queueConsumers.lookup queueName = some qc) :
    mgr.consumersOf queueName = qc.consumers := by
  simp [consumersOf, found]

@[simp] theorem consumersOf_initQueueConsumer (queueName other : Bytes) :
    (mgr.initQueueConsumer queueName).consumersOf other = mgr.consumersOf other := by
  unfold initQueueConsumer
  cases found : mgr.queueConsumers.lookup queueName with
  | some qc => rfl
  | none =>
    rw [Option.isNone_none, if_pos rfl, consumersOf_insert]
    split
    · next same =>
      subst same
      simp [consumersOf, found]
    · rfl

theorem consumersOf_destroyQueueConsumer (queueName other : Bytes) :
    (mgr.destroyQueueConsumer queueName).consumersOf other =
      if other = queueName then [] else mgr.consumersOf other := by
  by_cases same : other = queueName
  · subst same
    simp [consumersOf, destroyQueueConsumer]
  · simp [consumersOf, destroyQueueConsumer, same, AList.lookup_erase_ne]

/-- A tag that is taken is refused; otherwise the consumer is added at the end. -/
theorem consumersOf_create {queueName : Bytes}
    (known : (mgr.queueConsumers.lookup queueName).isSome) (ctag : Bytes) (ackFlag : Bool)
    (cb : ChannelRef) (other : Bytes) :
    (mgr.create ctag queueName ackFlag cb).2.consumersOf other =
      if other = queueName ∧ (mgr.consumersOf queueName).any (fun c => c.tag == ctag) = false then
        mgr.consumersOf other ++ [⟨ctag, queueName, ackFlag, cb⟩]
      else mgr.consumersOf other := by
  obtain ⟨qc, found⟩ := Option.isSome_iff_exists.mp known
  simp only [create, found, QueueConsumer.create, mgr.consumersOf_of_lookup found]
  cases taken : qc.consumers.any fun c => c.tag == ctag <;>
    by_cases same : other = queueName <;>
      simp [consumersOf_insert, same, mgr.consumersOf_of_lookup found]

theorem consumersOf_remove (ctag queueName other : Bytes) :
    (mgr.remove ctag queueName).consumersOf other =
      if other = queueName then (mgr.consumersOf other).eraseP fun c => c.tag == ctag
      else mgr.consumersOf other := by
  unfold remove
  cases found : mgr.queueConsumers.lookup queueName with
  | none =>
    by_cases same : other = queueName
    · subst same
      simp [consumersOf, found]
    · simp [same]
  | some qc =>
    rw [consumersOf_insert]
    split
    · next same => rw [same, mgr.consumersOf_of_lookup found, QueueConsumer.remove]
    · rfl

@[simp] theorem consumersOf_choose (queueName other : Bytes) :
    (mgr.choose queueName).2.consumersOf other = mgr.consumersOf other := by
  unfold choose
  cases found : mgr.queueConsumers.lookup queueName with
  | none => rfl
  | some qc =>
    have kept : qc.rrChoose.2.consumers = qc.consumers := by
      unfold QueueConsumer.rrChoose
      split <;> rfl
    rw [consumersOf_insert]
    split
    · next same => rw [same, mgr.consumersOf_of_lookup found, kept]
    · rfl

end Lists

theorem choose_isSome {mgr : ConsumerManager} {queueName : Bytes}
    (registered : mgr.consumersOf queueName ≠ []) : (mgr.choose queueName).1.isSome := by
  cases found : mgr.queueConsumers.lookup queueName with
  | none => simp [consumersOf, found] at registered
  | some qc =>
    have some' : qc.consumers ≠ [] := by simpa [consumersOf, found] using registered
    simpa [choose, found] using QueueConsumer.rrChoose_isSome some'

end ConsumerManager

end HzMq
