import HzMq.Server.VirtualHost

/-!
# The tables after an operation

For each operation, which binding an exchange holds for a queue afterwards, which
store a queue has, and which of the other tables it leaves alone.
-/

namespace HzMq

open FileStream

namespace VirtualHost

def bindingAt (h : VirtualHost) (exchangeName queueName : Bytes) : Option Binding :=
  (h.bindingsOf exchangeName).lookup queueName

section Lookup

variable (h : VirtualHost)

theorem lookup_withStore (queueName other : Bytes) (store : QueueMessage) (fs : FileSystem) :
    (h.withStore queueName store fs).queueMessages.lookup other =
      if other = queueName then some store else h.queueMessages.lookup other := by
  by_cases same : other = queueName
  · subst same
    simp [withStore]
  · simp [withStore, same, AList.lookup_insert_ne]

theorem lookup_follow (newKey : PathKey → PathKey) (queueName : Bytes) :
    (h.follow newKey).queueMessages.lookup queueName =
      (h.queueMessages.lookup queueName).map fun store =>
        { store with file := store.file.rekey newKey } :=
  StrMap.lookup_mapValues _ _ _

theorem lookup_deleteQueue (queueName other : Bytes) :
    (h.deleteQueue queueName).queueMessages.lookup other =
      if other = queueName then none else h.queueMessages.lookup other := by
  by_cases same : other = queueName
  · subst same
    simp [VirtualHost.deleteQueue]
  · simp [VirtualHost.deleteQueue, same, AList.lookup_erase_ne]

theorem bind_mgr (exchange queue key : Bytes) (args : StrMap Bytes) :
    (h.bind exchange queue key args).2.queueMgr = h.queueMgr ∧
      (h.bind exchange queue key args).2.baseDir = h.baseDir := by
  unfold VirtualHost.bind
  split <;> exact ⟨rfl, rfl⟩

theorem bind_stores (exchange queue key : Bytes) (args : StrMap Bytes) :
    (h.bind exchange queue key args).2.queueMessages = h.queueMessages ∧
      (h.bind exchange queue key args).2.fs = h.fs ∧
      (h.bind exchange queue key args).2.exchangeMgr = h.exchangeMgr := by
  unfold VirtualHost.bind
  split <;> exact ⟨rfl, rfl, rfl⟩

theorem unbind_stores (exchange queue : Bytes) :
    (h.unbind exchange queue).queueMgr = h.queueMgr ∧
      (h.unbind exchange queue).queueMessages = h.queueMessages ∧
      (h.unbind exchange queue).baseDir = h.baseDir := by
  unfold VirtualHost.unbind
  split <;> exact ⟨rfl, rfl, rfl⟩

theorem bindingAt_bind (exchangeName queueName bindingKey : Bytes) (bindingArgs : StrMap Bytes)
    (exchange queue : Bytes) :
    (h.bind exchangeName queueName bindingKey bindingArgs).2.bindingAt exchange queue =
      if (h.selectExchange exchangeName).isSome ∧ h.queueMgr.exists? queueName = true ∧
          exchange = exchangeName ∧ queue = queueName then
        some ⟨exchangeName, queueName, bindingKey, bindingArgs⟩
      else h.bindingAt exchange queue := by
  unfold VirtualHost.bind
  by_cases refused : ((h.selectExchange exchangeName).isNone ||
      !h.queueMgr.exists? queueName) = true
  · have missing : ¬((h.selectExchange exchangeName).isSome ∧
        h.queueMgr.exists? queueName = true ∧ exchange = exchangeName ∧ queue = queueName) := by
      rintro ⟨exists', known, -⟩
      simp [known, Option.isNone_iff_eq_none] at refused
      simp [refused] at exists'
    rw [if_pos refused, if_neg missing]
  · have allowed : (h.selectExchange exchangeName).isSome ∧
        h.queueMgr.exists? queueName = true := by
      simp only [Bool.or_eq_true, not_or, Bool.not_eq_true, Option.isNone_eq_false_iff,
        Bool.not_eq_false'] at refused
      exact refused
    rw [if_neg refused]
    by_cases sameExchange : exchange = exchangeName
    · subst sameExchange
      by_cases sameQueue : queue = queueName
      · subst sameQueue
        simp [bindingAt, bindingsOf, allowed]
      · simp [bindingAt, bindingsOf, sameQueue, AList.lookup_insert_ne]
    · simp [bindingAt, bindingsOf, sameExchange, AList.lookup_insert_ne]

theorem bindingAt_unbind (exchangeName queueName exchange queue : Bytes) :
    (h.unbind exchangeName queueName).bindingAt exchange queue =
      if exchange = exchangeName ∧ queue = queueName then none
      else h.bindingAt exchange queue := by
  unfold VirtualHost.unbind
  cases found : h.exchangeBindings.lookup exchangeName with
  | none =>
    by_cases same : exchange = exchangeName ∧ queue = queueName
    · rw [if_pos same, same.1]
      simp [bindingAt, bindingsOf, found]
    · rw [if_neg same]
  | some bindingMap =>
    by_cases sameExchange : exchange = exchangeName
    · subst sameExchange
      by_cases sameQueue : queue = queueName
      · subst sameQueue
        simp [bindingAt, bindingsOf]
      · simp [bindingAt, bindingsOf, found, sameQueue, AList.lookup_erase_ne]
    · simp [bindingAt, bindingsOf, sameExchange, AList.lookup_insert_ne]

theorem bindingAt_deleteQueue (queueName exchange queue : Bytes) :
    (h.deleteQueue queueName).bindingAt exchange queue =
      if queue = queueName then none else h.bindingAt exchange queue := by
  simp only [bindingAt, bindingsOf, VirtualHost.deleteQueue, StrMap.lookup_mapValues]
  cases h.exchangeBindings.lookup exchange with
  | none => simp
  | some bindingMap =>
    by_cases same : queue = queueName
    · subst same
      simp
    · simp [same, AList.lookup_erase_ne]

theorem bindingAt_deleteExchange (exchangeName exchange queue : Bytes) :
    (h.deleteExchange exchangeName).bindingAt exchange queue =
      if exchange = exchangeName then none else h.bindingAt exchange queue := by
  by_cases same : exchange = exchangeName
  · subst same
    simp [bindingAt, bindingsOf, VirtualHost.deleteExchange]
  · simp [bindingAt, bindingsOf, VirtualHost.deleteExchange, same, AList.lookup_erase_ne]

theorem declareExchange_tables (exchangeName : Bytes) (type : ExchangeType)
    (durable autoDelete : Bool) (args : StrMap Bytes) :
    (h.declareExchange exchangeName type durable autoDelete args).2.exchangeBindings =
        h.exchangeBindings ∧
      (h.declareExchange exchangeName type durable autoDelete args).2.queueMgr = h.queueMgr ∧
      ∀ other, ((h.declareExchange exchangeName type durable autoDelete args).2.selectExchange
          other).isSome = (decide (other = exchangeName) || (h.selectExchange other).isSome) := by
  unfold VirtualHost.declareExchange
  split
  · next known =>
    refine ⟨rfl, rfl, ?_⟩
    intro other
    by_cases same : other = exchangeName
    · simp [same, known]
    · simp [same]
  · refine ⟨rfl, rfl, ?_⟩
    intro other
    by_cases same : other = exchangeName
    · subst same
      simp [selectExchange]
    · simp [selectExchange, same, AList.lookup_insert_ne]

variable (codec : Codec)

theorem addStore_mgr (name : Bytes) (durable : Bool) :
    (h.addStore codec name durable).queueMgr = h.queueMgr ∧
      (h.addStore codec name durable).baseDir = h.baseDir := by
  unfold VirtualHost.addStore
  split <;> exact ⟨rfl, rfl⟩

theorem addStore_tables (queueMgr : MsgQueueManager) (queueName : Bytes) (durable : Bool) :
    (addStore codec { h with queueMgr } queueName durable).exchangeBindings =
        h.exchangeBindings ∧
      (addStore codec { h with queueMgr } queueName durable).exchangeMgr = h.exchangeMgr ∧
      (addStore codec { h with queueMgr } queueName durable).queueMgr = queueMgr := by
  unfold VirtualHost.addStore
  split <;> exact ⟨rfl, rfl, rfl⟩

theorem declareQueue_eq (queueName : Bytes) (durable exclusive autoDelete : Bool)
    (args : StrMap Bytes) :
    h.declareQueue codec queueName durable exclusive autoDelete args =
      (true, ((addStore codec { h with queueMgr :=
          (h.queueMgr.declareQueue queueName durable exclusive autoDelete args).2 }
        queueName durable).bind [] queueName queueName).2) := by
  have accepted : (h.queueMgr.declareQueue queueName durable exclusive autoDelete args).1 = true :=
    MsgQueueManager.declare_fst _ _ _
  simp only [VirtualHost.declareQueue, accepted, Bool.not_true, Bool.false_eq_true, if_false]

theorem declareQueue_stores {queueName : Bytes}
    (absent : h.queueMessages.lookup queueName = none) (durable exclusive autoDelete : Bool)
    (args : StrMap Bytes) :
    let new := QueueMessage.new h.fs h.baseDir queueName
    let h' := (h.declareQueue codec queueName durable exclusive autoDelete args).2
    h'.queueMessages =
        h.queueMessages.insert queueName (if durable then new.1.recovery codec new.2 else new.1) ∧
      h'.fs = new.2 ∧ h'.baseDir = h.baseDir := by
  obtain ⟨stores, sameFs, -⟩ := bind_stores (addStore codec { h with queueMgr :=
    (h.queueMgr.declareQueue queueName durable exclusive autoDelete args).2 } queueName durable)
    [] queueName queueName ∅
  simp only [declareQueue_eq, stores, sameFs, (bind_mgr _ _ _ _ _).2]
  simp only [VirtualHost.addStore, absent, Option.isSome_none, Bool.false_eq_true, if_false]
  exact ⟨rfl, rfl, rfl⟩

theorem declareQueueWithDlq_eq (queueName : Bytes) (durable exclusive autoDelete : Bool)
    (args : StrMap Bytes) (dlqConfig : DeadLetterConfig) :
    h.declareQueueWithDlq codec queueName durable exclusive autoDelete args dlqConfig =
      (true, addStore codec { h with queueMgr :=
          (h.queueMgr.declareQueueWithDlq queueName durable exclusive autoDelete args dlqConfig).2 }
        queueName durable) := by
  have accepted : (h.queueMgr.declareQueueWithDlq queueName durable exclusive autoDelete args
      dlqConfig).1 = true := MsgQueueManager.declare_fst _ _ _
  simp only [VirtualHost.declareQueueWithDlq, accepted, Bool.not_true, Bool.false_eq_true, if_false]

theorem bindingAt_declareQueue (queueName : Bytes) (durable exclusive autoDelete : Bool)
    (args : StrMap Bytes) (exchange queue : Bytes) :
    (h.declareQueue codec queueName durable exclusive autoDelete args).2.bindingAt exchange queue =
      if (h.selectExchange []).isSome ∧ exchange = [] ∧ queue = queueName then
        some ⟨[], queueName, queueName, ∅⟩
      else h.bindingAt exchange queue := by
  rw [declareQueue_eq]
  simp only [bindingAt_bind]
  obtain ⟨bindings, exchanges, queues⟩ := addStore_tables h codec
    (h.queueMgr.declareQueue queueName durable exclusive autoDelete args).2 queueName durable
  have known : (h.queueMgr.declareQueue queueName durable exclusive autoDelete args).2.exists?
      queueName = true := by
    rw [MsgQueueManager.declareQueue, MsgQueueManager.exists?_declare]
    simp
  simp only [bindingAt, bindingsOf, selectExchange, bindings, exchanges, queues, known, true_and]
  exact if_congr Iff.rfl rfl rfl

theorem bindingAt_declareQueueWithDlq (queueName : Bytes) (durable exclusive autoDelete : Bool)
    (args : StrMap Bytes) (dlqConfig : DeadLetterConfig) (exchange queue : Bytes) :
    (h.declareQueueWithDlq codec queueName durable exclusive autoDelete args dlqConfig).2.bindingAt
        exchange queue =
      h.bindingAt exchange queue := by
  rw [declareQueueWithDlq_eq]
  simp only [bindingAt, bindingsOf, (addStore_tables h codec _ queueName durable).1]

end Lookup

end VirtualHost

end HzMq
