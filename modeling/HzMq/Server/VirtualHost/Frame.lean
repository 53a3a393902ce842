import HzMq.Server.QueueMessage.FileEffects
import HzMq.Server.VirtualHost.Lookup

/-!
# What the operations of a virtual host leave alone

Message operations change stores and nothing else (`Frame`). Every reachable
host is well formed: a queue is known exactly when it has a store, only such
queues are bound, and the objects of a store are numbered.
-/

namespace HzMq

open FileStream

namespace VirtualHost

variable {codec : Codec} {matchHeaders : StrMap Bytes → StrMap Bytes → Bool}
  {h h' h'' : VirtualHost}

theorem contents_eq (h : VirtualHost) (queueName : Bytes) :
    h.contents queueName = ((h.queueMessages.lookup queueName).map QueueMessage.msgs).getD [] := by
  unfold contents
  cases h.queueMessages.lookup queueName <;> rfl

theorem contents_of_lookup {queueName : Bytes} {store : QueueMessage}
    (found : h.queueMessages.lookup queueName = some store) :
    h.contents queueName = store.msgs := by
  simp [contents_eq, found]

theorem contents_of_absent {queueName : Bytes}
    (absent : h.queueMessages.lookup queueName = none) : h.contents queueName = [] := by
  simp [contents_eq, absent]

theorem forall_mem_contents {P : MessagePtr → Prop}
    (all : ∀ e ∈ h.queueMessages.pairs, ∀ x ∈ e.2.msgs, P x) :
    ∀ name, ∀ x ∈ h.contents name, P x := by
  intro name x queued
  cases found : h.queueMessages.lookup name with
  | none =>
    rw [contents_of_absent found] at queued
    cases queued
  | some store =>
    rw [contents_of_lookup found] at queued
    exact all (name, store) (StrMap.mem_pairs.mpr found) x queued

@[simp] theorem contents_withStore (h : VirtualHost) (queueName : Bytes) (store : QueueMessage)
    (fs : FileSystem) :
    (h.withStore queueName store fs).contents =
      Function.update h.contents queueName store.msgs := by
  funext other
  by_cases same : other = queueName
  · subst same
    simp [contents_eq, withStore]
  · simp [contents_eq, withStore, same, AList.lookup_insert_ne, Function.update_of_ne]

@[simp] theorem contents_follow (h : VirtualHost) (newKey : PathKey → PathKey) :
    (h.follow newKey).contents = h.contents := by
  funext name
  rw [contents_eq, contents_eq, lookup_follow, Option.map_map]
  rfl

theorem queryTarget_some {entries : List (Bytes × QueueMessage)} {queueName : Bytes}
    {store : QueueMessage} {msg : MessagePtr}
    (found : queryTarget entries = some (queueName, store, msg)) :
    (queueName, store) ∈ entries ∧ store.front = some msg := by
  induction entries with
  | nil => cases found
  | cons entry rest ih =>
    obtain ⟨name, first⟩ := entry
    rw [queryTarget] at found
    split at found
    · exact ⟨List.mem_cons_of_mem _ (ih found).1, (ih found).2⟩
    · split at found
      · exact ⟨List.mem_cons_of_mem _ (ih found).1, (ih found).2⟩
      · next held =>
        cases found
        exact ⟨List.mem_cons_self, held⟩

theorem basicQuery_eq (visit : Visit QueueMessage) (h : VirtualHost) :
    h.basicQuery codec visit =
      match queryTarget (visit.order h.queueMessages) with
      | none => ([], h)
      | some (queueName, _, msg) => (msg.body, (h.takeFront codec queueName).2) := by
  unfold basicQuery
  cases found : queryTarget (visit.order h.queueMessages) with
  | none => rfl
  | some pulled =>
    obtain ⟨queueName, store, msg⟩ := pulled
    obtain ⟨visited, held⟩ := queryTarget_some found
    have stored := visit.mem_order.mp visited
    simp only [takeFront, stored, held]

theorem assignId_lookup (h : VirtualHost) (bp : Option BasicProperties) :
    (h.assignId bp).2.queueMessages = h.queueMessages := by
  unfold assignId
  split
  · rfl
  · split <;> rfl

/-- A relation that follows a host through publications: they are made of deliveries
to stores and of steps of the id counter. -/
structure Delivers (codec : Codec) (R : VirtualHost → VirtualHost → Prop) : Prop where
  refl : ∀ h, R h h
  trans : ∀ {a b c}, R a b → R b c → R a c
  seq : ∀ (h : VirtualHost) (seq : Nat), R h { h with seq := seq }
  deliver : ∀ (h : VirtualHost) (queueName : Bytes) (store : QueueMessage)
    (bp : Option BasicProperties) (body : Bytes), h.queueMessages.lookup queueName = some store →
      R h (VirtualHost.deliver codec h queueName store bp body).2

namespace Delivers

variable {R : VirtualHost → VirtualHost → Prop} (delivers : Delivers codec R)

include delivers

theorem assignId (h : VirtualHost) (bp : Option BasicProperties) : R h (h.assignId bp).2 := by
  unfold VirtualHost.assignId
  split
  · exact delivers.refl h
  · split
    · exact delivers.seq h _
    · exact delivers.refl h

theorem basicPublish (h : VirtualHost) (queueName : Bytes) (bp : Option BasicProperties)
    (body : Bytes) : R h (h.basicPublish codec queueName bp body).2.2 := by
  unfold VirtualHost.basicPublish
  cases found : h.queueMessages.lookup queueName with
  | none => exact delivers.refl h
  | some store =>
    have named := delivers.assignId h bp
    simp only
    split
    · exact named
    · exact delivers.trans named
        (delivers.deliver _ queueName store _ body (assignId_lookup h bp ▸ found))

theorem publishLoop (should : Binding → Bool) (body : Bytes) (entries : List (Bytes × Binding))
    (published : Bool) (bp : Option BasicProperties) (h : VirtualHost) :
    R h (VirtualHost.publishLoop codec should body entries published bp h).2.2 := by
  induction entries generalizing published bp h with
  | nil => exact delivers.refl h
  | cons entry rest ih =>
    obtain ⟨queueName, binding⟩ := entry
    rw [VirtualHost.publishLoop]
    split
    · exact delivers.trans (delivers.basicPublish h queueName bp body) (ih _ _ _)
    · exact ih published bp h

theorem publishToExchange (visit : Visit Binding) (h : VirtualHost) (exchangeName : Bytes)
    (bp : Option BasicProperties) (body : Bytes) :
    R h (h.publishToExchange codec matchHeaders visit exchangeName bp body).2.2 := by
  unfold VirtualHost.publishToExchange
  split
  · exact delivers.refl h
  · simp only
    split
    · exact delivers.refl h
    · exact delivers.publishLoop _ body _ false bp h

theorem publishExLoop (type : ExchangeType) (props : BasicProperties) (body : Bytes)
    (entries : List (Bytes × Binding)) (delivered : Bool) (h : VirtualHost) :
    R h (VirtualHost.publishExLoop codec type props body entries delivered h).2 := by
  induction entries generalizing delivered h with
  | nil => exact delivers.refl h
  | cons entry rest ih =>
    obtain ⟨queueName, binding⟩ := entry
    rw [VirtualHost.publishExLoop]
    split
    · exact ih delivered h
    · split
      · exact ih delivered h
      · next store found =>
        exact delivers.trans (delivers.deliver h queueName store _ body found) (ih _ _)

theorem publishEx (visit : Visit Binding) (h : VirtualHost) (exchangeName routingKey : Bytes)
    (bp : Option BasicProperties) (body : Bytes) :
    R h (h.publishEx codec visit exchangeName routingKey bp body).2.2 := by
  unfold VirtualHost.publishEx
  split
  · exact delivers.refl h
  · exact delivers.publishExLoop _ _ body _ false h

theorem deadLetter (visit : Visit Binding) (h : VirtualHost) (queueName msgId : Bytes)
    (dlqConfig : DeadLetterConfig) (targetMsg : MessagePtr) :
    ∃ mid, R h mid ∧
      h.deadLetter codec matchHeaders visit queueName msgId dlqConfig targetMsg =
        mid.basicAck codec queueName msgId := by
  refine ⟨_, ?_, rfl⟩
  split
  · exact delivers.trans (delivers.seq h _) (delivers.publishToExchange visit _ _ _ _)
  · exact delivers.seq h _

omit delivers in
theorem and {Q : VirtualHost → VirtualHost → Prop} (first : Delivers codec R)
    (second : Delivers codec Q) : Delivers codec fun h h' => R h h' ∧ Q h h' where
  refl h := ⟨first.refl h, second.refl h⟩
  trans left right := ⟨first.trans left.1 right.1, second.trans left.2 right.2⟩
  seq h seq := ⟨first.seq h seq, second.seq h seq⟩
  deliver h queueName store bp body found :=
    ⟨first.deliver h queueName store bp body found, second.deliver h queueName store bp body found⟩

end Delivers

/-- Only stores change: the same queues exist, the same exchanges and bindings. -/
structure Frame (h h' : VirtualHost) : Prop where
  exchangeMgr : h'.exchangeMgr = h.exchangeMgr
  queueMgr : h'.queueMgr = h.queueMgr
  exchangeBindings : h'.exchangeBindings = h.exchangeBindings
  baseDir : h'.baseDir = h.baseDir
  stores : ∀ name, (h'.queueMessages.lookup name).isSome = (h.queueMessages.lookup name).isSome
  extends' : ∀ name store store', h.queueMessages.lookup name = some store →
    h'.queueMessages.lookup name = some store' → store.Extends store'

namespace Frame

theorem of_stores (exchangeMgr : h'.exchangeMgr = h.exchangeMgr)
    (queueMgr : h'.queueMgr = h.queueMgr)
    (exchangeBindings : h'.exchangeBindings = h.exchangeBindings) (baseDir : h'.baseDir = h.baseDir)
    (queueMessages : h'.queueMessages = h.queueMessages) : Frame h h' where
  exchangeMgr := exchangeMgr
  queueMgr := queueMgr
  exchangeBindings := exchangeBindings
  baseDir := baseDir
  stores name := by rw [queueMessages]
  extends' name store store' before after := by
    rw [queueMessages, before] at after
    exact Option.some.inj after ▸ QueueMessage.Extends.refl store

theorem refl (h : VirtualHost) : Frame h h := of_stores rfl rfl rfl rfl rfl

theorem trans (first : Frame h h') (second : Frame h' h'') : Frame h h'' where
  exchangeMgr := second.exchangeMgr.trans first.exchangeMgr
  queueMgr := second.queueMgr.trans first.queueMgr
  exchangeBindings := second.exchangeBindings.trans first.exchangeBindings
  baseDir := second.baseDir.trans first.baseDir
  stores name := (second.stores name).trans (first.stores name)
  extends' name store store'' before after := by
    have between : (h'.queueMessages.lookup name).isSome := by
      rw [first.stores, before]
      rfl
    obtain ⟨store', middle⟩ := Option.isSome_iff_exists.mp between
    exact (first.extends' name store store' before middle).trans
      (second.extends' name store' store'' middle after)

theorem bindingsOf (frame : Frame h h') (exchangeName : Bytes) :
    h'.bindingsOf exchangeName = h.bindingsOf exchangeName := by
  simp only [VirtualHost.bindingsOf, frame.exchangeBindings]

theorem selectExchange (frame : Frame h h') (exchangeName : Bytes) :
    h'.selectExchange exchangeName = h.selectExchange exchangeName := by
  simp only [VirtualHost.selectExchange, frame.exchangeMgr]

theorem seq (h : VirtualHost) (seq : Nat) : Frame h { h with seq := seq } :=
  of_stores rfl rfl rfl rfl rfl

theorem withStore {queueName : Bytes} {store store' : QueueMessage} (fs : FileSystem)
    (found : h.queueMessages.lookup queueName = some store) (step : store.Extends store') :
    Frame h (h.withStore queueName store' fs) where
  exchangeMgr := rfl
  queueMgr := rfl
  exchangeBindings := rfl
  baseDir := rfl
  stores name := by
    rw [lookup_withStore]
    split
    · next same => rw [same, found]; rfl
    · rfl
  extends' name before after stored stored' := by
    rw [lookup_withStore] at stored'
    split at stored'
    · next same =>
      rw [same, found] at stored
      exact Option.some.inj stored ▸ Option.some.inj stored' ▸ step
    · rw [stored] at stored'
      exact Option.some.inj stored' ▸ QueueMessage.Extends.refl before

theorem origin (frame : Frame h h') {name : Bytes} {store' : QueueMessage}
    (after : h'.queueMessages.lookup name = some store') :
    ∃ store, h.queueMessages.lookup name = some store ∧ store.Extends store' := by
  have existed : (h.queueMessages.lookup name).isSome := by
    rw [← frame.stores, after]
    rfl
  obtain ⟨store, before⟩ := Option.isSome_iff_exists.mp existed
  exact ⟨store, before, frame.extends' name store store' before after⟩

theorem delivers : Delivers codec Frame where
  refl := refl
  trans := trans
  seq := seq
  deliver h _ store bp body found := withStore _ found (.insert codec h.fs bp body _ store)

theorem publishToExchange (visit : Visit Binding) (h : VirtualHost) (exchangeName : Bytes)
    (bp : Option BasicProperties) (body : Bytes) :
    Frame h (h.publishToExchange codec matchHeaders visit exchangeName bp body).2.2 :=
  delivers.publishToExchange visit h exchangeName bp body

theorem takeFront (h : VirtualHost) (queueName : Bytes) :
    Frame h (h.takeFront codec queueName).2 := by
  unfold VirtualHost.takeFront
  split
  · exact refl h
  · next store found =>
    split
    · exact refl h
    · next msg _ => exact withStore _ found (.remove codec h.fs store msg.id)

theorem basicAck (h : VirtualHost) (queueName msgId : Bytes) :
    Frame h (h.basicAck codec queueName msgId) := by
  unfold VirtualHost.basicAck
  split
  · exact refl h
  · next store found => exact withStore _ found (.remove codec h.fs store msgId)

theorem deadLetter (visit : Visit Binding) (h : VirtualHost) (queueName msgId : Bytes)
    (dlqConfig : DeadLetterConfig) (targetMsg : MessagePtr) :
    Frame h (h.deadLetter codec matchHeaders visit queueName msgId dlqConfig targetMsg) := by
  obtain ⟨mid, published, removal⟩ : ∃ mid, Frame h mid ∧
      h.deadLetter codec matchHeaders visit queueName msgId dlqConfig targetMsg =
        mid.basicAck codec queueName msgId :=
    delivers.deadLetter visit h queueName msgId dlqConfig targetMsg
  rw [removal]
  exact published.trans (basicAck mid queueName msgId)

theorem basicNack (visit : Visit Binding) (h : VirtualHost) (queueName msgId : Bytes)
    (requeue : Bool) (reason : Bytes) :
    Frame h (h.basicNack codec matchHeaders visit queueName msgId requeue reason) := by
  unfold VirtualHost.basicNack
  repeat' split
  all_goals first
    | exact refl h
    | exact basicAck h queueName msgId
    | exact deadLetter visit h queueName msgId _ _

theorem basicQuery (visit : Visit QueueMessage) (h : VirtualHost) :
    Frame h (h.basicQuery codec visit).2 := by
  rw [basicQuery_eq]
  split
  · exact refl h
  · exact takeFront h _

theorem queueRuntimeStats (h : VirtualHost) (queueName : Bytes) :
    Frame h (h.queueRuntimeStats codec queueName).2 := by
  unfold VirtualHost.queueRuntimeStats
  split
  · exact refl h
  · next store found =>
    exact withStore _ found (.of_objects (by simp) (by simp) (by simp))

theorem follow (h : VirtualHost) (newKey : PathKey → PathKey) : Frame h (h.follow newKey) where
  exchangeMgr := rfl
  queueMgr := rfl
  exchangeBindings := rfl
  baseDir := rfl
  stores name := by rw [lookup_follow, Option.isSome_map]
  extends' name store store' before after := by
    rw [lookup_follow, before] at after
    exact Option.some.inj after ▸ .of_objects rfl rfl rfl

theorem compactQueue (h : VirtualHost) (queueName : Bytes) :
    Frame h (h.compactQueue codec queueName) := by
  unfold VirtualHost.compactQueue
  split
  · exact refl h
  · next store found =>
    obtain ⟨objects, pushed⟩ := QueueMessage.compact_objects codec h.fs store
    refine (follow h (store.follow h.fs)).trans (withStore _ (by rw [lookup_follow, found]; rfl) ?_)
    exact .of_objects (QueueMessage.compact_filePath codec h.fs store) objects pushed

def onMessages : HostOp → Bool
  | .declareExchange _ _ _ _ _ => false
  | .deleteExchange _ => false
  | .declareQueue _ _ _ _ _ => false
  | .declareQueueWithDlq _ _ _ _ _ _ => false
  | .deleteQueue _ => false
  | .bind _ _ _ _ => false
  | .unbind _ _ => false
  | _ => true

theorem apply (h : VirtualHost) {op : HostOp} (messages : onMessages op = true) :
    Frame h (op.apply codec matchHeaders h) := by
  cases op with
  | basicPublish queue bp body => exact delivers.basicPublish h queue bp body
  | publishToExchange visit exchange bp body => exact publishToExchange visit h exchange bp body
  | publishEx visit exchange key bp body => exact delivers.publishEx visit h exchange key bp body
  | basicConsume queue => exact takeFront h queue
  | basicConsumeAndRemove queue => exact takeFront h queue
  | basicAck queue id => exact basicAck h queue id
  | basicNack visit queue id requeue reason => exact basicNack visit h queue id requeue reason
  | basicQuery visit => exact basicQuery visit h
  | queueRuntimeStats queue => exact queueRuntimeStats h queue
  | compactQueue queue => exact compactQueue h queue
  | _ => cases messages

theorem exec {h : VirtualHost} {ops : List HostOp} (messages : ∀ op ∈ ops, onMessages op = true) :
    Frame h (Machine.exec (HostOp.apply codec matchHeaders) h ops) := by
  induction ops generalizing h with
  | nil => exact refl h
  | cons op ops ih =>
    exact (apply h (messages op List.mem_cons_self)).trans
      (ih fun other member => messages other (List.mem_cons_of_mem op member))

end Frame

structure WellFormed (h : VirtualHost) : Prop where
  stored : ∀ name, h.queueMgr.exists? name = (h.queueMessages.lookup name).isSome
  bound : ∀ exchangeName name, ((h.bindingsOf exchangeName).lookup name).isSome →
    (h.queueMessages.lookup name).isSome
  numbered : ∀ name store, h.queueMessages.lookup name = some store → store.Numbered
  paths : ∀ name store, h.queueMessages.lookup name = some store →
    store.filePath = QueueMessage.path h.baseDir name

namespace WellFormed

theorem of_frame (ok : WellFormed h) (frame : Frame h h') : WellFormed h' where
  stored name := by rw [frame.queueMgr, frame.stores, ok.stored]
  bound exchangeName name isBound := by
    rw [frame.bindingsOf] at isBound
    rw [frame.stores]
    exact ok.bound exchangeName name isBound
  numbered name store' after := by
    obtain ⟨store, before, step⟩ := frame.origin after
    exact step.numbered (ok.numbered name store before)
  paths name store' after := by
    obtain ⟨store, before, step⟩ := frame.origin after
    rw [step.filePath, frame.baseDir, ok.paths name store before]

theorem new (name baseDir : Bytes) (exchanges : StrMap Exchange) (seq : Nat) (fs : FileSystem) :
    WellFormed (VirtualHost.new name baseDir exchanges seq fs) where
  stored _ := rfl
  bound exchangeName name isBound := by
    simp [VirtualHost.new, VirtualHost.bindingsOf] at isBound
  numbered name store stored := by
    simp [VirtualHost.new] at stored
  paths name store stored := by
    simp [VirtualHost.new] at stored

theorem declareExchange (ok : WellFormed h) (exchangeName : Bytes) (type : ExchangeType)
    (durable autoDelete : Bool) (args : StrMap Bytes) :
    WellFormed (h.declareExchange exchangeName type durable autoDelete args).2 := by
  unfold VirtualHost.declareExchange
  split
  · exact ok
  · exact ⟨ok.stored, ok.bound, ok.numbered, ok.paths⟩

/-- Exchanges and bindings may change, as long as only queues with a store are bound. -/
theorem of_bindings (ok : WellFormed h) (queueMgr : h'.queueMgr = h.queueMgr)
    (stores : h'.queueMessages = h.queueMessages) (baseDir : h'.baseDir = h.baseDir)
    (bound : ∀ exchangeName name, (h'.bindingAt exchangeName name).isSome →
      (h.bindingAt exchangeName name).isSome ∨ h.queueMgr.exists? name = true) :
    WellFormed h' where
  stored name := by rw [queueMgr, stores, ok.stored]
  bound exchangeName name isBound := by
    rw [stores]
    rcases bound exchangeName name isBound with before | known
    · exact ok.bound exchangeName name before
    · rwa [← ok.stored]
  numbered name store stored := ok.numbered name store (stores ▸ stored)
  paths name store stored := by
    rw [baseDir]
    exact ok.paths name store (stores ▸ stored)

theorem deleteExchange (ok : WellFormed h) (exchangeName : Bytes) :
    WellFormed (h.deleteExchange exchangeName) := by
  refine ok.of_bindings rfl rfl rfl ?_
  intro other name isBound
  rw [bindingAt_deleteExchange] at isBound
  split at isBound
  · cases isBound
  · exact Or.inl isBound

theorem bind (ok : WellFormed h) (exchangeName queueName bindingKey : Bytes)
    (bindingArgs : StrMap Bytes) :
    WellFormed (h.bind exchangeName queueName bindingKey bindingArgs).2 := by
  obtain ⟨queueMgr, baseDir⟩ := bind_mgr h exchangeName queueName bindingKey bindingArgs
  obtain ⟨stores, -⟩ := bind_stores h exchangeName queueName bindingKey bindingArgs
  refine ok.of_bindings queueMgr stores baseDir ?_
  intro other name isBound
  rw [bindingAt_bind] at isBound
  split at isBound
  · next here =>
    obtain ⟨-, known, -, newlyBound⟩ := here
    exact Or.inr (newlyBound ▸ known)
  · exact Or.inl isBound

theorem unbind (ok : WellFormed h) (exchangeName queueName : Bytes) :
    WellFormed (h.unbind exchangeName queueName) := by
  obtain ⟨queueMgr, stores, baseDir⟩ := unbind_stores h exchangeName queueName
  refine ok.of_bindings queueMgr stores baseDir ?_
  intro other name isBound
  rw [bindingAt_unbind] at isBound
  split at isBound
  · cases isBound
  · exact Or.inl isBound

theorem deleteQueue (ok : WellFormed h) (queueName : Bytes) :
    WellFormed (h.deleteQueue queueName) where
  stored name := by
    rw [lookup_deleteQueue]
    simp only [VirtualHost.deleteQueue, MsgQueueManager.exists?_deleteQueue, ok.stored]
    split <;> simp [*]
  bound exchangeName name isBound := by
    change ((h.deleteQueue queueName).bindingAt exchangeName name).isSome at isBound
    rw [bindingAt_deleteQueue] at isBound
    rw [lookup_deleteQueue]
    split at isBound
    · cases isBound
    · next other =>
      rw [if_neg other]
      exact ok.bound exchangeName name isBound
  numbered name store stored := by
    rw [lookup_deleteQueue] at stored
    split at stored
    · cases stored
    · exact ok.numbered name store stored
  paths name store stored := by
    rw [lookup_deleteQueue] at stored
    split at stored
    · cases stored
    · exact ok.paths name store stored

/-- Declaring a queue: its name becomes known and gets a store, if it had none. -/
theorem addStore (ok : WellFormed h) (queueMgr : MsgQueueManager) (queueName : Bytes)
    (durable : Bool)
    (known : ∀ other, queueMgr.exists? other =
      (decide (other = queueName) || h.queueMgr.exists? other)) :
    WellFormed (VirtualHost.addStore codec { h with queueMgr } queueName durable) := by
  unfold VirtualHost.addStore
  split
  · next stored =>
    refine ⟨?_, ok.bound, ok.numbered, ok.paths⟩
    intro name
    rw [known, ok.stored]
    by_cases same : name = queueName
    · subst same
      simpa using stored.symm
    · simp [same]
  · refine ⟨fun name => ?_, fun other name isBound => ?_, fun name store stored => ?_,
      fun name store stored => ?_⟩
    · simp only [lookup_withStore]
      by_cases same : name = queueName
      · simp [VirtualHost.withStore, known, same]
      · simp [VirtualHost.withStore, known, same, ok.stored]
    · simp only [lookup_withStore]
      have kept := ok.bound other name isBound
      split
      · rfl
      · exact kept
    · simp only [lookup_withStore] at stored
      split at stored
      · cases stored
        split
        · exact QueueMessage.new_numbered.recovery codec _
        · exact QueueMessage.new_numbered
      · exact ok.numbered name store stored
    · simp only [lookup_withStore] at stored
      split at stored
      · next same =>
        cases stored
        subst same
        split
        · rw [QueueMessage.recovery_filePath, QueueMessage.new_filePath]
          rfl
        · exact QueueMessage.new_filePath
      · exact ok.paths name store stored

theorem declareQueue (ok : WellFormed h) (queueName : Bytes) (durable exclusive autoDelete : Bool)
    (args : StrMap Bytes) :
    WellFormed (h.declareQueue codec queueName durable exclusive autoDelete args).2 := by
  rw [declareQueue_eq]
  refine WellFormed.bind (ok.addStore _ queueName durable fun other => ?_) [] queueName queueName ∅
  exact MsgQueueManager.exists?_declare _ _ _ _

theorem declareQueueWithDlq (ok : WellFormed h) (queueName : Bytes)
    (durable exclusive autoDelete : Bool) (args : StrMap Bytes) (dlqConfig : DeadLetterConfig) :
    WellFormed (h.declareQueueWithDlq codec queueName durable exclusive autoDelete args
      dlqConfig).2 := by
  rw [declareQueueWithDlq_eq]
  exact ok.addStore _ queueName durable fun other => MsgQueueManager.exists?_declare _ _ _ _

theorem apply (ok : WellFormed h) (op : HostOp) : WellFormed (op.apply codec matchHeaders h) := by
  cases op with
  | declareExchange name type durable autoDelete args =>
    exact ok.declareExchange name type durable autoDelete args
  | deleteExchange name => exact ok.deleteExchange name
  | declareQueue name durable exclusive autoDelete args =>
    exact ok.declareQueue name durable exclusive autoDelete args
  | declareQueueWithDlq name durable exclusive autoDelete args config =>
    exact ok.declareQueueWithDlq name durable exclusive autoDelete args config
  | deleteQueue name => exact ok.deleteQueue name
  | bind exchange queue key args => exact ok.bind exchange queue key args
  | unbind exchange queue => exact ok.unbind exchange queue
  | _ => exact ok.of_frame (Frame.apply h rfl)

theorem exec (ok : WellFormed h) (ops : List HostOp) :
    WellFormed (Machine.exec (HostOp.apply codec matchHeaders) h ops) := by
  induction ops generalizing h with
  | nil => exact ok
  | cons op ops ih => exact ih (ok.apply op)

end WellFormed

variable (codec) in
theorem takeFront_empty {queueName : Bytes} (empty : h.contents queueName = []) :
    h.takeFront codec queueName = (none, h) := by
  unfold takeFront
  cases found : h.queueMessages.lookup queueName with
  | none => rfl
  | some store =>
    rw [contents_of_lookup found] at empty
    simp [QueueMessage.front, empty]

variable (codec) in
/-- Otherwise the head is taken, also when its id is empty or not unique. -/
theorem takeFront_cons {queueName : Bytes} {m : MessagePtr} {rest : List MessagePtr}
    (held : h.contents queueName = m :: rest) :
    (h.takeFront codec queueName).1 = some m ∧
      (h.takeFront codec queueName).2.contents = Function.update h.contents queueName rest := by
  unfold takeFront
  cases found : h.queueMessages.lookup queueName with
  | none =>
    rw [contents_of_absent found] at held
    cases held
  | some store =>
    rw [contents_of_lookup found] at held
    have front : store.front = some m := by simp [QueueMessage.front, held]
    have removed := QueueMessage.remove_of_target codec store h.fs
      (held ▸ QueueMessage.target_head m rest)
    simp only [front, contents_withStore, removed, true_and]

variable (codec) in
theorem basicAck_of_target {queueName msgId : Bytes} {m : MessagePtr} {rest : List MessagePtr}
    (found : QueueMessage.target (h.contents queueName) msgId = some (m, rest)) :
    (h.basicAck codec queueName msgId).contents = Function.update h.contents queueName rest := by
  unfold basicAck
  cases stored : h.queueMessages.lookup queueName with
  | none =>
    rw [contents_of_absent stored] at found
    cases found
  | some store =>
    rw [contents_of_lookup stored] at found
    simp only [contents_withStore, QueueMessage.remove_of_target codec store h.fs found]

variable (codec) in
theorem basicAck_of_none {queueName msgId : Bytes}
    (absent : QueueMessage.target (h.contents queueName) msgId = none) :
    (h.basicAck codec queueName msgId).contents = h.contents := by
  unfold basicAck
  cases stored : h.queueMessages.lookup queueName with
  | none => rfl
  | some store =>
    rw [contents_of_lookup stored] at absent
    simp only [contents_withStore, QueueMessage.remove_of_none codec store h.fs absent]
    rw [← contents_of_lookup stored, Function.update_eq_self]

/-- What a negative acknowledgement can come to: nothing, a removal, or, for a message
that is found in a queue with a dead-letter configuration, dead-lettering. -/
theorem basicNack_cases (visit : Visit Binding) (h : VirtualHost) (queueName msgId : Bytes)
    (requeue : Bool) (reason : Bytes) :
    h.basicNack codec matchHeaders visit queueName msgId requeue reason = h ∨
      ∃ info, h.queueMgr.selectQueue queueName = some info ∧ requeue = false ∧
        ((info.hasDeadLetterConfig = false ∧
            h.basicNack codec matchHeaders visit queueName msgId requeue reason =
              h.basicAck codec queueName msgId) ∨
          ∃ t, info.hasDeadLetterConfig = true ∧
            (h.contents queueName).find? (fun x => x.id == msgId) = some t ∧
            h.basicNack codec matchHeaders visit queueName msgId requeue reason =
              h.deadLetter codec matchHeaders visit queueName msgId info.dlqConfig t) := by
  unfold VirtualHost.basicNack
  cases stored : h.queueMessages.lookup queueName with
  | none => exact Or.inl rfl
  | some store =>
    cases known : h.queueMgr.selectQueue queueName with
    | none => exact Or.inl rfl
    | some info =>
      cases requeue with
      | true => exact Or.inl rfl
      | false =>
        cases configured : info.hasDeadLetterConfig with
        | false => exact Or.inr ⟨info, rfl, rfl, Or.inl ⟨configured, by simp [configured]⟩⟩
        | true =>
          cases front : store.front with
          | none => exact Or.inl (by simp [configured, front])
          | some head =>
            cases found : store.getAllMessages.find? fun m => m.id == msgId with
            | none => exact Or.inl (by simp [configured, front, found])
            | some t =>
              rw [contents_of_lookup stored]
              exact Or.inr ⟨info, rfl, rfl, Or.inr ⟨t, configured, found,
                by simp [configured, front, found]⟩⟩

theorem Reachable.wellFormed (reached : h.Reachable codec matchHeaders) : WellFormed h := by
  refine Machine.Reachable.invariant ?_ (fun h op ok => ok.apply op) reached
  rintro h ⟨name, baseDir, exchanges, seq, fs, rfl⟩
  exact WellFormed.new name baseDir exchanges seq fs

theorem WellFormed.contents_addr_nodup (ok : WellFormed h) (queueName : Bytes) :
    ((h.contents queueName).map MessagePtr.addr).Nodup := by
  cases found : h.queueMessages.lookup queueName with
  | none => simp [contents_of_absent found]
  | some store =>
    rw [contents_of_lookup found]
    exact (ok.numbered _ _ found).1.imp fun h => Nat.ne_of_lt h

def nextAddr (h : VirtualHost) (queueName : Bytes) : Nat :=
  ((h.queueMessages.lookup queueName).map QueueMessage.pushed).getD 0

theorem WellFormed.addr_lt_nextAddr (ok : WellFormed h) {queueName : Bytes} {m : MessagePtr}
    (queued : m ∈ h.contents queueName) : m.addr < h.nextAddr queueName := by
  cases found : h.queueMessages.lookup queueName with
  | none => simp [contents_of_absent found] at queued
  | some store =>
    rw [contents_of_lookup found] at queued
    simpa [nextAddr, found] using (ok.numbered _ _ found).2 m queued

theorem Frame.nextAddr_le (frame : Frame h h') (queueName : Bytes) :
    h.nextAddr queueName ≤ h'.nextAddr queueName := by
  cases before : h.queueMessages.lookup queueName with
  | none => simp [nextAddr, before]
  | some store =>
    obtain ⟨store', after⟩ := Option.isSome_iff_exists.mp
      ((frame.stores queueName).trans (Option.isSome_of_eq_some before))
    simpa [nextAddr, before, after] using (frame.extends' _ _ _ before after).pushed

theorem Frame.nextAddr_le_of_new (frame : Frame h h') {queueName : Bytes} {m : MessagePtr}
    (queued : m ∈ h'.contents queueName)
    (new : m.addr ∉ (h.contents queueName).map MessagePtr.addr) :
    h.nextAddr queueName ≤ m.addr := by
  cases after : h'.queueMessages.lookup queueName with
  | none => simp [contents_of_absent after] at queued
  | some store' =>
    obtain ⟨store, before, step⟩ := frame.origin after
    rw [contents_of_lookup after] at queued
    rw [contents_of_lookup before] at new
    simpa [nextAddr, before] using (step.issued m queued).resolve_left new

theorem WellFormed.contents_nodup (ok : WellFormed h) (queueName : Bytes) :
    (h.contents queueName).Nodup :=
  List.Nodup.of_map MessagePtr.addr (ok.contents_addr_nodup queueName)

section Declared

variable {queueName : Bytes}

theorem isDurable_iff :
    h.isDurable queueName = true ↔
      ∃ info, h.queueMgr.selectQueue queueName = some info ∧ info.durable = true := by
  unfold VirtualHost.isDurable
  cases h.queueMgr.selectQueue queueName <;> simp

theorem isDurable_congr (same : h'.queueMgr = h.queueMgr) :
    h'.isDurable queueName = h.isDurable queueName := by
  rw [VirtualHost.isDurable, VirtualHost.isDurable, same]

theorem durable_declare {name : Bytes} {q : MsgQueue}
    (durable : h.isDurable queueName = true)
    (declared : h'.queueMgr = (h.queueMgr.declare name q).2) :
    h'.isDurable queueName = true := by
  obtain ⟨info, known, flag⟩ := isDurable_iff.mp durable
  exact isDurable_iff.mpr
    ⟨info, declared ▸ MsgQueueManager.selectQueue_declare known name q, flag⟩

variable (codec matchHeaders) in
/-- No operation but a deletion changes the directory or the durability of a queue. -/
theorem queue_kept (h : VirtualHost) {op : HostOp} (stays : op ≠ .deleteQueue queueName)
    (durable : h.isDurable queueName = true) :
    (op.apply codec matchHeaders h).baseDir = h.baseDir ∧
      (op.apply codec matchHeaders h).isDurable queueName = true := by
  by_cases messages : Frame.onMessages op = true
  · have frame : Frame h (op.apply codec matchHeaders h) := Frame.apply h messages
    exact ⟨frame.baseDir, (isDurable_congr frame.queueMgr).trans durable⟩
  cases op with
  | declareExchange name type durable' autoDelete args =>
    simp only [HostOp.apply, VirtualHost.declareExchange]
    split <;> exact ⟨rfl, durable⟩
  | deleteExchange name => exact ⟨rfl, durable⟩
  | declareQueue name durable' exclusive autoDelete args =>
    obtain ⟨bound, boundDir⟩ := bind_mgr (VirtualHost.addStore codec
      { h with queueMgr := (h.queueMgr.declareQueue name durable' exclusive autoDelete args).2 }
      name durable') [] name name ∅
    obtain ⟨added, addedDir⟩ := addStore_mgr
      { h with queueMgr := (h.queueMgr.declareQueue name durable' exclusive autoDelete args).2 }
      codec name durable'
    rw [HostOp.apply, declareQueue_eq]
    exact ⟨boundDir.trans addedDir, durable_declare durable (bound.trans added)⟩
  | declareQueueWithDlq name durable' exclusive autoDelete args config =>
    obtain ⟨added, addedDir⟩ := addStore_mgr
      { h with queueMgr := (h.queueMgr.declareQueueWithDlq name durable' exclusive autoDelete
        args config).2 } codec name durable'
    rw [HostOp.apply, declareQueueWithDlq_eq]
    exact ⟨addedDir, durable_declare durable added⟩
  | deleteQueue name =>
    have differs : queueName ≠ name := fun same => stays (same ▸ rfl)
    refine ⟨rfl, ?_⟩
    simpa [HostOp.apply, VirtualHost.deleteQueue, VirtualHost.isDurable,
      MsgQueueManager.deleteQueue, MsgQueueManager.selectQueue, AList.lookup_erase_ne differs]
      using durable
  | bind exchange queue key args =>
    obtain ⟨bound, boundDir⟩ := bind_mgr h exchange queue key args
    exact ⟨boundDir, (isDurable_congr bound).trans durable⟩
  | unbind exchange queue =>
    obtain ⟨queueMgr, -, baseDir⟩ := unbind_stores h exchange queue
    exact ⟨baseDir, (isDurable_congr queueMgr).trans durable⟩
  | _ => exact absurd rfl messages

end Declared

end VirtualHost

end HzMq
