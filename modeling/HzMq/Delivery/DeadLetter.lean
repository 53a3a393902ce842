import HzMq.Common.Wire
import HzMq.Server.VirtualHost.Publish

/-!
# Negative acknowledgement

`basic_nack` looks for the message in the queue, but a consumer only ever has
messages that `basic_consume` has already taken out. On a message that is still
stored it publishes a copy without looking at the answer, and then removes by id.
-/

namespace HzMq.Delivery

open VirtualHost QueueMessage

variable (codec : Codec) (matchHeaders : StrMap Bytes → StrMap Bytes → Bool)

/-- The queue is bound to the dead-letter exchange, and its binding matches the
configured key. A dead letter has no headers. -/
def DeadLetterTarget (h : VirtualHost) (config : DeadLetterConfig) (queueName : Bytes) : Prop :=
  ∃ exchange binding, h.selectExchange config.exchangeName = some exchange ∧
    (h.bindingsOf config.exchangeName).lookup queueName = some binding ∧
    shouldPublish matchHeaders exchange.type config.routingKey ∅ binding = true

def letterQueues (visit : Visit Binding) (h : VirtualHost) (config : DeadLetterConfig) :
    List Bytes :=
  match h.selectExchange config.exchangeName with
  | none => []
  | some exchange =>
    accepted (shouldPublish matchHeaders exchange.type config.routingKey ∅)
      (some config.routingKey) (visit.order (h.bindingsOf config.exchangeName))

def letterOf (h : VirtualHost) (queueName msgId : Bytes) (requeue : Bool) :
    Option (DeadLetterConfig × Bytes) :=
  match h.queueMgr.selectQueue queueName with
  | none => none
  | some info =>
    if !requeue && info.hasDeadLetterConfig then
      ((h.contents queueName).find? fun m => m.id == msgId).map fun t => (info.dlqConfig, t.body)
    else none

def letterProps (h : VirtualHost) (config : DeadLetterConfig) (queueName : Bytes) :
    BasicProperties :=
  { dlqProps h.generateId.1 config with routingKey := queueName }

/-- The host after the dead letter was published and before the refused message is removed. -/
def publishLetter (visit : Visit Binding) (h : VirtualHost) (letter : DeadLetterConfig × Bytes) :
    VirtualHost :=
  (h.generateId.2.publishToExchange codec matchHeaders visit letter.1.exchangeName
    (some (dlqProps h.generateId.1 letter.1)) letter.2).2.2

section Nack

variable {codec matchHeaders} {h : VirtualHost} {queueName msgId : Bytes} {info : MsgQueue}

/-- A queue without a message of that id is left as it is, and so are the others. -/
theorem basicNack_of_none (unknown : ∀ x ∈ h.contents queueName, x.id ≠ msgId)
    (given : msgId ≠ []) (visit : Visit Binding) (requeue : Bool) (reason : Bytes) :
    (h.basicNack codec matchHeaders visit queueName msgId requeue reason).contents =
      h.contents := by
  rcases basicNack_cases visit h queueName msgId requeue reason with
    unchanged | ⟨info, -, -, ⟨-, removal⟩ | ⟨t, -, found, -⟩⟩
  · rw [unchanged]
  · rw [removal]
    exact basicAck_of_none codec (target_eq_none_iff.mpr (Or.inr ⟨given, unknown⟩))
  · have bears : t.id = msgId := by simpa using List.find?_some found
    exact absurd bears (unknown t (List.mem_of_find?_eq_some found))

theorem basicNack_eq_deadLetter (ok : WellFormed h)
    (known : h.queueMgr.selectQueue queueName = some info)
    (configured : info.hasDeadLetterConfig = true) {t : MessagePtr}
    (first : (h.contents queueName).find? (fun x => x.id == msgId) = some t)
    (visit : Visit Binding) (reason : Bytes) :
    h.basicNack codec matchHeaders visit queueName msgId false reason =
      h.deadLetter codec matchHeaders visit queueName msgId info.dlqConfig t := by
  have present : (h.queueMessages.lookup queueName).isSome := by
    rw [← ok.stored, MsgQueueManager.exists?]
    exact Option.isSome_of_eq_some known
  obtain ⟨store, stored⟩ := Option.isSome_iff_exists.mp present
  rw [contents_of_lookup stored] at first
  obtain ⟨head, front⟩ : ∃ head, store.front = some head := by
    cases held : store.msgs with
    | nil => simp [held] at first
    | cons head rest => exact ⟨head, by simp [QueueMessage.front, held]⟩
  unfold VirtualHost.basicNack
  simp [stored, known, configured, front, getAllMessages, first]

/-- A copy reaches some queue exactly when the configured key is empty or names a queue, and
such a queue is a target. -/
theorem letterQueues_ne_nil_iff (config : DeadLetterConfig) (visit : Visit Binding) :
    letterQueues matchHeaders visit h config ≠ [] ↔
      ∃ name, DeadLetterTarget matchHeaders h config name ∧
        (config.routingKey = [] ∨ name = config.routingKey) := by
  cases exchangeFound : h.selectExchange config.exchangeName with
  | none => simp [letterQueues, DeadLetterTarget, exchangeFound]
  | some exchange =>
    simp only [letterQueues, exchangeFound, accepted_ne_nil_iff, DeadLetterTarget,
      Option.some.injEq, visit.mem_order]
    constructor
    · rintro ⟨name, binding, bound, matching, named⟩
      exact ⟨name, ⟨exchange, binding, rfl, bound, matching⟩, named⟩
    · rintro ⟨name, ⟨_, binding, rfl, bound, matching⟩, named⟩
      exact ⟨name, binding, bound, matching, named⟩

theorem letterQueues_nodup (config : DeadLetterConfig) (visit : Visit Binding) :
    (letterQueues matchHeaders visit h config).Nodup := by
  unfold letterQueues
  split
  · exact List.nodup_nil
  · exact (visit.keys_nodup _).sublist (accepted_sublist _ _ _)

variable (codec matchHeaders) in
theorem publish_deadLetter (ok : WellFormed h) (id : Bytes) (config : DeadLetterConfig)
    (visit : Visit Binding) (body : Bytes) :
    ∃ log, Appends h (h.publishToExchange codec matchHeaders visit config.exchangeName
        (some (dlqProps id config)) body).2.2 log ∧
      (∀ e ∈ log, e.2.body = body ∧
        e.2.payload.properties? = some (h.stamped (some (dlqProps id config)) e.1)) ∧
      log.map Prod.fst = letterQueues matchHeaders visit h config := by
  cases exchangeFound : h.selectExchange config.exchangeName with
  | none =>
    rw [publishToExchange_absent codec matchHeaders visit exchangeFound]
    exact ⟨[], Appends.none rfl, by simp, by simp [letterQueues, exchangeFound]⟩
  | some exchange =>
    obtain ⟨log, appends, bodies, names, -⟩ :=
      publishToExchange_spec codec matchHeaders ok visit exchangeFound
        (some (dlqProps id config)) body
    refine ⟨log, appends, bodies, ?_⟩
    simp only [letterQueues, exchangeFound]
    exact names

variable (codec matchHeaders) in
theorem publishLetter_spec (ok : WellFormed h) (visit : Visit Binding)
    (letter : DeadLetterConfig × Bytes) :
    ∃ log, Appends h (publishLetter codec matchHeaders visit h letter) log ∧
      WellFormed (publishLetter codec matchHeaders visit h letter) ∧
      (∀ e ∈ log, e.2.body = letter.2 ∧
        e.2.payload.properties? = some (letterProps h letter.1 e.1)) ∧
      log.map Prod.fst = letterQueues matchHeaders visit h letter.1 := by
  have ok' : WellFormed h.generateId.2 := ok.of_frame (Frame.seq h _)
  obtain ⟨log, appends, bodies, names⟩ := publish_deadLetter codec matchHeaders ok'
    h.generateId.1 letter.1 visit letter.2
  refine ⟨log, appends, ok'.of_frame (Frame.publishToExchange visit _ _ _ _),
    fun e inLog => ⟨(bodies e inLog).1, ?_⟩, names⟩
  have given : (dlqProps h.generateId.1 letter.1).id ≠ [] := h.generateId_ne_nil
  rw [(bodies e inLog).2, stamped_of_id _ given, letterProps]

variable (codec matchHeaders) in
/-- Dead-lettering is a publication of copies followed by an acknowledgement. -/
theorem deadLetter_split (ok : WellFormed h) (configured : info.hasDeadLetterConfig = true)
    (queueName msgId : Bytes) (t : MessagePtr) (visit : Visit Binding) :
    ∃ mid log, Appends h mid log ∧ WellFormed mid ∧
      (∀ e ∈ log, e.2.body = t.body ∧
        e.2.payload.properties? = some (letterProps h info.dlqConfig e.1)) ∧
      log.map Prod.fst = letterQueues matchHeaders visit h info.dlqConfig ∧
      h.deadLetter codec matchHeaders visit queueName msgId info.dlqConfig t =
        mid.basicAck codec queueName msgId := by
  have exchangeGiven : info.dlqConfig.exchangeName ≠ [] := by
    simpa [MsgQueue.hasDeadLetterConfig] using configured
  obtain ⟨log, appends, okMid, copies, names⟩ :=
    publishLetter_spec codec matchHeaders ok visit (info.dlqConfig, t.body)
  refine ⟨_, log, appends, okMid, copies, names, ?_⟩
  simp only [VirtualHost.deadLetter, if_pos exchangeGiven]
  rfl

variable (codec matchHeaders) in
/-- The copies, if any, go to the ends of their queues, and the message that `remove`
finds is gone. -/
theorem deadLetter_contents (ok : WellFormed h) (configured : info.hasDeadLetterConfig = true)
    {m : MessagePtr} {rest : List MessagePtr}
    (found : target (h.contents queueName) msgId = some (m, rest)) (t : MessagePtr)
    (visit : Visit Binding) :
    ∃ log : List (Bytes × MessagePtr),
      (∀ e ∈ log, (e.2.body = t.body ∧
        e.2.payload.properties? = some (letterProps h info.dlqConfig e.1)) ∧
        e.2 ∉ h.contents e.1) ∧
      log.map Prod.fst = letterQueues matchHeaders visit h info.dlqConfig ∧
      ∀ name,
        (h.deadLetter codec matchHeaders visit queueName msgId info.dlqConfig t).contents name =
        Function.update h.contents queueName rest name ++
          (log.filter fun e => e.1 = name).map Prod.snd := by
  obtain ⟨mid, log, appends, kept, copies, names, split⟩ :=
    deadLetter_split codec matchHeaders ok configured queueName msgId t visit
  refine ⟨log, fun e inLog => ⟨copies e inLog, appends.not_mem kept inLog⟩, names,
    fun name => ?_⟩
  have still := target_append found ((log.filter fun e => e.1 = queueName).map Prod.snd)
  rw [← appends.contents_eq] at still
  rw [split, basicAck_of_target codec still]
  by_cases same : name = queueName
  · subst same
    simp
  · simpa only [Function.update_of_ne same] using appends.contents_eq name

end Nack

def consumeThenNack (visit : Visit Binding) (h : VirtualHost) (queueName msgId : Bytes)
    (requeue : Bool) (reason : Bytes) : VirtualHost :=
  (h.basicConsume codec queueName).2.basicNack codec matchHeaders visit queueName msgId requeue
    reason

/-- What a negative acknowledgement of the consumed head `m` is for; `rest` is what
the queue held behind it. A requeued message is back, a dead letter has reached all
its targets, and otherwise the message is gone without a trace. -/
def NackEffect (h h' : VirtualHost) (queueName : Bytes) (info : MsgQueue) (m : MessagePtr)
    (rest : List MessagePtr) (requeue : Bool) : Prop :=
  if requeue then (h'.contents queueName).Perm (m :: rest)
  else if info.hasDeadLetterConfig then
    (h.selectExchange info.dlqConfig.exchangeName).isSome →
      m ∉ h'.contents queueName ∧
        ∀ name, DeadLetterTarget matchHeaders h info.dlqConfig name →
          ∃ copy, copy.body = m.body ∧
            h'.contents name = Function.update h.contents queueName rest name ++ [copy]
  else m ∉ h'.contents queueName ∧ h'.contents = Function.update h.contents queueName rest

section Consumed

variable {codec matchHeaders} {h : VirtualHost} {queueName : Bytes} {m : MessagePtr}
  {rest : List MessagePtr}

variable (codec matchHeaders) in
/-- Nothing happens after the consumption, whatever the arguments. -/
theorem consumeThenNack_contents (held : h.contents queueName = m :: rest) (given : m.id ≠ [])
    (unique : ∀ x ∈ rest, x.id ≠ m.id) (visit : Visit Binding) (requeue : Bool) (reason : Bytes) :
    (consumeThenNack codec matchHeaders visit h queueName m.id requeue reason).contents =
      Function.update h.contents queueName rest := by
  have left : (h.basicConsume codec queueName).2.contents =
      Function.update h.contents queueName rest := (takeFront_cons codec held).2
  have unknown : ∀ x ∈ (h.basicConsume codec queueName).2.contents queueName, x.id ≠ m.id := by
    rw [left, Function.update_self]
    exact unique
  rw [consumeThenNack, basicNack_of_none unknown given, left]

end Consumed

/-- A negative acknowledgement has its effect exactly when the message is not to be
requeued and no queue is waiting for the dead letter. -/
theorem nack_effect_iff {h : VirtualHost} (reached : h.Reachable codec matchHeaders)
    {queueName : Bytes} {info : MsgQueue} (_known : h.queueMgr.selectQueue queueName = some info)
    {m : MessagePtr} {rest : List MessagePtr} (held : h.contents queueName = m :: rest)
    (given : m.id ≠ []) (unique : ∀ x ∈ rest, x.id ≠ m.id) (visit : Visit Binding)
    (requeue : Bool) (reason : Bytes) :
    (h.basicConsume codec queueName).1 = some m ∧
      (NackEffect matchHeaders h
          (consumeThenNack codec matchHeaders visit h queueName m.id requeue reason) queueName info
          m rest requeue ↔
        requeue = false ∧ (info.hasDeadLetterConfig = true →
          ∀ name, ¬ DeadLetterTarget matchHeaders h info.dlqConfig name)) := by
  refine ⟨(takeFront_cons codec held).1, ?_⟩
  have after := consumeThenNack_contents codec matchHeaders held given
    unique visit requeue reason
  have fresh : m ∉ rest := by
    have distinct := reached.wellFormed.contents_nodup queueName
    rw [held] at distinct
    exact (List.nodup_cons.mp distinct).1
  have gone : m ∉ Function.update h.contents queueName rest queueName := by
    rwa [Function.update_self]
  rw [NackEffect, after]
  cases requeue with
  | true =>
    simp only [if_true, Function.update_self, Bool.true_eq_false, false_and, iff_false]
    intro restored
    simpa using restored.length_eq
  | false =>
    cases configured : info.hasDeadLetterConfig with
    | false => simpa using fresh
    | true =>
      simp only [Bool.false_eq_true, if_false, if_true, true_and, forall_const]
      constructor
      · intro effect name isTarget
        obtain ⟨exchange, binding, exchangeFound, bound, matching⟩ := isTarget
        obtain ⟨-, delivered⟩ := effect (Option.isSome_of_eq_some exchangeFound)
        obtain ⟨copy, -, grown⟩ :=
          delivered name ⟨exchange, binding, exchangeFound, bound, matching⟩
        simpa using congrArg List.length grown
      · intro noTarget _
        exact ⟨gone, fun name isTarget => absurd isTarget (noTarget name)⟩

def requeueHost : VirtualHost :=
  Machine.exec (HostOp.apply Wire.codec fun _ _ => false)
    .blank
    [.declareQueue (str "test_queue") false false false ∅,
      .basicPublish (str "test_queue") (some {}) (str "TestMessage")]

/-- Its message; the id comes from `generate_id`. -/
def requeueMessage : MessagePtr :=
  ⟨0, { payload := { properties? := some { id := str "1", routingKey := str "test_queue" }
                     body := str "TestMessage" } }⟩

theorem requeueHost_reachable : requeueHost.Reachable Wire.codec fun _ _ => false :=
  Machine.Reachable.exec (.start blank_initial) _

/-- Without a dead-letter configuration the refused message is gone. -/
theorem nack_effect_example :
    NackEffect (fun _ _ => false) requeueHost
      (consumeThenNack Wire.codec (fun _ _ => false) .stored requeueHost (str "test_queue")
        requeueMessage.id false (str "Processing failed"))
      (str "test_queue") { name := str "test_queue" } requeueMessage [] false :=
  (nack_effect_iff Wire.codec (fun _ _ => false) requeueHost_reachable rfl (by decide) (by decide)
    (by simp) .stored false (str "Processing failed")).2.mpr
    ⟨rfl, fun configured => absurd configured (by decide)⟩

/-- With `requeue` it is gone as well. -/
theorem nack_requeue_loses_message :
    requeueHost.Reachable Wire.codec (fun _ _ => false) ∧
      requeueHost.queueMgr.selectQueue (str "test_queue") = some { name := str "test_queue" } ∧
      requeueHost.contents (str "test_queue") = [requeueMessage] ∧ requeueMessage.id ≠ [] ∧
      ¬ NackEffect (fun _ _ => false) requeueHost
        (consumeThenNack Wire.codec (fun _ _ => false) .stored requeueHost (str "test_queue")
          requeueMessage.id true (str "Temporary failure"))
        (str "test_queue") { name := str "test_queue" } requeueMessage [] true := by
  have held : requeueHost.contents (str "test_queue") = [requeueMessage] := by decide
  refine ⟨requeueHost_reachable, rfl, held, by decide, ?_⟩
  intro restored
  rw [NackEffect, if_pos rfl, consumeThenNack_contents _ _ held (by decide) (by simp),
    Function.update_self] at restored
  simpa using restored.length_eq

/-- Dead-lettering is all or nothing: one message of that id leaves the queue and
copies of it are new elsewhere, or no queue changes. -/
def AllOrNothing (h h' : VirtualHost) (queueName msgId : Bytes) : Prop :=
  h'.contents = h.contents ∨
    ∃ m before after, ∃ log : List (Bytes × MessagePtr),
      h.contents queueName = before ++ m :: after ∧ m.id = msgId ∧ log ≠ [] ∧
      (∀ e ∈ log, e.2.body = m.body ∧ e.2 ∉ h.contents e.1) ∧
      ∀ name, h'.contents name = Function.update h.contents queueName (before ++ after) name ++
        (log.filter fun e => e.1 = name).map Prod.snd

theorem mem_after_removal_iff {h h' : VirtualHost} {queueName : Bytes} {m x : MessagePtr}
    {before after : List MessagePtr} {log : List (Bytes × MessagePtr)} (ok : WellFormed h)
    (split : h.contents queueName = before ++ m :: after)
    (fresh : ∀ e ∈ log, e.2 ∉ h.contents e.1)
    (result : h'.contents queueName = before ++ after ++
      (log.filter fun e => e.1 = queueName).map Prod.snd)
    (queued : x ∈ h.contents queueName) : x ∈ h'.contents queueName ↔ x ≠ m := by
  have notLogged : x ∉ (log.filter fun e => e.1 = queueName).map Prod.snd := by
    intro logged
    obtain ⟨e, filtered, rfl⟩ := List.mem_map.mp logged
    obtain ⟨inLog, named⟩ := List.mem_filter.mp filtered
    have here : e.1 = queueName := by simpa using named
    exact fresh e inLog (here ▸ queued)
  have distinct := ok.contents_nodup queueName
  rw [split, List.nodup_middle, List.nodup_cons] at distinct
  rw [split, List.mem_append, List.mem_cons] at queued
  rw [result, List.mem_append]
  constructor
  · rintro (kept | logged) rfl
    · exact distinct.1 kept
    · exact notLogged logged
  · intro other
    exact Or.inl (List.mem_append.mpr (queued.imp_right fun tail => tail.resolve_left other))

/-- A removal with additions has one description: it tells which message is gone and
whether anything was added. -/
theorem removal_determined {h h' : VirtualHost} {queueName : Bytes} {m m' : MessagePtr}
    {before after before' after' : List MessagePtr} {log log' : List (Bytes × MessagePtr)}
    (ok : WellFormed h) (split : h.contents queueName = before ++ m :: after)
    (split' : h.contents queueName = before' ++ m' :: after')
    (fresh : ∀ e ∈ log, e.2 ∉ h.contents e.1) (fresh' : ∀ e ∈ log', e.2 ∉ h.contents e.1)
    (result : ∀ name, h'.contents name =
      Function.update h.contents queueName (before ++ after) name ++
        (log.filter fun e => e.1 = name).map Prod.snd)
    (result' : ∀ name, h'.contents name =
      Function.update h.contents queueName (before' ++ after') name ++
        (log'.filter fun e => e.1 = name).map Prod.snd) :
    m' = m ∧ (log = [] → log' = []) := by
  have missing {x : MessagePtr} (queued : x ∈ h.contents queueName) :
      x ∈ h'.contents queueName ↔ x ≠ m :=
    mem_after_removal_iff ok split fresh (by rw [result, Function.update_self]) queued
  have missing' {x : MessagePtr} (queued : x ∈ h.contents queueName) :
      x ∈ h'.contents queueName ↔ x ≠ m' :=
    mem_after_removal_iff ok split' fresh' (by rw [result', Function.update_self]) queued
  have queued' : m' ∈ h.contents queueName := by simp [split']
  constructor
  · by_contra other
    exact (missing' queued').mp ((missing queued').mpr other) rfl
  · intro none
    by_contra some'
    -- a copy that the other description speaks of would have to be somewhere
    obtain ⟨e, inLog⟩ := List.exists_mem_of_ne_nil _ some'
    have copied : e.2 ∈ Function.update h.contents queueName (before ++ after) e.1 := by
      have there := result e.1
      rw [none, result' e.1, List.filter_nil, List.map_nil, List.append_nil] at there
      rw [← there]
      exact List.mem_append_right _ (List.mem_map_of_mem (List.mem_filter.mpr ⟨inLog, by simp⟩))
    refine fresh' e inLog ?_
    by_cases here : e.1 = queueName
    · rw [here, Function.update_self] at copied
      rw [here, split]
      rw [List.mem_append] at copied
      rw [List.mem_append, List.mem_cons]
      exact copied.imp_right Or.inr
    · rwa [Function.update_of_ne here] at copied

/-- It is so exactly when some queue takes the copy and the removal by id, which pops
the head on an empty id, hits a message of that id. -/
theorem deadLetter_allOrNothing_iff {h : VirtualHost} (reached : h.Reachable codec matchHeaders)
    {queueName msgId : Bytes} {info : MsgQueue}
    (known : h.queueMgr.selectQueue queueName = some info)
    (configured : info.hasDeadLetterConfig = true)
    (carried : ∃ m ∈ h.contents queueName, m.id = msgId) (visit : Visit Binding) (reason : Bytes) :
    AllOrNothing h (h.basicNack codec matchHeaders visit queueName msgId false reason) queueName
        msgId ↔
      (∃ name, DeadLetterTarget matchHeaders h info.dlqConfig name ∧
        (info.dlqConfig.routingKey = [] ∨ name = info.dlqConfig.routingKey)) ∧
      (msgId ≠ [] ∨ (h.contents queueName).head?.map MessagePtr.id = some []) := by
  have ok := reached.wellFormed
  obtain ⟨x, queued, rfl⟩ := carried
  obtain ⟨⟨m, rest⟩, found⟩ := Option.isSome_iff_exists.mp (target_isSome_of_mem queued)
  obtain ⟨t, first⟩ : ∃ t, (h.contents queueName).find? (fun y => y.id == x.id) = some t := by
    rw [← Option.isSome_iff_exists, List.find?_isSome]
    exact ⟨x, queued, by simp⟩
  rw [basicNack_eq_deadLetter ok known configured first visit reason]
  obtain ⟨log, copies, names, result⟩ :=
    deadLetter_contents codec matchHeaders ok configured found t visit
  have nonempty : log ≠ [] ↔ letterQueues matchHeaders visit h info.dlqConfig ≠ [] := by
    rw [← names]
    simp
  rw [letterQueues_ne_nil_iff] at nonempty
  obtain ⟨before, after, split, rfl, popped, searched⟩ := target_split found
  have removed : m ∈ h.contents queueName := by simp [split]
  have hits : m.id = x.id ↔ (x.id ≠ [] ∨ (h.contents queueName).head?.map MessagePtr.id = some [])
      := by
    by_cases empty : x.id = []
    · simp [empty, split, popped empty]
    · simp [empty, (searched empty).1]
  rw [← nonempty, ← hits]
  constructor
  · rintro (unchanged | ⟨m', before', after', log', split', bears, some', copies', result'⟩)
    · have gone := mem_after_removal_iff ok split (fun e inLog => (copies e inLog).2)
        (by rw [result, Function.update_self]) removed
      exact absurd rfl (gone.mp (unchanged ▸ removed))
    · obtain ⟨same, noCopies⟩ := removal_determined ok split split'
        (fun e inLog => (copies e inLog).2) (fun e inLog => (copies' e inLog).2) result result'
      exact ⟨fun none => some' (noCopies none), same ▸ bears⟩
  · rintro ⟨some', bears⟩
    have same : t = m := by
      have again := find?_of_target found bears
      rw [first] at again
      exact Option.some.inj again
    exact Or.inr ⟨m, before, after, log, split, bears, some',
      fun e inLog => ⟨same ▸ (copies e inLog).1.1, (copies e inLog).2⟩, result⟩

/-- A dead-letter queue bound by the configured key, and one message to be refused. -/
def deadLetterHost (key : Bytes) : VirtualHost :=
  Machine.exec (HostOp.apply Wire.codec fun _ _ => false)
    .blank
    [.declareExchange (str "dlq_exchange") .direct false false ∅,
      .declareQueue (str "dlq_queue") false false false ∅,
      .bind (str "dlq_exchange") (str "dlq_queue") key ∅,
      .declareQueueWithDlq (str "test_queue") false false false ∅ ⟨str "dlq_exchange", key, 3⟩,
      .basicPublish (str "test_queue") (some {}) (str "TestMessage")]

theorem deadLetterHost_reachable (key : Bytes) :
    (deadLetterHost key).Reachable Wire.codec fun _ _ => false :=
  Machine.Reachable.exec (.start blank_initial) _

/-- A key that is the dead-letter queue's own name works. -/
theorem deadLetter_allOrNothing_example :
    AllOrNothing (deadLetterHost (str "dlq_queue"))
      ((deadLetterHost (str "dlq_queue")).basicNack Wire.codec (fun _ _ => false) .stored
        (str "test_queue") (str "1") false (str "Processing failed"))
      (str "test_queue") (str "1") :=
  (deadLetter_allOrNothing_iff Wire.codec (fun _ _ => false) (deadLetterHost_reachable _)
    (show _ = some { name := str "test_queue",
                     dlqConfig := ⟨str "dlq_exchange", str "dlq_queue", 3⟩ } from rfl)
    rfl ⟨requeueMessage, by decide, rfl⟩ .stored (str "Processing failed")).mpr
    ⟨⟨str "dlq_queue", ⟨_, ⟨str "dlq_exchange", str "dlq_queue", str "dlq_queue", ∅⟩, rfl,
      by decide, by decide⟩, Or.inr rfl⟩, Or.inl (by decide)⟩

/-- With any other key the copy is refused, and the message is removed all the same. -/
theorem deadLetter_loses_message :
    (deadLetterHost (str "dlq_key")).Reachable Wire.codec (fun _ _ => false) ∧
      (deadLetterHost (str "dlq_key")).queueMgr.selectQueue (str "test_queue") =
        some { name := str "test_queue", dlqConfig := ⟨str "dlq_exchange", str "dlq_key", 3⟩ } ∧
      (deadLetterHost (str "dlq_key")).contents (str "test_queue") = [requeueMessage] ∧
      ¬ AllOrNothing (deadLetterHost (str "dlq_key"))
        ((deadLetterHost (str "dlq_key")).basicNack Wire.codec (fun _ _ => false) .stored
          (str "test_queue") (str "1") false (str "Processing failed"))
        (str "test_queue") (str "1") := by
  have held : (deadLetterHost (str "dlq_key")).contents (str "test_queue") = [requeueMessage] := by
    decide
  have empty : ∀ name, ((deadLetterHost (str "dlq_key")).basicNack Wire.codec (fun _ _ => false)
      .stored (str "test_queue") (str "1") false (str "Processing failed")).contents name = [] :=
    fun name => List.eq_nil_iff_forall_not_mem.mpr (forall_mem_contents (by decide) name)
  refine ⟨deadLetterHost_reachable _, rfl, held, ?_⟩
  rintro (unchanged | ⟨m, before, after, log, -, -, some', -, result⟩)
  · have kept := congrFun unchanged (str "test_queue")
    rw [held, empty] at kept
    cases kept
  · obtain ⟨e, inLog⟩ := List.exists_mem_of_ne_nil _ some'
    have copied := result e.1
    rw [empty, eq_comm, List.append_eq_nil_iff, List.map_eq_nil_iff, List.filter_eq_nil_iff]
      at copied
    simpa using copied.2 e inLog

end HzMq.Delivery
