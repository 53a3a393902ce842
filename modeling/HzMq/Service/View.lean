import HzMq.Service.Model

/-!
# What there is to see of a virtual host

The service that a host offers, and for each function of the host what it does to
this service. The disk comes in at one place only: a durable declaration starts a
new queue with the letters that it reads from the queue's file.
-/

namespace HzMq

open FileStream KeyedFifo

def MessagePtr.letter (m : MessagePtr) : Letter := ⟨m.payload.properties?, m.body⟩

@[simp] theorem MessagePtr.letter_id (m : MessagePtr) : m.letter.id = m.id := rfl

def MsgQueue.target (q : MsgQueue) : DeadLetterTarget :=
  ⟨q.dlqConfig.exchangeName, q.dlqConfig.routingKey⟩

def lettersOf (msgs : List MessagePtr) : List Letter := msgs.map MessagePtr.letter

namespace VirtualHost

def service (h : VirtualHost) : Service where
  exchanges exchangeName := (h.selectExchange exchangeName).map Exchange.type
  queues queueName := (h.queueMgr.selectQueue queueName).map MsgQueue.target
  bindings := h.exchangeBindings
  letters queueName := lettersOf (h.contents queueName)
  seq := h.seq

/-- The letters a declaration reads from the disk for a new queue. -/
def kept (codec : Codec) (h : VirtualHost) (queueName : Bytes) (durable : Bool) : List Letter :=
  if durable then
    let (store, fs) := QueueMessage.new h.fs h.baseDir queueName
    lettersOf (store.recovery codec fs).msgs
  else []

variable {codec : Codec} {h h' : VirtualHost}

@[simp] theorem service_exchanges (h : VirtualHost) (exchangeName : Bytes) :
    h.service.exchanges exchangeName = (h.selectExchange exchangeName).map Exchange.type := rfl

@[simp] theorem service_queues (h : VirtualHost) (queueName : Bytes) :
    h.service.queues queueName = (h.queueMgr.selectQueue queueName).map MsgQueue.target := rfl

@[simp] theorem service_letters (h : VirtualHost) (queueName : Bytes) :
    h.service.letters queueName = lettersOf (h.contents queueName) := rfl

@[simp] theorem service_bindings (h : VirtualHost) : h.service.bindings = h.exchangeBindings := rfl

@[simp] theorem service_seq (h : VirtualHost) : h.service.seq = h.seq := rfl

@[simp] theorem service_bindingsOf (h : VirtualHost) (exchangeName : Bytes) :
    h.service.bindingsOf exchangeName = h.bindingsOf exchangeName := rfl

theorem WellFormed.service_isSome (ok : WellFormed h) (queueName : Bytes) :
    (h.service.queues queueName).isSome = (h.queueMessages.lookup queueName).isSome := by
  rw [service_queues, Option.isSome_map, ← ok.stored]
  rfl

theorem Frame.service_eq (frame : Frame h h') {t : Service}
    (letters : ∀ queueName, lettersOf (h'.contents queueName) = t.letters queueName)
    (seq : h'.seq = t.seq) (exchanges : t.exchanges = h.service.exchanges)
    (queues : t.queues = h.service.queues) (bindings : t.bindings = h.service.bindings) :
    h'.service = t := by
  refine Service.ext ?_ ?_ ?_ (funext letters) seq
  · rw [exchanges]
    funext exchangeName
    simp only [service_exchanges, frame.selectExchange]
  · rw [queues]
    funext queueName
    simp only [service_queues, frame.queueMgr]
  · rw [bindings]
    exact frame.exchangeBindings

section Removal

theorem lettersOf_rest {msgs rest : List MessagePtr} {id : Bytes} {m : MessagePtr}
    (found : QueueMessage.target msgs id = some (m, rest)) :
    lettersOf rest = Letter.remove (lettersOf msgs) id := by
  cases msgs with
  | nil => cases found
  | cons head tail =>
    rw [QueueMessage.target] at found
    rw [Letter.remove]
    split
    · next empty =>
      rw [if_pos empty, Option.some.injEq, Prod.mk.injEq] at found
      obtain ⟨-, rfl⟩ := found
      rfl
    · next set =>
      rw [if_neg set, Option.map_eq_some_iff] at found
      obtain ⟨x, -, pair⟩ := found
      obtain ⟨-, rfl⟩ := Prod.mk.inj pair
      rw [lettersOf, lettersOf, List.eraseP_map]
      rfl

theorem lettersOf_none {msgs : List MessagePtr} {id : Bytes}
    (absent : QueueMessage.target msgs id = none) :
    Letter.remove (lettersOf msgs) id = lettersOf msgs := by
  rw [Letter.remove]
  rcases QueueMessage.target_eq_none_iff.mp absent with rfl | ⟨set, others⟩
  · split <;> rfl
  · rw [if_neg set, List.eraseP_of_forall_not]
    intro l member
    obtain ⟨m, queued, rfl⟩ := List.mem_map.mp member
    simpa using others m queued

theorem basicAck_seq (h : VirtualHost) (queueName msgId : Bytes) :
    (h.basicAck codec queueName msgId).seq = h.seq := by
  unfold VirtualHost.basicAck
  split <;> rfl

variable (codec) in
theorem basicAck_service (h : VirtualHost) (queueName msgId : Bytes) :
    (h.basicAck codec queueName msgId).service = h.service.ack queueName msgId := by
  refine (Frame.basicAck h queueName msgId).service_eq ?_ (basicAck_seq h queueName msgId)
    rfl rfl rfl
  intro other
  change _ = Function.update h.service.letters queueName
    (Letter.remove (h.service.letters queueName) msgId) other
  cases found : QueueMessage.target (h.contents queueName) msgId with
  | none =>
    have unchanged : Letter.remove (h.service.letters queueName) msgId =
        h.service.letters queueName := lettersOf_none found
    rw [basicAck_of_none codec found, unchanged, Function.update_eq_self, service_letters]
  | some taken =>
    rw [basicAck_of_target codec found, Function.apply_update fun _ => lettersOf,
      lettersOf_rest found]
    rfl

theorem takeFront_seq (h : VirtualHost) (queueName : Bytes) :
    (h.takeFront codec queueName).2.seq = h.seq := by
  unfold VirtualHost.takeFront
  split
  · rfl
  · split <;> rfl

variable (codec) in
theorem takeFront_service (h : VirtualHost) (queueName : Bytes) :
    (h.takeFront codec queueName).1.map MessagePtr.letter = (h.service.take queueName).1 ∧
      (h.takeFront codec queueName).2.service = (h.service.take queueName).2 := by
  cases held : h.contents queueName with
  | nil =>
    have nothing : h.service.letters queueName = [] := by rw [service_letters, held]; rfl
    rw [takeFront_empty codec held, Service.take, nothing, List.tail_nil, ← nothing,
      Function.update_eq_self]
    exact ⟨by rw [nothing]; rfl, rfl⟩
  | cons m rest =>
    obtain ⟨taken, remaining⟩ := takeFront_cons codec held
    have front : h.service.letters queueName = m.letter :: lettersOf rest := by
      rw [service_letters, held]
      rfl
    refine ⟨by rw [taken, Service.take, front]; rfl, ?_⟩
    refine (Frame.takeFront h queueName).service_eq ?_ (takeFront_seq h queueName) rfl rfl rfl
    intro other
    rw [remaining, Function.apply_update fun _ => lettersOf, Service.take, front]
    rfl

theorem queryTarget_service (h : VirtualHost) {entries : List (Bytes × QueueMessage)}
    (stored : ∀ e ∈ entries, h.queueMessages.lookup e.1 = some e.2) :
    (queryTarget entries).map (fun e => e.1) =
      (entries.map Prod.fst).find? fun queueName => !(h.service.letters queueName).isEmpty := by
  induction entries with
  | nil => rfl
  | cons entry rest ih =>
    obtain ⟨queueName, store⟩ := entry
    obtain ⟨first, later⟩ := List.forall_mem_cons.mp stored
    rw [queryTarget, List.map_cons, List.find?_cons, service_letters,
      contents_of_lookup first]
    cases held : store.msgs with
    | nil => simpa [QueueMessage.getableCount, held, lettersOf] using ih later
    | cons m msgs => simp [QueueMessage.getableCount, QueueMessage.front, held, lettersOf]

variable (codec) in
theorem basicQuery_service (h : VirtualHost) (visit : Visit QueueMessage) :
    let asked := h.service.query ((visit.order h.queueMessages).map Prod.fst)
    (h.basicQuery codec visit).1 = asked.1 ∧ (h.basicQuery codec visit).2.service = asked.2 := by
  have located := h.queryTarget_service fun e member => visit.mem_order.mp member
  simp only [basicQuery_eq, Service.query, ← located]
  cases found : queryTarget (visit.order h.queueMessages) with
  | none => exact ⟨rfl, rfl⟩
  | some pulled =>
    obtain ⟨queueName, store, msg⟩ := pulled
    obtain ⟨visited, held⟩ := queryTarget_some found
    obtain ⟨taken, remaining⟩ := takeFront_service codec h queueName
    have front : (h.takeFront codec queueName).1 = some msg := by
      simp [takeFront, visit.mem_order.mp visited, held]
    simp only [Option.map_some, ← taken, ← remaining, front, Option.getD_some]
    exact ⟨rfl, trivial⟩

end Removal

section Publication

variable {props : Bytes → BasicProperties} {body : Bytes} {log : List (Bytes × MessagePtr)}

theorem letterFor_eq (h : VirtualHost) (bp : Option BasicProperties) (body queueName : Bytes) :
    h.service.letterFor bp body queueName = ⟨some (h.stamped bp queueName), body⟩ := by
  cases bp <;> rfl

theorem Deliveries.service (run : Deliveries codec props body h log h')
    (distinct : (log.map Prod.fst).Nodup) :
    h'.service =
      { h.service.post (log.map Prod.fst) (fun queueName => ⟨some (props queueName), body⟩) with
        seq := h'.seq } := by
  refine run.frame.service_eq ?_ rfl rfl rfl rfl
  intro queueName
  simp only [Service.post]
  split
  · next receives =>
    obtain ⟨e, member, rfl⟩ := List.mem_map.mp receives
    obtain ⟨bodies, given⟩ := run.stored e member
    rw [run.appends.contents_of_mem distinct member, lettersOf, List.map_append, List.map_cons,
      MessagePtr.letter, bodies, given]
    rfl
  · next absent => rw [run.appends.contents_of_not_mem absent, service_letters]

theorem assignId_seq (h : VirtualHost) (bp : Option BasicProperties) :
    (h.assignId bp).2.seq =
      if Service.counts bp true then h.service.advance.seq else h.service.seq := by
  cases bp with
  | none => rfl
  | some props =>
    simp only [assignId, Service.counts, Option.any_some, Bool.true_and, decide_eq_true_eq]
    split <;> rfl

variable (codec) in
theorem basicPublish_seq {queueName : Bytes}
    (stored : (h.queueMessages.lookup queueName).isSome) (bp : Option BasicProperties)
    (body : Bytes) :
    (h.basicPublish codec queueName bp body).2.2.seq =
      if Service.counts bp true then h.service.advance.seq else h.service.seq := by
  obtain ⟨store, found⟩ := Option.isSome_iff_exists.mp stored
  rw [← assignId_seq]
  unfold VirtualHost.basicPublish
  simp only [found]
  split <;> rfl

theorem basicPublish_counts {queueName : Bytes}
    (stored : (h.queueMessages.lookup queueName).isSome) (bp : Option BasicProperties)
    (body : Bytes) (tried : Bool) :
    Service.counts (h.basicPublish codec queueName bp body).2.1 tried = false := by
  obtain ⟨store, found⟩ := Option.isSome_iff_exists.mp stored
  unfold VirtualHost.basicPublish
  simp only [found, assignId_props]
  cases bp with
  | none =>
    split <;> simp [Service.counts]
  | some props =>
    have given := h.stampedId_ne_nil props
    split <;> simp [Service.counts, given]

variable (codec) in
theorem publishExLoop_seq (type : ExchangeType) (props : BasicProperties) (body : Bytes)
    (entries : List (Bytes × Binding)) (delivered : Bool) (h : VirtualHost) :
    (publishExLoop codec type props body entries delivered h).2.seq = h.seq := by
  induction entries generalizing delivered h with
  | nil => rfl
  | cons entry rest ih =>
    rw [publishExLoop]
    split
    · exact ih delivered h
    · split
      · exact ih delivered h
      · exact ih _ _

variable (codec) in
theorem publishLoop_seq (should : Binding → Bool) (body : Bytes)
    (entries : List (Bytes × Binding)) (published : Bool) (bp : Option BasicProperties)
    (h : VirtualHost) (stored : ∀ e ∈ entries, (h.queueMessages.lookup e.1).isSome) :
    (publishLoop codec should body entries published bp h).2.2.seq =
      if Service.counts bp (entries.any fun e => should e.2) then h.service.advance.seq
      else h.service.seq := by
  induction entries generalizing published bp h with
  | nil => simp [publishLoop, Service.counts]
  | cons entry rest ih =>
    obtain ⟨queueName, binding⟩ := entry
    obtain ⟨here, later⟩ := List.forall_mem_cons.mp stored
    rw [publishLoop, List.any_cons]
    cases matching : should binding with
    | false => simpa using ih published bp h later
    | true =>
      have frame : Frame h (basicPublish codec h queueName bp body).2.2 :=
        Frame.delivers.basicPublish h queueName bp body
      have rest := ih (published || (basicPublish codec h queueName bp body).1)
        (basicPublish codec h queueName bp body).2.1
        (basicPublish codec h queueName bp body).2.2
        fun e member => (frame.stores e.1).trans (later e member)
      rw [basicPublish_counts here, if_neg Bool.false_ne_true, service_seq,
        basicPublish_seq codec here] at rest
      simpa only [if_true, Bool.true_or] using rest

theorem Deliveries.service_counted {bp : Option BasicProperties}
    (run : Deliveries codec (h.stamped bp) body h log h') (distinct : (log.map Prod.fst).Nodup)
    {tried : Bool} (seq : h'.seq =
      if Service.counts bp tried then h.service.advance.seq else h.service.seq) :
    h'.service =
      let t := h.service.post (log.map Prod.fst) (h.service.letterFor bp body)
      if Service.counts bp tried then t.advance else t := by
  have letters : h.service.letterFor bp body =
      fun queueName => ⟨some (h.stamped bp queueName), body⟩ := funext (letterFor_eq h bp body)
  rw [run.service distinct, seq, letters]
  cases Service.counts bp tried <;> rfl

variable (codec) in
theorem basicPublish_service (ok : WellFormed h) (queueName : Bytes)
    (bp : Option BasicProperties) (body : Bytes) :
    (h.basicPublish codec queueName bp body).1 =
        (h.service.publishQueue queueName bp body).1 ∧
      (h.basicPublish codec queueName bp body).2.2.service =
        (h.service.publishQueue queueName bp body).2 := by
  have known := ok.service_isSome queueName
  unfold Service.publishQueue
  cases found : h.queueMessages.lookup queueName with
  | none =>
    rw [found, Option.isSome_none, Option.isSome_eq_false_iff] at known
    rw [if_pos known, basicPublish, found]
    exact ⟨rfl, rfl⟩
  | some store =>
    have stored : (h.queueMessages.lookup queueName).isSome := Option.isSome_of_eq_some found
    rw [stored, ← Option.isNone_eq_false_iff] at known
    have spec := basicPublish_spec codec stored bp body
    rw [if_neg (Bool.eq_false_iff.mp known)]
    split at spec
    · next accepts =>
      obtain ⟨answer, -, m, run⟩ := spec
      rw [answer, if_pos accepts,
        run.service_counted (List.nodup_singleton _) (basicPublish_seq codec stored bp body)]
      exact ⟨rfl, rfl⟩
    · next refuses =>
      obtain ⟨answer, -, run⟩ := spec
      rw [answer, run.service_counted List.nodup_nil (basicPublish_seq codec stored bp body),
        if_neg refuses]
      exact ⟨rfl, rfl⟩

variable (matchHeaders : StrMap Bytes → StrMap Bytes → Bool)

variable (codec) in
theorem publishToExchange_seq (ok : WellFormed h) (visit : Visit Binding) {exchangeName : Bytes}
    {exchange : Exchange} (found : h.selectExchange exchangeName = some exchange)
    (bp : Option BasicProperties) (body : Bytes) :
    (h.publishToExchange codec matchHeaders visit exchangeName bp body).2.2.seq =
      if Service.counts bp ((visit.order (h.bindingsOf exchangeName)).any fun e =>
          Service.matching matchHeaders exchange.type bp e.2) then h.service.advance.seq
      else h.service.seq := by
  have loop := publishLoop_seq codec
    (Service.matching matchHeaders exchange.type bp) body (visit.order (h.bindingsOf exchangeName))
    false bp h fun e member => ok.bound_entry visit member
  simp only [publishToExchange, found]
  split
  · next empty =>
    have nothing : visit.order (h.bindingsOf exchangeName) = [] := by
      have rearranged := visit.perm (h.bindingsOf exchangeName)
      rw [StrMap.pairs, empty, List.map_nil] at rearranged
      exact rearranged.eq_nil
    simp [nothing, Service.counts]
  · cases bp <;> exact loop

variable (codec) in
theorem publishToExchange_service (ok : WellFormed h) (visit : Visit Binding)
    (exchangeName : Bytes) (bp : Option BasicProperties) (body : Bytes) :
    (h.publishToExchange codec matchHeaders visit exchangeName bp body).1 =
        (h.service.publish matchHeaders visit exchangeName bp body).1 ∧
      (h.publishToExchange codec matchHeaders visit exchangeName bp body).2.2.service =
        (h.service.publish matchHeaders visit exchangeName bp body).2 := by
  cases found : h.selectExchange exchangeName with
  | none =>
    rw [publishToExchange_absent codec matchHeaders visit found]
    simp [Service.publish, found]
  | some exchange =>
    obtain ⟨log, run, names, answer⟩ :=
      publishToExchange_deliveries codec matchHeaders ok visit exchangeName bp body
    have distinct : (log.map Prod.fst).Nodup := names ▸ takers_nodup matchHeaders visit h _ bp
    have seq := publishToExchange_seq codec matchHeaders ok visit found bp body
    rw [run.service_counted distinct seq, answer, ← List.isEmpty_map (f := Prod.fst), names]
    simp only [takers, Service.publish, service_exchanges, found, Option.map_some]
    exact ⟨rfl, rfl⟩

variable (codec) in
theorem publishEx_service (ok : WellFormed h) (visit : Visit Binding)
    (exchangeName routingKey : Bytes) (bp : Option BasicProperties) (body : Bytes) :
    (h.publishEx codec visit exchangeName routingKey bp body).1 =
        (h.service.publishEx visit exchangeName routingKey bp body).1 ∧
      (h.publishEx codec visit exchangeName routingKey bp body).2.2.service =
        (h.service.publishEx visit exchangeName routingKey bp body).2 := by
  cases found : h.selectExchange exchangeName with
  | none =>
    rw [publishEx_absent codec visit found]
    simp [Service.publishEx, found]
  | some exchange =>
    have loop := publishExLoop_spec codec exchange.type (exProps bp routingKey) body
      (visit.order (h.bindingsOf exchangeName)) false h fun e member => ok.bound_entry visit member
    obtain ⟨log, run, names, answer⟩ := loop
    have distinct : (log.map Prod.fst).Nodup := by
      rw [names]
      exact (List.filter_sublist.map Prod.fst).nodup (visit.keys_nodup _)
    have seq := publishExLoop_seq codec exchange.type (exProps bp routingKey) body
      (visit.order (h.bindingsOf exchangeName)) false h
    have posted := run.service distinct
    rw [names, seq] at posted
    rw [Bool.false_or, ← List.isEmpty_map (f := Prod.fst), names] at answer
    simp only [publishEx, Service.publishEx, service_exchanges, found, Option.map_some]
    exact ⟨answer, posted⟩

theorem find?_letter (h : VirtualHost) (queueName id : Bytes) :
    (h.service.letters queueName).find? (fun l => l.id == id) =
      ((h.contents queueName).find? fun m => m.id == id).map MessagePtr.letter := by
  rw [service_letters, lettersOf, List.find?_map]
  rfl

variable (codec) in
theorem basicNack_service (ok : WellFormed h) (visit : Visit Binding) (queueName msgId : Bytes)
    (requeue : Bool) (reason : Bytes) :
    (h.basicNack codec matchHeaders visit queueName msgId requeue reason).service =
      h.service.nack matchHeaders visit queueName msgId requeue := by
  have known := ok.stored queueName
  unfold VirtualHost.basicNack Service.nack
  rw [find?_letter, service_queues, contents_eq]
  cases stored : h.queueMessages.lookup queueName with
  | none =>
    rw [stored, Option.isSome_none] at known
    have unknown : h.queueMgr.selectQueue queueName = none :=
      Option.isSome_eq_false_iff.mp known |> Option.isNone_iff_eq_none.mp
    rw [unknown]
    rfl
  | some store =>
    cases declared : h.queueMgr.selectQueue queueName with
    | none => rfl
    | some info =>
      simp only [Option.map_some, MsgQueue.target, Option.getD_some, MsgQueue.hasDeadLetterConfig,
        QueueMessage.front, QueueMessage.getAllMessages]
      cases requeue with
      | true => rfl
      | false =>
        by_cases plain : info.dlqConfig.exchangeName = []
        · simp only [plain, Bool.false_eq_true, if_false, if_true, ne_eq, not_true_eq_false,
            decide_false, Bool.not_false]
          exact basicAck_service codec h queueName msgId
        · simp only [plain, Bool.false_eq_true, if_false, ne_eq, not_false_eq_true, decide_true,
            Bool.not_true]
          cases held : store.msgs with
          | nil => rfl
          | cons head rest =>
            simp only [List.head?_cons]
            cases (head :: rest).find? fun m => m.id == msgId with
            | none => rfl
            | some t =>
              have counted : WellFormed h.generateId.2 := ok.of_frame (Frame.seq h _)
              have published := publishToExchange_service codec matchHeaders counted visit
                info.dlqConfig.exchangeName (some (dlqProps h.generateId.1 info.dlqConfig)) t.body
              simp only [deadLetter, ne_eq, plain, not_false_eq_true, if_true]
              rw [basicAck_service]
              exact congrArg (Service.ack · queueName msgId) published.2

end Publication

section Tables

theorem declareExchange_service (h : VirtualHost) (exchangeName : Bytes) (type : ExchangeType)
    (durable autoDelete : Bool) (args : StrMap Bytes) :
    (h.declareExchange exchangeName type durable autoDelete args).1 = true ∧
      (h.declareExchange exchangeName type durable autoDelete args).2.service =
        h.service.declareExchange exchangeName type := by
  unfold VirtualHost.declareExchange Service.declareExchange
  rw [service_exchanges, Option.isSome_map]
  split
  · exact ⟨rfl, rfl⟩
  · refine ⟨rfl, Service.ext ?_ rfl rfl rfl rfl⟩
    funext other
    by_cases same : other = exchangeName
    · subst same
      simp [selectExchange]
    · simp [selectExchange, AList.lookup_insert_ne, same]

theorem deleteExchange_service (h : VirtualHost) (exchangeName : Bytes) :
    (h.deleteExchange exchangeName).service = h.service.deleteExchange exchangeName := by
  refine Service.ext ?_ rfl rfl rfl rfl
  funext other
  by_cases same : other = exchangeName
  · subst same
    simp [selectExchange, VirtualHost.deleteExchange, Service.deleteExchange]
  · simp [selectExchange, VirtualHost.deleteExchange, Service.deleteExchange,
      AList.lookup_erase_ne, same]

theorem bind_service (h : VirtualHost) (exchangeName queueName bindingKey : Bytes)
    (bindingArgs : StrMap Bytes) :
    (h.bind exchangeName queueName bindingKey bindingArgs).1 =
        (h.service.bind exchangeName queueName bindingKey bindingArgs).1 ∧
      (h.bind exchangeName queueName bindingKey bindingArgs).2.service =
        (h.service.bind exchangeName queueName bindingKey bindingArgs).2 := by
  have unknown : (!h.queueMgr.exists? queueName) = (h.service.queues queueName).isNone := by
    rw [service_queues, Option.isNone_map, ← Option.not_isSome]
    rfl
  unfold VirtualHost.bind Service.bind
  rw [unknown, service_exchanges, Option.isNone_map]
  split <;> exact ⟨rfl, rfl⟩

theorem unbind_service (h : VirtualHost) (exchangeName queueName : Bytes) :
    (h.unbind exchangeName queueName).service = h.service.unbind exchangeName queueName := by
  unfold VirtualHost.unbind Service.unbind
  rw [service_bindings]
  cases h.exchangeBindings.lookup exchangeName <;> rfl

theorem deleteQueue_service (h : VirtualHost) (queueName : Bytes) :
    (h.deleteQueue queueName).service = h.service.deleteQueue queueName := by
  refine Service.ext rfl ?_ rfl ?_ rfl
  · funext other
    by_cases same : other = queueName
    · subst same
      simp [VirtualHost.deleteQueue, Service.deleteQueue, MsgQueueManager.deleteQueue,
        MsgQueueManager.selectQueue]
    · simp [VirtualHost.deleteQueue, Service.deleteQueue, MsgQueueManager.deleteQueue,
        MsgQueueManager.selectQueue, AList.lookup_erase_ne, same]
  · funext other
    rw [service_letters, contents_eq, lookup_deleteQueue]
    by_cases same : other = queueName
    · subst same
      simp [Service.deleteQueue, lettersOf]
    · rw [if_neg same, ← contents_eq]
      simp [Service.deleteQueue, same]

theorem lettersOf_new (fs : FileSystem) (baseDir queueName : Bytes) :
    lettersOf (QueueMessage.new fs baseDir queueName).1.msgs = [] := by
  simp only [QueueMessage.new]
  split <;> rfl

variable (codec) in
theorem declared_service (ok : WellFormed h) (queueName : Bytes) (durable : Bool) (q : MsgQueue) :
    (addStore codec { h with queueMgr := (h.queueMgr.declare queueName q).2 } queueName
        durable).service =
      h.service.addQueue queueName q.target (h.kept codec queueName durable) := by
  have known := ok.stored queueName
  obtain ⟨bindings, exchanges, queueMgr⟩ :=
    addStore_tables codec (h := h) (h.queueMgr.declare queueName q).2 queueName durable
  have exists' : (h.service.queues queueName).isSome = h.queueMgr.exists? queueName := by
    rw [service_queues, Option.isSome_map]
    rfl
  unfold Service.addQueue
  rw [exists']
  cases declared : h.queueMgr.exists? queueName with
  | true =>
    rw [declared] at known
    simp only [if_true, VirtualHost.addStore, ← known, MsgQueueManager.declare, declared]
  | false =>
    rw [declared] at known
    refine Service.ext ?_ ?_ bindings ?_ ?_
    · funext other
      rw [service_exchanges, selectExchange, exchanges]
      rfl
    · funext other
      rw [service_queues, queueMgr]
      by_cases same : other = queueName
      · subst same
        simp [MsgQueueManager.declare, declared, MsgQueueMapper.insert, MsgQueueManager.selectQueue]
      · simp [MsgQueueManager.declare, declared, MsgQueueMapper.insert,
          MsgQueueManager.selectQueue, AList.lookup_insert_ne, same]
    · funext other
      simp only [service_letters, VirtualHost.addStore, ← known, Bool.false_eq_true, if_false,
        contents_withStore, Function.apply_update fun _ => lettersOf]
      cases durable with
      | true => rfl
      | false =>
        rw [if_neg Bool.false_ne_true, lettersOf_new]
        rfl
    · simp only [VirtualHost.addStore, ← known]
      rfl

end Tables

section Upkeep

theorem queueRuntimeStats_service (h : VirtualHost) (queueName : Bytes) :
    (h.queueRuntimeStats codec queueName).2.service = h.service := by
  refine (Frame.queueRuntimeStats h queueName).service_eq ?_ ?_ rfl rfl rfl
  · intro other
    unfold VirtualHost.queueRuntimeStats
    split
    · rfl
    · next store found =>
      rw [contents_withStore, QueueMessage.getStats_msgs, ← contents_of_lookup found,
        Function.update_eq_self]
      rfl
  · unfold VirtualHost.queueRuntimeStats
    split <;> rfl

theorem compactQueue_service (h : VirtualHost) (queueName : Bytes) :
    (h.compactQueue codec queueName).service = h.service := by
  refine (Frame.compactQueue h queueName).service_eq ?_ ?_ rfl rfl rfl
  · intro other
    unfold VirtualHost.compactQueue
    split
    · rfl
    · next store found =>
      have objects := (QueueMessage.compact_objects codec h.fs store).1
      have letters : lettersOf (store.compact codec h.fs).1.msgs = lettersOf store.msgs := by
        have seen := congrArg
          (List.map fun e : Nat × MessagePayload => (⟨e.2.properties?, e.2.body⟩ : Letter)) objects
        rwa [List.map_map, List.map_map] at seen
      rw [contents_withStore, contents_follow, Function.apply_update fun _ => lettersOf, letters,
        ← contents_of_lookup found]
      exact congrFun (Function.update_eq_self queueName h.service.letters) other
  · unfold VirtualHost.compactQueue
    split <;> rfl

end Upkeep

end VirtualHost

end HzMq
