import HzMq.Server.HostEffects
import HzMq.Service.Refinement

/-!
# What clients cannot tell apart

Two brokers are compared, possibly with other files on other disks, other wire
formats and other attributes of exchanges and queues. As long as new durable queues
start with the same letters, what the clients are sent is the same, reply by reply
and message by message.
-/

namespace HzMq

open Machine VirtualHost

/-- What leaves the server: a reply on a connection, or a message to a channel's consumer. -/
inductive Shown
  | reply (conn : Nat) (response : Response)
  | message (channel : ChannelRef) (response : Response)
  deriving DecidableEq

section Shows

variable (codec : Codec) (matchHeaders : StrMap Bytes → StrMap Bytes → Bool)

def ServerOp.shows (s : BrokerServer) : ServerOp → List Shown
  | .openChannel conn rid cid => ((s.openChannel conn rid cid).1.map (Shown.reply conn)).toList
  | .closeChannel conn rid cid => ((s.closeChannel conn rid cid).1.map (Shown.reply conn)).toList
  | .request conn rid cid call =>
    ((s.request codec matchHeaders conn rid cid call).1.map (Shown.reply conn)).toList
  | .execute index =>
    ((s.execute codec index).1.map fun d => Shown.message d.consumer.callback d.response).toList
  | _ => []

def ServerOp.act (s : BrokerServer) (op : ServerOp) : List Shown × BrokerServer :=
  (op.shows codec matchHeaders s, op.apply codec matchHeaders s)

end Shows

def ServerOp.Upkeep : ServerOp → Prop
  | .queueRuntimeStats _ => True
  | .compactQueue _ => True
  | _ => False

namespace Service

def attributeFree : Call → Bool
  | .deleteExchange _ => true
  | .deleteQueue _ => true
  | .bind _ _ _ => true
  | .unbind _ _ => true
  | .basicPublish _ _ _ _ _ => true
  | .basicAck _ _ => true
  | .basicConsume _ _ _ => true
  | .basicCancel _ _ => true
  | _ => false

/-- A declaration starts a new queue with the same letters on both sides. -/
def KeptAlike (codec codec' : Codec) (h h' : VirtualHost) (queueName : Bytes)
    (durable durable' : Bool) : Prop :=
  h.queueMgr.exists? queueName = false →
    h.kept codec queueName durable = h'.kept codec' queueName durable'

inductive Alike (codec codec' : Codec) (h h' : VirtualHost) : Call → Call → Prop
  | same {call : Call} : attributeFree call = true → Alike codec codec' h h' call call
  | declareExchange (exchangeName : Bytes) (type : ExchangeType)
      (durable durable' autoDelete autoDelete' : Bool) (args args' : StrMap Bytes) :
      Alike codec codec' h h' (.declareExchange exchangeName type durable autoDelete args)
        (.declareExchange exchangeName type durable' autoDelete' args')
  | declareQueue (queueName : Bytes) {durable durable' : Bool}
      (exclusive exclusive' autoDelete autoDelete' : Bool) (args args' : StrMap Bytes) :
      KeptAlike codec codec' h h' queueName durable durable' →
      Alike codec codec' h h' (.declareQueue queueName durable exclusive autoDelete args)
        (.declareQueue queueName durable' exclusive' autoDelete' args')
  | declareQueueWithDlq (queueName : Bytes) {durable durable' : Bool}
      (exclusive exclusive' autoDelete autoDelete' : Bool) (args args' : StrMap Bytes)
      {config config' : Option DeadLetterConfig} :
      KeptAlike codec codec' h h' queueName durable durable' →
      (config.getD {}).exchangeName = (config'.getD {}).exchangeName →
      (config.getD {}).routingKey = (config'.getD {}).routingKey →
      Alike codec codec' h h'
        (.declareQueueWithDlq queueName durable exclusive autoDelete args config)
        (.declareQueueWithDlq queueName durable' exclusive' autoDelete' args' config')
  | basicNack (visit : Visit Binding) (queueName messageId : Bytes) (requeue : Bool)
      (reason reason' : Bytes) :
      Alike codec codec' h h' (.basicNack visit queueName messageId requeue reason)
        (.basicNack visit queueName messageId requeue reason')
  | basicQuery {visit visit' : Visit QueueMessage} :
      (visit.order h.queueMessages).map Prod.fst = (visit'.order h'.queueMessages).map Prod.fst →
      Alike codec codec' h h' (.basicQuery visit) (.basicQuery visit')

inductive AlikeOp (codec codec' : Codec) (s s' : BrokerServer) : ServerOp → ServerOp → Prop
  | newConnection (conn : Nat) :
      AlikeOp codec codec' s s' (.newConnection conn) (.newConnection conn)
  | deleteConnection (conn : Nat) :
      AlikeOp codec codec' s s' (.deleteConnection conn) (.deleteConnection conn)
  | openChannel (conn : Nat) (rid cid : Bytes) :
      AlikeOp codec codec' s s' (.openChannel conn rid cid) (.openChannel conn rid cid)
  | closeChannel (conn : Nat) (rid cid : Bytes) :
      AlikeOp codec codec' s s' (.closeChannel conn rid cid) (.closeChannel conn rid cid)
  | request (conn : Nat) (rid cid : Bytes) {call call' : Call} :
      Alike codec codec' s.host s'.host call call' →
      AlikeOp codec codec' s s' (.request conn rid cid call) (.request conn rid cid call')
  | execute (index : Nat) : AlikeOp codec codec' s s' (.execute index) (.execute index)

/-- Brokers that look the same from outside. -/
structure Same (s s' : BrokerServer) : Prop where
  service : s.host.service = s'.host.service
  cmp : s.cmp = s'.cmp
  connections : s.connections = s'.connections
  pool : s.pool = s'.pool
  opened : s.opened = s'.opened
  wellFormed : s.host.WellFormed
  wellFormed' : s'.host.WellFormed

section Host

variable {codec codec' : Codec} {h h' : VirtualHost}

theorem host_alike (matchHeaders : StrMap Bytes → StrMap Bytes → Bool) (ok : h.WellFormed)
    (ok' : h'.WellFormed) (same : h.service = h'.service) {op op' : HostOp} {r r' : ServiceOp}
    (read : op.reads codec h = some r) (read' : op'.reads codec' h' = some r')
    (equal : r.act matchHeaders h.service = r'.act matchHeaders h.service) :
    op.answers codec matchHeaders h = op'.answers codec' matchHeaders h' ∧
      (op.apply codec matchHeaders h).service = (op'.apply codec' matchHeaders h').service := by
  obtain ⟨answer, moves⟩ := (refines_service codec matchHeaders).shows h op r ok read
  obtain ⟨answer', moves'⟩ := (refines_service codec' matchHeaders).shows h' op' r' ok' read'
  rw [equal] at answer moves
  rw [← same] at answer' moves'
  exact ⟨answer.trans answer'.symm, moves.trans moves'.symm⟩

theorem addQueue_alike {queueName : Bytes} {durable durable' : Bool}
    (kept : KeptAlike codec codec' h h' queueName durable durable') (target : DeadLetterTarget) :
    h.service.addQueue queueName target (h.kept codec queueName durable) =
      h.service.addQueue queueName target (h'.kept codec' queueName durable') := by
  unfold addQueue
  split
  · rfl
  · next unknown =>
    have new : h.queueMgr.exists? queueName = false := by
      rw [service_queues, Option.isSome_map] at unknown
      exact Bool.eq_false_iff.mpr unknown
    rw [kept new]

theorem exists_alike (same : h.service = h'.service) (queueName : Bytes) :
    h.queueMgr.exists? queueName = h'.queueMgr.exists? queueName := by
  have queues := congrArg (fun t => (Service.queues t queueName).isSome) same
  simp only [service_queues, Option.isSome_map] at queues
  exact queues

theorem selectExchange_alike (same : h.service = h'.service) (exchangeName : Bytes) :
    (h.selectExchange exchangeName).isSome = (h'.selectExchange exchangeName).isSome := by
  have exchanges := congrArg (fun t => (Service.exchanges t exchangeName).isSome) same
  simpa only [service_exchanges, Option.isSome_map] using exchanges

theorem bindingsOf_alike (same : h.service = h'.service) (exchangeName : Bytes) :
    h.bindingsOf exchangeName = h'.bindingsOf exchangeName := by
  have bindings := congrArg (Service.bindingsOf · exchangeName) same
  simpa only [service_bindingsOf] using bindings

end Host

section Broker

variable {codec codec' : Codec} {matchHeaders : StrMap Bytes → StrMap Bytes → Bool}
  {s s' : BrokerServer}

theorem Same.withHost (same : Same s s') {host host' : VirtualHost}
    (service : host.service = host'.service) (ok : host.WellFormed) (ok' : host'.WellFormed) :
    Same { s with host } { s' with host := host' } :=
  ⟨service, same.cmp, same.connections, same.pool, same.opened, ok, ok'⟩

variable (codec codec' matchHeaders) in
theorem Same.hostStep (same : Same s s') (op op' : HostOp) {r r' : ServiceOp}
    (read : op.reads codec s.host = some r) (read' : op'.reads codec' s'.host = some r')
    (equal : r.act matchHeaders s.host.service = r'.act matchHeaders s.host.service) :
    op.answers codec matchHeaders s.host = op'.answers codec' matchHeaders s'.host ∧
      Same { s with host := op.apply codec matchHeaders s.host }
        { s' with host := op'.apply codec' matchHeaders s'.host } := by
  obtain ⟨answer, moves⟩ :=
    host_alike matchHeaders same.wellFormed same.wellFormed' same.service read read' equal
  exact ⟨answer, same.withHost moves (same.wellFormed.apply op) (same.wellFormed'.apply op')⟩

theorem Same.withCmp (same : Same s s') (f : ConsumerManager → ConsumerManager) :
    Same { s with cmp := f s.cmp } { s' with cmp := f s'.cmp } :=
  ⟨same.service, congrArg f same.cmp, same.connections, same.pool, same.opened, same.wellFormed,
    same.wellFormed'⟩

theorem done_inj {a b : Bool} (equal : [ServiceAnswer.done a] = [ServiceAnswer.done b]) :
    a = b := by
  cases equal
  rfl

/-- The outcome of a request: the reply, the channel, and the broker afterwards. -/
def Agree (r r' : Response × Channel × BrokerServer) : Prop :=
  r.1 = r'.1 ∧ r.2.1 = r'.2.1 ∧ Same r.2.2 r'.2.2

theorem Agree.declared (ch : Channel) (rid cid queueName : Bytes) {ok ok' : Bool}
    {host host' : VirtualHost} (answer : ok = ok')
    (moved : Same { s with host } { s' with host := host' }) :
    Agree
      (if !ok then (.common rid cid false, ch, { s with host })
        else (.common rid cid true, ch, { s with host, cmp := s.cmp.initQueueConsumer queueName }))
      (if !ok' then (.common rid cid false, ch, { s' with host := host' })
        else (.common rid cid true, ch,
          { s' with host := host', cmp := s'.cmp.initQueueConsumer queueName })) := by
  subst answer
  split
  · exact ⟨rfl, rfl, moved⟩
  · exact ⟨rfl, rfl, moved.withCmp fun cmp => cmp.initQueueConsumer queueName⟩

theorem publish_agree (same : Same s s') (ch : Channel) (rid cid : Bytes)
    (visit tasks : Visit Binding) (exchangeName : Bytes) (properties : Option BasicProperties)
    (body : Bytes) :
    Agree
      (s.handle codec matchHeaders ch rid cid
        (.basicPublish visit tasks exchangeName properties body))
      (s'.handle codec' matchHeaders ch rid cid
        (.basicPublish visit tasks exchangeName properties body)) := by
  have known := selectExchange_alike same.service exchangeName
  obtain ⟨answer, moved⟩ := same.hostStep codec codec' matchHeaders
    (.publishToExchange visit exchangeName properties body)
    (.publishToExchange visit exchangeName properties body) rfl rfl rfl
  have published := done_inj answer
  simp only [BrokerServer.handle, BrokerServer.basicPublish]
  cases found : s.host.selectExchange exchangeName with
  | none =>
    rw [found, Option.isSome_none] at known
    rw [Option.isSome_eq_false_iff.mp known.symm |> Option.isNone_iff_eq_none.mp]
    exact ⟨rfl, rfl, same⟩
  | some exchange =>
    rw [found, Option.isSome_some] at known
    obtain ⟨exchange', found'⟩ := Option.isSome_iff_exists.mp known.symm
    rw [found']
    refine ⟨rfl, rfl, moved.service, same.cmp, same.connections, ?_, same.opened,
      moved.wellFormed, moved.wellFormed'⟩
    have bindings := bindingsOf_alike moved.service exchangeName
    simp only [HostOp.apply] at bindings
    simp only [published, same.pool, bindings]

theorem Agree.answered (ch : Channel) (rid cid : Bytes) {ok ok' : Bool}
    {host host' : VirtualHost} (answer : ok = ok')
    (moved : Same { s with host } { s' with host := host' }) :
    Agree (.common rid cid ok, ch, { s with host }) (.common rid cid ok', ch,
      { s' with host := host' }) :=
  ⟨congrArg (Response.common rid cid) answer, rfl, moved⟩

theorem same_agree (same : Same s s') (ch : Channel) (rid cid : Bytes) {call : Call}
    (free : attributeFree call = true) :
    Agree (s.handle codec matchHeaders ch rid cid call)
      (s'.handle codec' matchHeaders ch rid cid call) := by
  cases call with
  | deleteExchange exchangeName =>
    exact .answered ch rid cid rfl (same.hostStep codec codec' matchHeaders
      (.deleteExchange exchangeName) (.deleteExchange exchangeName) rfl rfl rfl).2
  | deleteQueue queueName =>
    have moved := (same.hostStep codec codec' matchHeaders
      (.deleteQueue queueName) (.deleteQueue queueName) rfl rfl rfl).2
    exact ⟨rfl, rfl, moved.withCmp fun cmp => cmp.destroyQueueConsumer queueName⟩
  | bind exchangeName queueName bindingKey =>
    obtain ⟨answer, moved⟩ := same.hostStep codec codec' matchHeaders
      (.bind exchangeName queueName bindingKey ∅) (.bind exchangeName queueName bindingKey ∅)
      rfl rfl rfl
    exact .answered ch rid cid (done_inj answer) moved
  | unbind exchangeName queueName =>
    exact .answered ch rid cid rfl (same.hostStep codec codec' matchHeaders
      (.unbind exchangeName queueName) (.unbind exchangeName queueName) rfl rfl rfl).2
  | basicPublish visit tasks exchangeName properties body =>
    exact publish_agree same ch rid cid visit tasks exchangeName properties body
  | basicAck queueName messageId =>
    exact .answered ch rid cid rfl (same.hostStep codec codec' matchHeaders
      (.basicAck queueName messageId) (.basicAck queueName messageId) rfl rfl rfl).2
  | basicConsume consumerTag queueName autoAck =>
    simp only [BrokerServer.handle, BrokerServer.basicConsume,
      exists_alike same.service queueName, same.cmp]
    split
    · exact ⟨rfl, rfl, same⟩
    · exact ⟨rfl, rfl, same.withCmp fun _ =>
        (s'.cmp.create consumerTag queueName autoAck ch.ref).2⟩
  | basicCancel consumerTag queueName =>
    exact ⟨rfl, rfl, same.withCmp fun cmp => cmp.remove consumerTag queueName⟩
  | _ => cases free

theorem handle_agree (same : Same s s') (ch : Channel) (rid cid : Bytes) {call call' : Call}
    (alike : Alike codec codec' s.host s'.host call call') :
    Agree (s.handle codec matchHeaders ch rid cid call)
      (s'.handle codec' matchHeaders ch rid cid call') := by
  cases alike with
  | same free => exact same_agree same ch rid cid free
  | declareExchange exchangeName type durable durable' autoDelete autoDelete' args args' =>
    obtain ⟨answer, moved⟩ := same.hostStep codec codec' matchHeaders
      (.declareExchange exchangeName type durable autoDelete args)
      (.declareExchange exchangeName type durable' autoDelete' args') rfl rfl rfl
    exact .answered ch rid cid (done_inj answer) moved
  | @declareQueue queueName durable durable' exclusive exclusive' autoDelete autoDelete' args args'
      kept =>
    have equal := congrArg (fun t => ([ServiceAnswer.done true],
      (Service.bind t [] queueName queueName ∅).2)) (addQueue_alike kept ⟨[], []⟩)
    obtain ⟨answer, moved⟩ := same.hostStep codec codec' matchHeaders
      (.declareQueue queueName durable exclusive autoDelete args)
      (.declareQueue queueName durable' exclusive' autoDelete' args') rfl rfl equal
    exact .declared ch rid cid queueName (done_inj answer) moved
  | @declareQueueWithDlq queueName durable durable' exclusive exclusive' autoDelete autoDelete' args
      args' config config' kept exchange key =>
    have equal := congrArg (fun t => ([ServiceAnswer.done true], t))
      (addQueue_alike kept ⟨(config.getD {}).exchangeName, (config.getD {}).routingKey⟩)
    obtain ⟨answer, moved⟩ := same.hostStep codec codec' matchHeaders
      (.declareQueueWithDlq queueName durable exclusive autoDelete args (config.getD {}))
      (.declareQueueWithDlq queueName durable' exclusive' autoDelete' args' (config'.getD {}))
      rfl rfl (by rw [← exchange, ← key]; exact equal)
    exact .declared ch rid cid queueName (done_inj answer) moved
  | basicNack visit queueName messageId requeue reason reason' =>
    exact .answered ch rid cid rfl (same.hostStep codec codec' matchHeaders
      (.basicNack visit queueName messageId requeue reason)
      (.basicNack visit queueName messageId requeue reason') rfl rfl rfl).2
  | @basicQuery visit visit' names =>
    obtain ⟨answer, moved⟩ := same.hostStep codec codec' matchHeaders (.basicQuery visit)
      (.basicQuery visit') rfl rfl (by rw [names])
    have body : (s.host.basicQuery codec visit).1 = (s'.host.basicQuery codec' visit').1 := by
      simpa only [HostOp.answers, List.cons.injEq, ServiceAnswer.text.injEq, and_true] using answer
    exact ⟨congrArg (Response.query rid ch.ref.cid) body, rfl, moved⟩

def handedOver (d : Delivery) : Shown := .message d.consumer.callback d.response

theorem consume_alike (same : Same s s') (qname : Bytes) :
    (s.consume codec qname).1.map handedOver = (s'.consume codec' qname).1.map handedOver ∧
      Same (s.consume codec qname).2 (s'.consume codec' qname).2 := by
  obtain ⟨answer, moved⟩ := same.hostStep codec codec' (fun _ _ => false) (.basicConsume qname)
    (.basicConsume qname) rfl rfl rfl
  simp only [HostOp.answers, List.cons.injEq, ServiceAnswer.letter.injEq, and_true] at answer
  simp only [HostOp.apply] at moved
  unfold BrokerServer.consume
  generalize s.host.basicConsume codec qname = taken at answer moved ⊢
  generalize s'.host.basicConsume codec' qname = taken' at answer moved ⊢
  obtain ⟨mp, host⟩ := taken
  obtain ⟨mp', host'⟩ := taken'
  cases mp with
  | none =>
    rw [Option.map_none, eq_comm, Option.map_eq_none_iff] at answer
    simp only at answer
    subst answer
    exact ⟨rfl, moved⟩
  | some m =>
    rw [Option.map_some, eq_comm, Option.map_eq_some_iff] at answer
    obtain ⟨m', rfl, letter⟩ := answer
    obtain ⟨properties, body⟩ := Letter.mk.inj letter
    have seen : m'.payload.properties = m.payload.properties :=
      congrArg (fun p : Option BasicProperties => p.getD {}) properties
    have id : m'.id = m.id := congrArg BasicProperties.id seen
    simp only [same.cmp]
    obtain ⟨cp?, cmp⟩ := s'.cmp.choose qname
    have chosen := moved.withCmp fun _ => cmp
    cases cp? with
    | none => exact ⟨rfl, chosen⟩
    | some cp =>
      refine ⟨by simp only [Option.map_some, handedOver, seen, body], ?_⟩
      simp only [id]
      split
      · exact (chosen.hostStep codec codec' (fun _ _ => false) (.basicAck qname m.id)
          (.basicAck qname m.id) rfl rfl rfl).2
      · exact chosen

theorem destroyChannel_same (same : Same s s') (ch : Channel) :
    Same (s.destroyChannel ch) (s'.destroyChannel ch) := by
  unfold BrokerServer.destroyChannel
  split
  · exact same
  · next consumer _ => exact same.withCmp fun cmp => cmp.remove consumer.tag consumer.qname

theorem putChannel_same (same : Same s s') (conn : Nat) (cid : Bytes) (ch : Channel) :
    Same (s.putChannel conn cid ch) (s'.putChannel conn cid ch) := by
  refine ⟨same.service, same.cmp, ?_, same.pool, same.opened, same.wellFormed, same.wellFormed'⟩
  simp only [BrokerServer.putChannel, same.connections]

theorem destroyChannels_same (channels : List (Bytes × Channel)) (same : Same s s') :
    Same (channels.foldl (fun s e => s.destroyChannel e.2) s)
      (channels.foldl (fun s e => s.destroyChannel e.2) s') := by
  induction channels generalizing s s' with
  | nil => exact same
  | cons e channels ih => exact ih (destroyChannel_same same e.2)

theorem Same.withConnections (same : Same s s')
    (f : AList (fun _ : Nat => StrMap Channel) → AList (fun _ : Nat => StrMap Channel)) :
    Same { s with connections := f s.connections } { s' with connections := f s'.connections } :=
  ⟨same.service, same.cmp, congrArg f same.connections, same.pool, same.opened, same.wellFormed,
    same.wellFormed'⟩

theorem openChannel_alike (same : Same s s') (conn : Nat) (rid cid : Bytes) :
    (s.openChannel conn rid cid).1 = (s'.openChannel conn rid cid).1 ∧
      Same (s.openChannel conn rid cid).2 (s'.openChannel conn rid cid).2 := by
  unfold BrokerServer.openChannel
  rw [same.connections]
  split
  · exact ⟨rfl, same⟩
  · split
    · exact ⟨rfl, same⟩
    · have put := putChannel_same same conn cid { ref := ⟨s'.opened, cid⟩ }
      rw [same.opened]
      exact ⟨rfl, put.service, put.cmp, put.connections, put.pool, rfl, put.wellFormed,
        put.wellFormed'⟩

theorem closeChannel_alike (same : Same s s') (conn : Nat) (rid cid : Bytes) :
    (s.closeChannel conn rid cid).1 = (s'.closeChannel conn rid cid).1 ∧
      Same (s.closeChannel conn rid cid).2 (s'.closeChannel conn rid cid).2 := by
  unfold BrokerServer.closeChannel
  rw [same.connections]
  split
  · exact ⟨rfl, same⟩
  · next channels _ =>
    refine ⟨rfl, ?_⟩
    cases channels.lookup cid with
    | none => exact same.withConnections fun cs => cs.insert conn (channels.erase cid)
    | some ch =>
      exact (destroyChannel_same same ch).withConnections fun cs =>
        cs.insert conn (channels.erase cid)

theorem request_alike (same : Same s s') (conn : Nat) (rid cid : Bytes) {call call' : Call}
    (alike : Alike codec codec' s.host s'.host call call') :
    (s.request codec matchHeaders conn rid cid call).1 =
        (s'.request codec' matchHeaders conn rid cid call').1 ∧
      Same (s.request codec matchHeaders conn rid cid call).2
        (s'.request codec' matchHeaders conn rid cid call').2 := by
  unfold BrokerServer.request BrokerServer.selectChannel
  rw [same.connections]
  split
  · exact ⟨rfl, same⟩
  · next ch _ =>
    obtain ⟨reply, channel, next⟩ : Agree (s.handle codec matchHeaders ch rid cid call)
      (s'.handle codec' matchHeaders ch rid cid call') := handle_agree same ch rid cid alike
    simp only [reply, channel]
    exact ⟨trivial, putChannel_same next conn cid _⟩

theorem execute_alike (same : Same s s') (index : Nat) :
    (s.execute codec index).1.map handedOver = (s'.execute codec' index).1.map handedOver ∧
      Same (s.execute codec index).2 (s'.execute codec' index).2 := by
  unfold BrokerServer.execute
  rw [same.pool]
  split
  · exact ⟨rfl, same⟩
  · next task _ =>
    have less : Same { s with pool := s'.pool.eraseIdx index }
        { s' with pool := s'.pool.eraseIdx index } :=
      ⟨same.service, same.cmp, same.connections, rfl, same.opened, same.wellFormed,
        same.wellFormed'⟩
    exact consume_alike less task.qname

theorem upkeep_left (same : Same s s') {op : ServerOp} (upkeep : op.Upkeep) :
    op.shows codec matchHeaders s = [] ∧ Same (op.apply codec matchHeaders s) s' := by
  cases op with
  | queueRuntimeStats queueName =>
    refine ⟨rfl, (queueRuntimeStats_service s.host queueName).trans same.service, same.cmp,
      same.connections, same.pool, same.opened, ?_, same.wellFormed'⟩
    exact same.wellFormed.of_frame (Frame.queueRuntimeStats s.host queueName)
  | compactQueue queueName =>
    refine ⟨rfl, (compactQueue_service s.host queueName).trans same.service, same.cmp,
      same.connections, same.pool, same.opened, ?_, same.wellFormed'⟩
    exact same.wellFormed.of_frame (Frame.compactQueue s.host queueName)
  | _ => exact upkeep.elim

theorem Same.symm (same : Same s s') : Same s' s :=
  ⟨same.service.symm, same.cmp.symm, same.connections.symm, same.pool.symm, same.opened.symm,
    same.wellFormed', same.wellFormed⟩

variable (codec codec' matchHeaders) in
theorem broker_simulation :
    Simulation Same (ServerOp.act codec matchHeaders) (ServerOp.act codec' matchHeaders)
      (AlikeOp codec codec') ServerOp.Upkeep ServerOp.Upkeep where
  both s s' op op' same alike := by
    cases alike with
    | newConnection conn =>
      refine ⟨rfl, ?_⟩
      simp only [ServerOp.act, ServerOp.apply, BrokerServer.newConnection, same.connections]
      split
      · exact same
      · exact same.withConnections fun _ => s'.connections.insert conn ∅
    | deleteConnection conn =>
      refine ⟨rfl, ?_⟩
      simp only [ServerOp.act, ServerOp.apply, BrokerServer.deleteConnection, same.connections]
      exact (destroyChannels_same _ same).withConnections fun _ => s'.connections.erase conn
    | openChannel conn rid cid =>
      obtain ⟨reply, next⟩ := openChannel_alike same conn rid cid
      exact ⟨congrArg (fun r => (Option.map (Shown.reply conn) r).toList) reply, next⟩
    | closeChannel conn rid cid =>
      obtain ⟨reply, next⟩ := closeChannel_alike same conn rid cid
      exact ⟨congrArg (fun r => (Option.map (Shown.reply conn) r).toList) reply, next⟩
    | request conn rid cid alike =>
      obtain ⟨reply, next⟩ := request_alike same conn rid cid alike
      exact ⟨congrArg (fun r => (Option.map (Shown.reply conn) r).toList) reply, next⟩
    | execute index =>
      obtain ⟨message, next⟩ := execute_alike same index
      exact ⟨congrArg Option.toList message, next⟩
  left _ _ _ same upkeep := upkeep_left same upkeep
  right _ _ _ same upkeep := (upkeep_left same.symm upkeep).imp_right Same.symm

end Broker

/-- Two runs whose steps differ at most in attributes, with statistics and compactions
anywhere in between, send the same replies and the same messages in the same order. -/
theorem attributes_and_disk_unseen (codec codec' : Codec)
    (matchHeaders : StrMap Bytes → StrMap Bytes → Bool) {s s' : BrokerServer}
    (reached : s.Reachable codec matchHeaders) (reached' : s'.Reachable codec' matchHeaders)
    (service : s.host.service = s'.host.service) (cmp : s.cmp = s'.cmp)
    (connections : s.connections = s'.connections) (pool : s.pool = s'.pool)
    (opened : s.opened = s'.opened) {ops ops' : List ServerOp}
    (matched : Matched (ServerOp.act codec matchHeaders) (ServerOp.act codec' matchHeaders)
      (AlikeOp codec codec') ServerOp.Upkeep ServerOp.Upkeep s s' ops ops') :
    answers (ServerOp.act codec matchHeaders) s ops =
        answers (ServerOp.act codec' matchHeaders) s' ops' ∧
      (exec (ServerOp.apply codec matchHeaders) s ops).host.service =
        (exec (ServerOp.apply codec' matchHeaders) s' ops').host.service := by
  have same : Same s s' := ⟨service, cmp, connections, pool, opened, reached.host.wellFormed,
    reached'.host.wellFormed⟩
  obtain ⟨shown, ends⟩ := (broker_simulation codec codec' matchHeaders).run matched same
  exact ⟨shown, ends.service⟩

/-- A host whose files have room for eight bytes. -/
def crampedHost : VirtualHost := .new (str "Cramped") (str "e") ∅ 0 (.blank 8 (by decide))

def deliveringRun : List ServerOp :=
  [.request 1 (str "r") (str "c") (.basicConsume (str "t") (str "q") true),
    .request 1 (str "r") (str "c") (.basicPublish .stored .stored []
      (some { routingKey := str "q" }) (str "x")), .execute 0]

/-- Among what both runs show is the message; the queue is durable in the first one only. -/
theorem attributes_and_disk_unseen_example :
    let act := ServerOp.act Wire.codec fun _ _ => false
    let before : List ServerOp := [.newConnection 1, .openChannel 1 (str "r") (str "c")]
    let queries : List ServerOp := [.request 1 (str "r") (str "c") (.basicQuery .stored)]
    let shown := answers act (.new .blank) (before ++
      .request 1 (str "r") (str "c") (.declareQueue (str "q") true false false ∅) ::
        deliveringRun ++ .compactQueue (str "q") :: queries)
    .message ⟨0, str "c"⟩ (.consume (str "c") (str "t") (str "x")
        { id := str "1", routingKey := str "q" }) ∈ shown ∧
      shown = answers act (.new crampedHost) (before ++
        .request 1 (str "r") (str "c") (.declareQueue (str "q") false true true ∅) ::
          deliveringRun ++ queries) := by
  intro act before queries shown
  refine ⟨by decide +kernel, ?_⟩
  refine (attributes_and_disk_unseen Wire.codec Wire.codec (fun _ _ => false)
    (.start ⟨.blank, blank_initial, rfl⟩) (.start ⟨crampedHost, ⟨_, _, _, _, _, rfl⟩, rfl⟩)
    rfl rfl rfl rfl rfl ?_).1
  refine .both (.newConnection 1) (.both (.openChannel 1 _ _) (.both (.request 1 _ _ ?_) ?_))
  · exact .declareQueue (str "q") false true false true ∅ ∅ fun _ => by decide
  · refine .both (.request 1 _ _ (.same rfl)) (.both (.request 1 _ _ (.same rfl)) (.both
      (.execute 0) (.left trivial (.both (.request 1 _ _ ?_) (.nil _ _)))))
    exact .basicQuery (by decide +kernel)

end Service

end HzMq
