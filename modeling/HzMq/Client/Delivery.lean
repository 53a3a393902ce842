import HzMq.Client.Numbering
import HzMq.Client.System
import HzMq.Common.Wire
import HzMq.Protocol.SessionRefinement
import HzMq.Server.HostEffects

/-!
# Messages on their way to the clients

As long as every publication names a routing key and the counter of ids does not come
around, what the clients receive is what was published, in order and at most once; the
acknowledgements, those of the server and those of the clients, take nothing away.
Consume tasks run one after another here.
-/

namespace HzMq.Client

open VirtualHost Streams

def Packet.delivery? : Packet → Option Delivery
  | .reply _ => none
  | .delivery d => some d

namespace System

variable (s : System)

/-- What a client received, and what is on the way to it. -/
def deliveriesTo (conn : Nat) : List Delivery :=
  on conn s.received ++ (on conn s.down).filterMap Packet.delivery?

def handed (conn : Nat) (queueName : Bytes) : List Bytes :=
  ((s.deliveriesTo conn).filter fun d => d.qname == queueName).map fun d => d.message.id

end System

def hasKey : ClientMessage → Bool
  | .basicPublish _ _ _ properties _ => properties.isSome
  | _ => true

def Volatile : ClientMessage → Prop
  | .declareQueue _ _ _ _ durable _ => durable = false
  | _ => True

def Expected (received : List (Nat × Delivery)) : ClientMessage → Prop
  | .basicPublish _ _ _ properties _ => Plain properties
  | .basicAck _ _ _ messageId => ∃ e ∈ received, e.2.message.id = messageId
  | .declareQueue _ _ _ _ durable _ => durable = false
  | _ => True

/-- What a command sends: a publication has no properties when it has no key, a queue is declared
without files, and nothing is acknowledged. -/
def Typable : ClientMessage → Prop
  | .basicPublish _ _ _ properties _ => properties = none ∨ Plain properties
  | .basicAck _ _ _ _ => False
  | .declareQueue _ _ _ _ durable _ => durable = false
  | _ => True

structure Tidy (start n : Nat) (s : System) : Prop where
  wellFormed : s.host.WellFormed
  numbered : Numbered start n s.handed s.host
  requests : ∀ e ∈ s.up, Expected s.received e.2
  responses : ∀ conn, ∀ d ∈ s.deliveriesTo conn, d.response =
    BrokerServer.consumeCb d.consumer.callback d.consumer.tag d.message.payload.properties
      d.message.body

section Requests

theorem Expected.mono {received more : List (Nat × Delivery)} {message : ClientMessage}
    (expected : Expected received message) (grows : received ⊆ more) : Expected more message := by
  cases message with
  | basicAck rid cid queueName messageId =>
    obtain ⟨e, member, same⟩ := expected
    exact ⟨e, grows member, same⟩
  | _ => exact expected

theorem Expected.volatile {received : List (Nat × Delivery)} {message : ClientMessage}
    (expected : Expected received message) : Volatile message := by
  cases message with
  | declareQueue rid cid queueName exclusive durable autoDelete => exact expected
  | _ => exact trivial

theorem typable_of_line {line : Bytes} {message : ClientMessage}
    (sent : messageSent line = some message) : Typable message := by
  rw [messageSent_eq, Option.map_eq_some_iff] at sent
  obtain ⟨h, found, rfl⟩ := sent
  have member := List.mem_of_find?_eq_some found
  simp only [handlers, List.mem_cons, List.not_mem_nil, or_false] at member
  rcases member with rfl | rfl | rfl | rfl | rfl | rfl | rfl | rfl | rfl | rfl
  case inr.inr.inr.inr.inr.inl =>
    simp only [publishCommand, publishProperties, Typable]
    split
    · exact Or.inl rfl
    · next key => exact Or.inr ⟨_, rfl, key, rfl⟩
  case inr.inr.inr.inl => rfl
  all_goals exact trivial

theorem Typable.expected {message : ClientMessage} (typable : Typable message)
    (keyed : hasKey message = true) (received : List (Nat × Delivery)) :
    Expected received message := by
  cases message with
  | basicPublish rid cid exchangeName properties body =>
    refine typable.resolve_left fun none' => ?_
    rw [hasKey, none'] at keyed
    cases keyed
  | basicAck rid cid queueName messageId => exact typable.elim
  | _ => exact typable

end Requests

section Server

variable {codec : Codec} {matchHeaders : StrMap Bytes → StrMap Bytes → Bool}

def requestOps (conn : Nat) : Request → List ServerOp
  | .openChannel rid cid => [.openChannel conn rid cid]
  | .closeChannel rid cid => [.closeChannel conn rid cid]
  | .call rid cid call => [.request conn rid cid call]
  | .queueStatus _ _ _ => []
  | .heartbeat _ => []

variable (codec matchHeaders) in
theorem onMessage_broker (s : TimedBroker) (conn : Nat) (now : Int) (request : Request) :
    (s.onMessage codec matchHeaders conn now request).2.broker =
      Machine.exec (ServerOp.apply codec matchHeaders) s.broker (requestOps conn request) := by
  have unknown (absent : ¬s.broker.connected conn = true) :
      s.broker.connections.lookup conn = none := by
    rwa [BrokerServer.connected, Bool.not_eq_true, Option.isSome_eq_false_iff,
      Option.isNone_iff_eq_none] at absent
  cases request with
  | heartbeat rid => exact Protocol.refreshConnection_broker s conn now
  | queueStatus rid cid queueName =>
    rw [TimedBroker.onMessage, TimedBroker.onQueueStatusRequest, Protocol.getConnCtx_broker]
    split <;> rfl
  | openChannel rid cid =>
    rw [TimedBroker.onMessage, TimedBroker.onOpenChannel, Protocol.getConnCtx_broker]
    split
    · rfl
    · next absent =>
      simp [requestOps, ServerOp.apply, BrokerServer.openChannel, unknown absent]
  | closeChannel rid cid =>
    rw [TimedBroker.onMessage, TimedBroker.onCloseChannel, Protocol.getConnCtx_broker]
    split
    · rfl
    · next absent =>
      simp [requestOps, ServerOp.apply, BrokerServer.closeChannel, unknown absent]
  | call rid cid call =>
    rw [TimedBroker.onMessage, TimedBroker.onCall, Protocol.getConnCtx_broker]
    split
    · rfl
    · next absent =>
      simp [requestOps, ServerOp.apply, BrokerServer.request, BrokerServer.selectChannel,
        unknown absent]

variable (codec matchHeaders) in
theorem onMessage_host (s : TimedBroker) (conn : Nat) (now : Int) (request : Request) :
    (s.onMessage codec matchHeaders conn now request).2.broker.host = s.broker.host ∨
      ∃ rid cid call, request = .call rid cid call ∧
        (s.onMessage codec matchHeaders conn now request).2.broker.host =
          Machine.exec (HostOp.apply codec matchHeaders) s.broker.host
            (BrokerServer.callOps call) := by
  rw [onMessage_broker]
  cases request with
  | heartbeat rid => exact Or.inl rfl
  | queueStatus rid cid queueName => exact Or.inl rfl
  | openChannel rid cid =>
    exact Or.inl (BrokerServer.apply_host codec matchHeaders s.broker (.openChannel conn rid cid))
  | closeChannel rid cid =>
    exact Or.inl (BrokerServer.apply_host codec matchHeaders s.broker (.closeChannel conn rid cid))
  | call rid cid call =>
    have host := BrokerServer.apply_host codec matchHeaders s.broker (.request conn rid cid call)
    simp only [BrokerServer.hostOps] at host
    split at host
    · exact Or.inr ⟨rid, cid, call, rfl, host⟩
    · exact Or.inl host

variable (codec matchHeaders) in
theorem serve_host (s : TimedBroker) (conn : Nat) (now : Int) (visits : Visits)
    {message : ClientMessage} (volatile : Volatile message) :
    let host' := (s.onMessage codec matchHeaders conn now (toRequest visits message)).2.broker.host
    host' = s.broker.host ∨
      (∃ op, Takes op ∧ host' = op.apply codec matchHeaders s.broker.host) ∨
      ∃ rid cid exchangeName properties body,
        message = .basicPublish rid cid exchangeName properties body ∧
          host' = HostOp.apply codec matchHeaders s.broker.host
            (.publishToExchange visits.queues exchangeName properties body) := by
  rcases onMessage_host codec matchHeaders s conn now (toRequest visits message) with
    same | ⟨rid, cid, call, isCall, moved⟩
  · exact Or.inl same
  · simp only [moved]
    have one {op : HostOp} (single : BrokerServer.callOps call = [op]) (takes : Takes op) :
        ∃ op, Takes op ∧ Machine.exec (HostOp.apply codec matchHeaders) s.broker.host
          (BrokerServer.callOps call) = op.apply codec matchHeaders s.broker.host :=
      ⟨op, takes, by rw [single]; rfl⟩
    cases message with
    | openChannel rid cid => cases isCall
    | closeChannel rid cid => cases isCall
    | queueStatus rid cid queueName => cases isCall
    | heartbeat rid => cases isCall
    | basicConsume rid cid tag queueName autoAck =>
      cases isCall
      exact Or.inl rfl
    | basicCancel rid cid tag queueName =>
      cases isCall
      exact Or.inl rfl
    | basicPublish rid cid exchangeName properties body =>
      cases isCall
      exact Or.inr (Or.inr ⟨rid, cid, exchangeName, properties, body, rfl, rfl⟩)
    | declareQueue rid cid queueName exclusive durable autoDelete =>
      cases isCall
      exact Or.inr (Or.inl (one rfl volatile))
    | _ =>
      cases isCall
      exact Or.inr (Or.inl (one rfl trivial))

variable (codec) in
/-- A consume task hands over the head of its queue, or nothing. -/
theorem execute_cases (s : BrokerServer) (index : Nat) :
    ((s.execute codec index).1 = none ∧ ((s.execute codec index).2.host = s.host ∨
        ∃ queueName, (s.execute codec index).2.host = (s.host.takeFront codec queueName).2)) ∨
      ∃ d, (s.execute codec index).1 = some d ∧
        (s.host.takeFront codec d.qname).1 = some d.message ∧
        d.response = BrokerServer.consumeCb d.consumer.callback d.consumer.tag
          d.message.payload.properties d.message.body ∧
        ((s.execute codec index).2.host = (s.host.takeFront codec d.qname).2 ∨
          (s.execute codec index).2.host =
            (s.host.takeFront codec d.qname).2.basicAck codec d.qname d.message.id) := by
  unfold BrokerServer.execute
  split
  · exact Or.inl ⟨rfl, Or.inl rfl⟩
  next task _ =>
    unfold BrokerServer.consume
    have isTake : s.host.basicConsume codec task.qname = s.host.takeFront codec task.qname := rfl
    simp only [isTake]
    rcases taken : s.host.takeFront codec task.qname with ⟨_ | mp, host⟩
    · exact Or.inl ⟨rfl, Or.inr ⟨task.qname, by rw [taken]⟩⟩
    · rcases s.cmp.choose task.qname with ⟨_ | cp, cmp⟩
      · exact Or.inl ⟨rfl, Or.inr ⟨task.qname, by rw [taken]⟩⟩
      · refine Or.inr ⟨⟨cp, task.qname, mp, _⟩, rfl, by rw [taken], rfl, ?_⟩
        simp only [taken]
        split
        · exact Or.inr rfl
        · exact Or.inl rfl

end Server

section Steps

variable {start n : Nat} {s : System}

theorem handed_sublist {s' : System} {conn : Nat}
    (less : (s'.deliveriesTo conn).Sublist (s.deliveriesTo conn)) (queueName : Bytes) :
    (s'.handed conn queueName).Sublist (s.handed conn queueName) :=
  (less.filter _).map _

structure Less (h h' : VirtualHost) : Prop where
  wellFormed : h.WellFormed → h'.WellFormed
  fewer : ∀ queueName, (h'.service.letters queueName).Sublist (h.service.letters queueName)
  seq : h'.seq = h.seq

theorem Less.same {h h' : VirtualHost} (same : h' = h) : Less h h' :=
  ⟨fun ok => same ▸ ok, fun _ => same ▸ List.Sublist.refl _, congrArg _ same⟩

theorem Less.trans {h h' h'' : VirtualHost} (first : Less h h') (second : Less h' h'') :
    Less h h'' :=
  ⟨fun ok => second.wellFormed (first.wellFormed ok),
    fun queueName => (second.fewer queueName).trans (first.fewer queueName),
    second.seq.trans first.seq⟩

theorem Less.upkeep {h h' : VirtualHost} (ok : h.WellFormed → h'.WellFormed)
    (same : h'.service = h.service) : Less h h' :=
  ⟨ok, fun _ => (congrFun (congrArg Service.letters same) _) ▸ List.Sublist.refl _,
    congrArg Service.seq same⟩

theorem Less.takeFront (codec : Codec) (h : VirtualHost) (queueName : Bytes) :
    Less h (h.takeFront codec queueName).2 where
  wellFormed ok := ok.of_frame (Frame.takeFront h queueName)
  fewer other := by
    rw [(takeFront_service codec h queueName).2]
    exact sublist_update (List.tail_sublist _) other
  seq := takeFront_seq h queueName

theorem Less.basicAck (codec : Codec) (h : VirtualHost) (queueName id : Bytes) :
    Less h (h.basicAck codec queueName id) where
  wellFormed ok := ok.of_frame (Frame.basicAck h queueName id)
  fewer other := by
    rw [basicAck_service]
    exact sublist_update (remove_sublist _ id) other
  seq := basicAck_seq h queueName id

theorem Numbered.less {ρ : Type} {handed handed' : ρ → Bytes → List Bytes} {h h' : VirtualHost}
    (numbered : Numbered start n handed h)
    (less : ∀ conn queueName, (handed' conn queueName).Sublist (handed conn queueName))
    (host : Less h h') : Numbered start n handed' h' :=
  ⟨host.seq ▸ numbered.seq,
    numbered.orderly.lose less fun queueName => (host.fewer queueName).map Letter.id⟩

theorem Tidy.less (tidy : Tidy start n s) {s' : System} (host : Less s.host s'.host)
    (less : ∀ conn, (s'.deliveriesTo conn).Sublist (s.deliveriesTo conn))
    (requests : ∀ e ∈ s'.up, Expected s'.received e.2) : Tidy start n s' where
  wellFormed := host.wellFormed tidy.wellFormed
  numbered := tidy.numbered.less (fun conn => handed_sublist (less conn)) host
  requests := requests
  responses conn d member := tidy.responses conn d ((less conn).subset member)

theorem Tidy.same (tidy : Tidy start n s) {s' : System} (host : s'.host = s.host)
    (same : s'.deliveriesTo = s.deliveriesTo) (requests : ∀ e ∈ s'.up, Expected s'.received e.2) :
    Tidy start n s' :=
  tidy.less (.same host) (fun _ => same ▸ List.Sublist.refl _) requests

theorem Tidy.change (tidy : Tidy start n s) (bounded : n < 2 ^ 64) {s' : System}
    {host : VirtualHost} (moved : s'.host = host) (change : Change s.host.service host.service)
    (ok : host.WellFormed) (same : s'.deliveriesTo = s.deliveriesTo)
    (requests : ∀ e ∈ s'.up, Expected s'.received e.2) : ∃ m, m ≤ n + 1 ∧ Tidy start m s' := by
  have handed : s'.handed = s.handed := by
    funext conn queueName
    rw [System.handed, same, System.handed]
  subst moved
  obtain ⟨m, next, numbered⟩ := tidy.numbered.change bounded change
  exact ⟨m, next, ok, handed ▸ numbered, requests, same ▸ tidy.responses⟩

theorem Tidy.submit (tidy : Tidy start n s) (conn : Nat) {message : Option ClientMessage}
    (expected : ∀ m ∈ message, Expected s.received m) : Tidy start n (s.submit conn message) := by
  unfold System.submit
  split
  · refine tidy.same rfl rfl ?_
    intro e member
    rcases List.mem_append.mp member with old | new
    · exact tidy.requests e old
    · rw [Option.mem_toList, Option.map_eq_some_iff] at new
      obtain ⟨m, sent, rfl⟩ := new
      exact expected m sent
  · exact tidy

theorem deliveriesTo_receive {conn : Nat} {d : Delivery} {down : List (Nat × Packet)}
    (popped : pop conn s.down = (some (.delivery d), down)) (up : List (Nat × ClientMessage)) :
    System.deliveriesTo { s with down, up, received := s.received ++ [(conn, d)] } =
      s.deliveriesTo := by
  funext other
  simp only [System.deliveriesTo, on_append, on_of_pop popped other]
  split
  · next same =>
    subst same
    rw [on_cons_self, on_nil, List.append_assoc, List.singleton_append]
    rfl
  · next differs => rw [on_cons_ne (Ne.symm differs), on_nil, List.append_nil]

theorem deliveriesTo_pop {conn : Nat} {r : Reply} {down : List (Nat × Packet)}
    (popped : pop conn s.down = (some (.reply r), down)) :
    System.deliveriesTo { s with down } = s.deliveriesTo := by
  funext other
  simp only [System.deliveriesTo, on_of_pop popped other]
  split
  · next same =>
    subst same
    rw [List.filterMap_cons_none rfl]
  · rfl

theorem Tidy.receive (tidy : Tidy start n s) (conn : Nat) : Tidy start n (s.receive conn) := by
  unfold System.receive
  split
  · exact tidy
  · next r down popped =>
    exact tidy.same rfl (deliveriesTo_pop popped) tidy.requests
  · next d down popped =>
    refine tidy.same rfl (deliveriesTo_receive popped _) ?_
    have arrived : d ∈ s.deliveriesTo conn := by
      rw [← deliveriesTo_receive popped s.up]
      refine List.mem_append_left _ (mem_on.mpr ?_)
      exact List.mem_append_right _ (List.mem_singleton_self _)
    intro e member
    rcases List.mem_append.mp member with old | new
    · exact (tidy.requests e old).mono (List.subset_append_left _ _)
    · rw [Option.mem_toList, Option.map_eq_some_iff] at new
      obtain ⟨m, sent, rfl⟩ := new
      rw [tidy.responses conn d arrived] at sent
      obtain rfl := Option.some.inj sent
      exact ⟨(conn, d), List.mem_append_right _ (List.mem_singleton_self _), rfl⟩

theorem filterMap_packets (conn : Nat) (effects : List Effect) :
    (on conn (packets effects)).filterMap Packet.delivery? = [] := by
  refine List.filterMap_eq_nil_iff.mpr ?_
  intro packet member
  obtain ⟨effect, -, packed⟩ := List.mem_filterMap.mp (mem_on.mp member)
  cases effect with
  | send c reply =>
    obtain rfl : Packet.reply reply = packet := congrArg Prod.snd (Option.some.inj packed)
    rfl
  | shutdown c => cases packed

variable {codec : Codec} {matchHeaders : StrMap Bytes → StrMap Bytes → Bool}

theorem Tidy.serve (tidy : Tidy start n s) (bounded : n < 2 ^ 64) (conn : Nat) (now : Int)
    (visits : Visits) :
    ∃ m, m ≤ n + 1 ∧ Tidy start m (s.serve codec matchHeaders conn now visits) := by
  unfold System.serve
  split
  · exact ⟨n, Nat.le_succ n, tidy⟩
  next message up popped =>
    have expected : Expected s.received message := tidy.requests _ (mem_of_pop popped)
    have moved := serve_host codec matchHeaders s.server conn now visits expected.volatile
    have kept : System.deliveriesTo
        { s with
          server := (s.server.onMessage codec matchHeaders conn now (toRequest visits message)).2
          up
          down := s.down ++ packets
            (s.server.onMessage codec matchHeaders conn now (toRequest visits message)).1 } =
        s.deliveriesTo := by
      funext other
      simp only [System.deliveriesTo, on_append, List.filterMap_append, filterMap_packets,
        List.append_nil]
    have requests : ∀ e ∈ up, Expected s.received e.2 := fun e member =>
      tidy.requests e (subset_of_pop popped member)
    rcases moved with
      same | ⟨op, takes, moved⟩ | ⟨rid, cid, exchangeName, properties, body, rfl, moved⟩
    · exact tidy.change bounded same (.same rfl rfl) tidy.wellFormed kept requests
    · exact tidy.change bounded moved
        (.loses (takes_loses codec matchHeaders tidy.wellFormed takes))
        (WellFormed.apply tidy.wellFormed op) kept requests
    · refine tidy.change bounded moved ?_ (WellFormed.apply tidy.wellFormed _) kept requests
      have service := apply_service codec matchHeaders tidy.wellFormed
        (.publishToExchange visits.queues exchangeName properties body)
      refine Eq.mpr (congrArg (Change s.host.service) service) ?_
      exact publish_change s.host.service matchHeaders visits.queues exchangeName expected body

theorem Numbered.hand {handed handed' : Nat → Bytes → List Bytes} {h : VirtualHost}
    (numbered : Numbered start n handed h) (bounded : n ≤ 2 ^ 64) {queueName : Bytes}
    {m : MessagePtr} (taken : (h.takeFront codec queueName).1 = some m) (conn : Nat)
    (gains : ∀ other q, handed' other q =
      if other = conn ∧ q = queueName then handed conn queueName ++ [m.id] else handed other q) :
    Numbered start n handed' (h.takeFront codec queueName).2 := by
  obtain ⟨first, moved⟩ := takeFront_service codec h queueName
  rw [taken, Option.map_some] at first
  have held : stored h queueName =
      m.id :: ((h.service.letters queueName).tail).map Letter.id := by
    rw [stored, idsOf, ← List.cons_head?_tail first.symm]
    rfl
  refine ⟨(takeFront_seq h queueName).symm ▸ numbered.seq, ?_⟩
  have after : stored (h.takeFront codec queueName).2 =
      Function.update (stored h) queueName ((h.service.letters queueName).tail.map Letter.id) := by
    funext other
    rw [stored, moved]
    exact Function.apply_update (fun _ => List.map Letter.id) _ _ _ _
  rw [after]
  exact numbered.orderly.hand (issued_nodup start bounded) held conn gains

theorem deliveriesTo_send (s : System) (server : TimedBroker) (conn : Nat) (d : Delivery)
    (other : Nat) :
    System.deliveriesTo { s with server, down := s.down ++ [(conn, .delivery d)] } other =
      if other = conn then s.deliveriesTo conn ++ [d] else s.deliveriesTo other := by
  simp only [System.deliveriesTo, on_append]
  split
  · next same =>
    subst same
    rw [on_cons_self, on_nil, List.filterMap_append, List.append_assoc]
    rfl
  · next differs => rw [on_cons_ne (Ne.symm differs), on_nil, List.append_nil]

theorem handed_send (s : System) (server : TimedBroker) (conn : Nat) (d : Delivery) (other : Nat)
    (queueName : Bytes) :
    System.handed { s with server, down := s.down ++ [(conn, .delivery d)] } other queueName =
      if other = conn ∧ queueName = d.qname then s.handed conn d.qname ++ [d.message.id]
      else s.handed other queueName := by
  rw [System.handed, deliveriesTo_send]
  by_cases toClient : other = conn
  · subst toClient
    rw [if_pos rfl, List.filter_append, List.map_append]
    by_cases fromQueue : queueName = d.qname
    · subst fromQueue
      simp [System.handed]
    · simp [System.handed, fromQueue, Ne.symm fromQueue]
  · rw [if_neg toClient, if_neg fun both => toClient both.1, System.handed]

theorem Tidy.execute (tidy : Tidy start n s) (bounded : n ≤ 2 ^ 64) (index : Nat) :
    Tidy start n (s.execute codec index) := by
  unfold System.execute
  rcases execute_cases codec s.server.broker index with
    ⟨nobody, moved⟩ | ⟨d, delivered, taken, response, moved⟩
  · simp only [nobody]
    refine tidy.less ?_ (fun _ => List.Sublist.refl _) tidy.requests
    rcases moved with same | ⟨queueName, taken⟩
    · exact .same same
    · exact (Less.takeFront codec s.host queueName).trans (.same taken)
  have acked : Less (s.host.takeFront codec d.qname).2
      (s.server.broker.execute codec index).2.host := by
    rcases moved with same | acknowledged
    · exact .same same
    · exact (Less.basicAck codec _ d.qname d.message.id).trans (.same acknowledged)
  simp only [delivered]
  split
  · exact tidy.less ((Less.takeFront codec s.host d.qname).trans acked)
      (fun _ => List.Sublist.refl _) tidy.requests
  · next conn _ =>
    refine ⟨?_, ?_, tidy.requests, ?_⟩
    · exact acked.wellFormed ((Less.takeFront codec s.host d.qname).wellFormed tidy.wellFormed)
    · exact (tidy.numbered.hand bounded taken conn (handed_send s _ conn d)).less
        (fun _ _ => List.Sublist.refl _) acked
    · intro other d' member
      rw [deliveriesTo_send] at member
      split at member
      · rcases List.mem_append.mp member with old | new
        · exact tidy.responses conn d' old
        · obtain rfl := List.mem_singleton.mp new
          exact response
      · exact tidy.responses other d' member

theorem Tidy.disconnect (tidy : Tidy start n s) (conn : Nat) :
    Tidy start n (System.apply codec matchHeaders s (.disconnect conn)) := by
  refine tidy.less (.same (BrokerServer.deleteConnection_host s.server.broker conn)) ?_ ?_
  · intro other
    exact (List.Sublist.refl _).append (((cut_sublist s.down).filterMap _).filterMap _)
  · exact fun e member => tidy.requests e ((cut_sublist s.up).subset member)

variable (codec matchHeaders) in
/-- One step uses up one number at most. -/
theorem Tidy.apply (tidy : Tidy start n s) (bounded : n < 2 ^ 64) (step : Step)
    (keyed : ∀ conn line, step = .command conn line → (messageSent line).all hasKey = true) :
    ∃ m, m ≤ n + 1 ∧ Tidy start m (System.apply codec matchHeaders s step) := by
  have stays {s' : System} (tidy : Tidy start n s') : ∃ m, m ≤ n + 1 ∧ Tidy start m s' :=
    ⟨n, Nat.le_succ n, tidy⟩
  cases step with
  | connect conn now =>
    refine stays (tidy.same ?_ rfl tidy.requests)
    have host := BrokerServer.apply_host codec matchHeaders s.server.broker (.newConnection conn)
    exact (congrArg BrokerServer.host (Protocol.newConnection_broker s.server conn now)).trans host
  | disconnect conn => exact stays (tidy.disconnect conn)
  | command conn line =>
    refine stays (tidy.submit conn ?_)
    intro message sent
    refine (typable_of_line sent).expected ?_ _
    have all := keyed conn line rfl
    rwa [sent, Option.all_some] at all
  | beat conn =>
    refine stays (tidy.submit conn ?_)
    intro message sent
    obtain rfl := Option.some.inj sent
    exact trivial
  | serve conn now visits => exact tidy.serve bounded conn now visits
  | execute index => exact stays (tidy.execute (Nat.le_of_lt bounded) index)
  | receive conn => exact stays (tidy.receive conn)
  | queueRuntimeStats queueName =>
    refine stays (tidy.less (.upkeep ?_ ?_) (fun _ => List.Sublist.refl _) tidy.requests)
    · exact fun ok => ok.of_frame (Frame.queueRuntimeStats s.host queueName)
    · exact queueRuntimeStats_service s.host queueName
  | compactQueue queueName =>
    refine stays (tidy.less (.upkeep ?_ ?_) (fun _ => List.Sublist.refl _) tidy.requests)
    · exact fun ok => ok.of_frame (Frame.compactQueue s.host queueName)
    · exact compactQueue_service s.host queueName

variable (codec matchHeaders) in
/-- The induction over the run. -/
theorem Tidy.run (tidy : Tidy start n s) (steps : List Step) (bounded : n + steps.length < 2 ^ 64)
    (keyed : ∀ conn line, Step.command conn line ∈ steps → (messageSent line).all hasKey = true) :
    ∃ m, m ≤ n + steps.length ∧
      Tidy start m (Machine.exec (System.apply codec matchHeaders) s steps) := by
  induction steps generalizing n s with
  | nil => exact ⟨n, Nat.le_refl n, tidy⟩
  | cons step steps ih =>
    rw [List.length_cons] at bounded
    obtain ⟨m, next, moved⟩ := tidy.apply codec matchHeaders (by omega) step
      fun conn line same => keyed conn line (same ▸ List.mem_cons_self)
    obtain ⟨k, last, ended⟩ := ih moved (by omega)
      fun conn line member => keyed conn line (List.mem_cons_of_mem _ member)
    exact ⟨k, by rw [List.length_cons]; omega, ended⟩

end Steps

section Results

variable {start n : Nat} {s : System}

theorem Fresh.tidy (fresh : Fresh s) : Tidy s.host.seq 0 s := by
  obtain ⟨⟨host, initial, isNew⟩, up, down, received⟩ := fresh
  have isHost : s.host = host := congrArg BrokerServer.host isNew
  have nothing (conn : Nat) : s.deliveriesTo conn = [] := by
    rw [System.deliveriesTo, down, received]
    rfl
  have handed : s.handed = fun _ _ => [] := by
    funext conn queueName
    rw [System.handed, nothing]
    rfl
  have empty : stored s.host = fun _ => [] := by
    obtain ⟨name, baseDir, exchanges, seq, fs, rfl⟩ := initial
    rw [isHost]
    rfl
  refine ⟨?_, ⟨rfl, ?_⟩, ?_, ?_⟩
  · obtain ⟨name, baseDir, exchanges, seq, fs, rfl⟩ := initial
    exact isHost ▸ WellFormed.new name baseDir exchanges seq fs
  · rw [handed, empty]
    exact .nil _
  · rw [up]
    exact fun e member => absurd member List.not_mem_nil
  · intro conn d member
    rw [nothing] at member
    exact absurd member List.not_mem_nil

theorem issued_sublist {n m : Nat} (start : Nat) (less : n ≤ m) :
    (issued start n).Sublist (issued start m) :=
  (List.range_sublist.mpr less).map _

/-- An id that is not in the queue is acknowledged in vain. -/
theorem ack_nothing (codec : Codec) {h : VirtualHost} {queueName id : Bytes} (set : id ≠ [])
    (absent : id ∉ stored h queueName) :
    (h.basicAck codec queueName id).contents = h.contents := by
  refine basicAck_of_none codec (QueueMessage.target_eq_none_iff.mpr (Or.inr ⟨set, ?_⟩))
  intro m queued same
  refine absent (List.mem_map.mpr ⟨m.letter, List.mem_map_of_mem queued, same⟩)

theorem Tidy.ack_nothing (tidy : Tidy start n s) (bounded : n ≤ 2 ^ 64) (codec : Codec) {conn : Nat}
    {rid cid queueName id : Bytes} (asked : (conn, .basicAck rid cid queueName id) ∈ s.up) :
    (s.host.basicAck codec queueName id).contents = s.host.contents := by
  obtain ⟨e, arrived, rfl⟩ : ∃ e ∈ s.received, e.2.message.id = id := tidy.requests _ asked
  have got : e.2.message.id ∈ s.handed e.1 e.2.qname := by
    refine List.mem_map_of_mem (List.mem_filter.mpr ⟨List.mem_append_left _ ?_, by simp⟩)
    exact mem_on.mpr arrived
  have orderly := tidy.numbered.orderly
  have given := (orderly.inOrder e.1 e.2.qname).subset (List.mem_append_left _ got)
  exact Client.ack_nothing codec (issued_ne_nil given)
    (orderly.not_stored (issued_nodup _ bounded) got)

theorem Tidy.ack_taken (tidy : Tidy start n s) (bounded : n ≤ 2 ^ 64) (codec : Codec)
    {queueName : Bytes} {m : MessagePtr} {rest : List MessagePtr}
    (held : s.host.contents queueName = m :: rest) :
    ((s.host.takeFront codec queueName).2.basicAck codec queueName m.id).contents =
      (s.host.takeFront codec queueName).2.contents := by
  have waiting : stored s.host queueName = m.id :: (rest.map MessagePtr.letter).map Letter.id := by
    rw [stored, idsOf, service_letters, held]
    rfl
  have order := (List.sublist_append_right _ _).trans (tidy.numbered.orderly.inOrder 0 queueName)
  have once := order.nodup (issued_nodup start bounded)
  rw [waiting] at order once
  refine Client.ack_nothing codec (issued_ne_nil (order.subset List.mem_cons_self)) ?_
  have left : stored (s.host.takeFront codec queueName).2 queueName =
      (rest.map MessagePtr.letter).map Letter.id := by
    rw [stored, idsOf, service_letters, (takeFront_cons codec held).2, Function.update_self]
    rfl
  exact left ▸ (List.nodup_cons.mp once).1

/-- A task takes the head of its queue and nothing else, and hands it over if there is somebody
to hand it to. -/
theorem Tidy.execute_contents (tidy : Tidy start n s) (bounded : n ≤ 2 ^ 64) (codec : Codec)
    {index : Nat} {task : Task} (waiting : s.server.broker.pool[index]? = some task) :
    (s.execute codec index).host.contents =
        Function.update s.host.contents task.qname (s.host.contents task.qname).tail ∧
      (s.server.broker.execute codec index).1.map (fun d => (d.qname, d.message)) =
        if s.server.broker.cmp.consumersOf task.qname = [] then none
        else (s.host.contents task.qname).head?.map (Prod.mk task.qname) := by
  have isHost : (s.execute codec index).host = (s.server.broker.execute codec index).2.host := by
    rw [System.execute]
    split
    · rfl
    · split <;> rfl
  have isTake : s.server.broker.host.basicConsume codec task.qname =
      s.host.takeFront codec task.qname := rfl
  rw [isHost, BrokerServer.execute, waiting]
  simp only [BrokerServer.consume, isTake]
  cases held : s.host.contents task.qname with
  | nil =>
    rw [takeFront_empty codec held, List.tail_nil, ← held, Function.update_eq_self]
    exact ⟨rfl, by simp [held]⟩
  | cons m rest =>
    obtain ⟨first, after⟩ := takeFront_cons codec held
    have acknowledged := tidy.ack_taken bounded codec held
    have somebody := @ConsumerManager.choose_isSome s.server.broker.cmp task.qname
    have listed := fun c => @ConsumerManager.choose_mem s.server.broker.cmp task.qname c
    rw [List.tail_cons, ← after]
    generalize s.host.takeFront codec task.qname = taken at first acknowledged ⊢
    generalize s.server.broker.cmp.choose task.qname = choice at somebody listed ⊢
    obtain ⟨_, host⟩ := taken
    obtain rfl := first
    obtain ⟨_ | cp, cmp⟩ := choice
    · have nobody : s.server.broker.cmp.consumersOf task.qname = [] :=
        by_contra fun registered => Bool.false_ne_true (somebody registered)
      rw [if_pos nobody]
      exact ⟨rfl, rfl⟩
    · rw [if_neg (List.ne_nil_of_mem (listed cp rfl))]
      refine ⟨?_, rfl⟩
      simp only
      split
      · exact acknowledged
      · rfl

theorem received_ids (received : List (Nat × Delivery)) (conn : Nat) (queueName : Bytes) :
    ((received.map fun e => (e.1, e.2.qname, e.2.message.id)).filter
        fun e => decide (e.1 = conn ∧ e.2.1 = queueName)).map (fun e => e.2.2) =
      ((on conn received).filter fun d => d.qname == queueName).map fun d => d.message.id := by
  induction received with
  | nil => rfl
  | cons e received ih =>
    obtain ⟨c, d⟩ := e
    by_cases toClient : c = conn
    · subst toClient
      by_cases fromQueue : d.qname = queueName
      · simpa [on_cons_self, fromQueue] using ih
      · simpa [on_cons_self, fromQueue] using ih
    · simpa [on_cons_ne toClient, toClient] using ih

/-- From a server that was just started, as long as every publication names a routing key, there
are fewer steps than numbers and no channel is used after its end: no message arrives twice, what
arrives from a queue is in the order in which it was numbered, acknowledgements under way remove
nothing, and a consume task removes the head of its queue and nothing else, which it sends to a
consumer if there is one. -/
theorem clients_receive_once_in_order (codec : Codec)
    (matchHeaders : StrMap Bytes → StrMap Bytes → Bool) {s : System} (fresh : Fresh s)
    (steps : List Step) (bounded : steps.length < 2 ^ 64)
    (keyed : ∀ conn line, Step.command conn line ∈ steps →
      (messageSent line).all hasKey = true) :
    Machine.Along (System.apply codec matchHeaders) (System.Alive codec) s steps →
    let s' := Machine.exec (System.apply codec matchHeaders) s steps
    (s'.received.map fun e => e.2.message.id).Nodup ∧
      (∀ conn queueName,
        (((on conn s'.received).filter fun d => d.qname == queueName).map
          fun d => d.message.id).Sublist (issued s.host.seq steps.length)) ∧
      (∀ conn rid cid queueName id, (conn, .basicAck rid cid queueName id) ∈ s'.up →
        (s'.host.basicAck codec queueName id).contents = s'.host.contents) ∧
      ∀ index task, s'.server.broker.pool[index]? = some task →
        System.Alive codec s' (.execute index) →
        let d? := (s'.server.broker.execute codec index).1
        (s'.execute codec index).host.contents =
            Function.update s'.host.contents task.qname (s'.host.contents task.qname).tail ∧
          (d?.map fun d => (d.qname, d.message)) =
            (if s'.server.broker.cmp.consumersOf task.qname = [] then none
            else (s'.host.contents task.qname).head?.map (Prod.mk task.qname)) ∧
          ∀ d ∈ d?, ∃ conn, connectionOf s'.server.broker d.consumer.callback = some conn ∧
            (s'.execute codec index).down = s'.down ++ [(conn, .delivery d)] := by
  intro _ s'
  obtain ⟨n, within, tidy⟩ := fresh.tidy.run codec matchHeaders steps (by omega) keyed
  have orderly := tidy.numbered.orderly
  have small : n ≤ 2 ^ 64 := by omega
  have arrived (conn : Nat) (queueName : Bytes) :
      (((on conn s'.received).filter fun d => d.qname == queueName).map
        fun d => d.message.id).Sublist (s'.handed conn queueName) :=
    ((List.sublist_append_left _ _).filter _).map _
  refine ⟨?_, ?_, ?_, ?_⟩
  · have distinct : ((s'.received.map fun e => (e.1, e.2.qname, e.2.message.id)).map
        fun e => e.2.2).Nodup := by
      refine orderly.nodup (issued_nodup _ small) ?_
      intro conn queueName
      rw [received_ids]
      exact arrived conn queueName
    rwa [List.map_map] at distinct
  · intro conn queueName
    exact (arrived conn queueName).trans ((List.sublist_append_left _ _).trans
      ((orderly.inOrder conn queueName).trans (issued_sublist _ (by omega))))
  · intro conn rid cid queueName id asked
    exact tidy.ack_nothing small codec asked
  · intro index task waiting alive
    obtain ⟨removed, handed⟩ := tidy.execute_contents small codec waiting
    refine ⟨removed, handed, fun d delivered => ?_⟩
    obtain ⟨conn, found⟩ := Option.isSome_iff_exists.mp (alive.2 d delivered)
    exact ⟨conn, found, by rw [System.execute, Option.mem_def.mp delivered]; simp only [found]⟩

def started : System :=
  { server := .new (BrokerServer.new .blank) fun _ => rfl }

theorem started_fresh : Fresh started := ⟨⟨_, blank_initial, rfl⟩, rfl, rfl, rfl⟩

def lines : List Bytes :=
  [str "open 0", str "queue_declare q", str "exchange_declare news fanout", str "bind news q q",
    str "consume 0 q me", str "publish news q hello"]

def conversation : List Step :=
  [.connect 1 0] ++ lines.map (.command 1) ++
    List.replicate 6 (.serve 1 0 ⟨.stored, .stored, .stored⟩) ++ [.execute 0] ++
    List.replicate 7 (.receive 1)

theorem clients_receive_once_in_order_example :
    let s := Machine.exec (System.apply Wire.codec fun _ _ => false) started conversation
    s.received.map (fun e => (e.1, e.2.message.body)) = [(1, str "hello")] ∧
      (s.received.map fun e => e.2.message.id).Nodup := by
  refine ⟨by decide +kernel, ?_⟩
  refine (clients_receive_once_in_order Wire.codec (fun _ _ => false) started_fresh conversation
    (by decide) ?_ (by decide +kernel)).1
  intro conn line member
  have listed : line ∈ lines ∧ conn = 1 := by
    simpa [conversation, eq_comm] using member
  have all : ∀ line ∈ lines, (messageSent line).all hasKey = true := by decide +kernel
  exact all line listed.1

end Results

end HzMq.Client
