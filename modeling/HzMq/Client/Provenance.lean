import HzMq.Client.Delivery
import HzMq.Delivery.Callbacks

/-!
# Where messages come from

What waits in a queue, is on the way to a client or was received by one was typed at some
client: the text, the properties, the way from the exchange to the queue, and at the
receiving end the subscription or the pull. The server and the clients make up ids and
acknowledgements only.
-/

namespace HzMq.Client

open VirtualHost Streams Machine HzMq.Delivery HzMq.Protocol HzMq.Topology

section Origin

variable (script : List Step)

def Typed (conn : Nat) (message : ClientMessage) : Prop :=
  ∃ line, Step.command conn line ∈ script ∧ messageSent line = some message

/-- Somebody bound the queue to the exchange; declaring it binds it to the default exchange. -/
def Routed (exchangeName queueName : Bytes) : Prop :=
  (exchangeName = [] ∧ ∃ conn rid cid exclusive durable autoDelete,
      Typed script conn (.declareQueue rid cid queueName exclusive durable autoDelete)) ∨
    ∃ conn rid cid bindingKey bindingArgs,
      Typed script conn (.bind rid cid exchangeName queueName bindingKey bindingArgs)

/-- Somebody published the letter, for this queue or for no queue in particular. -/
def Written (queueName : Bytes) (letter : Letter) : Prop :=
  ∃ conn rid cid exchangeName properties id,
    Typed script conn (.basicPublish rid cid exchangeName properties letter.body) ∧
      Routed script exchangeName queueName ∧
      (∀ props, properties = some props → props.routingKey = queueName) ∧
      letter.properties? = some { properties.getD {} with id, routingKey := queueName }

def Subscribed (conn : Nat) (tag queueName : Bytes) (autoAck : Bool) : Prop :=
  ∃ rid cid, Typed script conn (.basicConsume rid cid tag queueName autoAck)

/-- The client sends these by itself. -/
def automatic : ClientMessage → Bool
  | .basicAck _ _ _ _ => true
  | .heartbeat _ => true
  | _ => false

def Sent (conn : Nat) (message : ClientMessage) : Prop :=
  automatic message = true ∨ Typed script conn message

def Allowed : HostOp → Prop
  | .publishToExchange _ exchangeName properties body =>
    ∃ conn rid cid, Typed script conn (.basicPublish rid cid exchangeName properties body)
  | .declareQueue queueName durable _ _ _ => durable = false ∧ Routed script [] queueName
  | .bind exchangeName queueName _ _ => Routed script exchangeName queueName
  | .declareQueueWithDlq _ _ _ _ _ _ => False
  | .basicPublish _ _ _ => False
  | .publishEx _ _ _ _ _ => False
  | .basicNack _ _ _ _ _ => False
  | _ => True

open Classical in
noncomputable def unrouted (exchangeName queueName : Bytes) : Bool :=
  !decide (Routed script exchangeName queueName)

structure SoundHost (h : VirtualHost) : Prop where
  wellFormed : h.WellFormed
  stored : ∀ queueName, ∀ letter ∈ h.service.letters queueName, Written script queueName letter
  bindings : Unbound (unrouted script) h

structure Sound (s : BrokerServer) : Prop where
  host : SoundHost script s.host
  answerable : Answerable (Subscribed script) s

structure Rightful (conn : Nat) (d : Delivery) : Prop where
  written : Written script d.qname d.message.letter
  subscribed : Subscribed script conn d.consumer.tag d.qname d.consumer.autoAck
  response : d.response = BrokerServer.consumeCb d.consumer.callback d.consumer.tag
    d.message.payload.properties d.message.body

def Pulled (conn : Nat) (rid body : Bytes) : Prop :=
  (∃ cid, Typed script conn (.basicQuery rid cid)) ∧
    (body = [] ∨ ∃ queueName letter, Written script queueName letter ∧ letter.body = body)

structure Honest (s : System) : Prop where
  broker : Sound script s.server.broker
  requests : ∀ e ∈ s.up, Sent script e.1 e.2
  delivered : ∀ conn, ∀ d ∈ s.deliveriesTo conn, Rightful script conn d
  pulled : ∀ conn rid cid body, (conn, .reply (.response (.query rid cid body))) ∈ s.down →
    Pulled script conn rid body

end Origin

theorem unrouted_iff {script : List Step} {exchangeName queueName : Bytes} :
    unrouted script exchangeName queueName = true ↔ ¬Routed script exchangeName queueName := by
  simp [unrouted]

section Host

variable {script : List Step} {codec : Codec}
  {matchHeaders : StrMap Bytes → StrMap Bytes → Bool} {h : VirtualHost}

theorem publish_origin {t : Service} {visit : Visit Binding} {exchangeName body : Bytes}
    {bp : Option BasicProperties} {queueName : Bytes} {letter : Letter}
    (member : letter ∈ (t.publish matchHeaders visit exchangeName bp body).2.letters queueName) :
    letter ∈ t.letters queueName ∨ letter = t.letterFor bp body queueName ∧
      ((t.bindingsOf exchangeName).lookup queueName).isSome ∧
      ∀ props, bp = some props → props.routingKey ≠ [] → props.routingKey = queueName := by
  unfold Service.publish at member
  cases known : t.exchanges exchangeName with
  | none =>
    rw [known] at member
    exact Or.inl member
  | some type =>
    rw [known] at member
    have posted : letter ∈ (t.post (accepted (Service.matching matchHeaders type bp)
        (bp.map BasicProperties.routingKey) (visit.order (t.bindingsOf exchangeName)))
        (t.letterFor bp body)).letters queueName := by
      simp only at member
      split at member <;> exact member
    simp only [Service.post] at posted
    split at posted
    · next takes =>
      rcases List.mem_append.mp posted with old | new
      · exact Or.inl old
      · refine Or.inr ⟨List.mem_singleton.mp new, ?_, ?_⟩
        · obtain ⟨binding, visited, -⟩ := mem_accepted takes
          exact Option.isSome_of_eq_some (visit.mem_order.mp visited)
        · rintro props rfl key
          exact (eq_key_of_mem_accepted key takes).symm
    · exact Or.inl posted

theorem SoundHost.apply (sound : SoundHost script h) {op : HostOp} (allowed : Allowed script op) :
    SoundHost script (op.apply codec matchHeaders h) := by
  refine ⟨WellFormed.apply sound.wellFormed op, ?_, unbound_apply sound.bindings ?_⟩
  · intro queueName letter member
    by_cases takes : Takes op
    · have loses := takes_loses codec matchHeaders sound.wellFormed takes
      exact sound.stored queueName letter ((loses.fewer queueName).subset member)
    · cases op with
      | publishToExchange visit exchangeName properties body =>
        obtain ⟨conn, rid, cid, typed⟩ := allowed
        have service := apply_service codec matchHeaders sound.wellFormed
          (.publishToExchange visit exchangeName properties body)
        rw [service] at member
        rcases publish_origin member with old | ⟨rfl, bound, keyed⟩
        · exact sound.stored queueName letter old
        · refine ⟨conn, rid, cid, exchangeName, properties, _, typed, ?_, ?_, rfl⟩
          · by_contra nobody
            have free := sound.bindings exchangeName queueName (unrouted_iff.mpr nobody)
            rw [service_bindingsOf] at bound
            rw [bindingAt] at free
            rw [free] at bound
            cases bound
          · rintro props rfl
            obtain ⟨line, -, sent⟩ := typed
            rcases typable_of_line sent with none | ⟨props', same, key, -⟩
            · cases none
            · cases same
              exact keyed props rfl key
      | declareQueue queueName durable exclusive autoDelete args => exact absurd allowed.1 takes
      | declareQueueWithDlq queueName durable exclusive autoDelete args config =>
        exact absurd allowed id
      | basicPublish queueName bp body => exact absurd allowed id
      | publishEx visit exchangeName routingKey bp body => exact absurd allowed id
      | basicNack visit queueName msgId requeue reason => exact absurd allowed id
      | _ => exact absurd trivial takes
  · cases op with
    | bind exchangeName queueName bindingKey bindingArgs =>
      exact Bool.eq_false_iff.mpr fun nobody => unrouted_iff.mp nobody allowed
    | declareQueue queueName durable exclusive autoDelete args =>
      exact Bool.eq_false_iff.mpr fun nobody => unrouted_iff.mp nobody allowed.2
    | _ => rfl

variable (codec matchHeaders) in
theorem Sound.apply {s : BrokerServer} (sound : Sound script s) (op : ServerOp)
    (allowed : ∀ o ∈ s.hostOps codec op, Allowed script o)
    (asks : ∀ conn rid cid tag queueName autoAck,
      op = .request conn rid cid (.basicConsume tag queueName autoAck) →
        Subscribed script conn tag queueName autoAck) :
    Sound script (op.apply codec matchHeaders s) := by
  refine ⟨?_, sound.answerable.apply codec matchHeaders op asks⟩
  rw [BrokerServer.apply_host]
  exact Along.invariant (fun h o sound allowed => sound.apply allowed) sound.host
    (along_of_forall (fun o member _ => allowed o member) s.host)

variable (codec matchHeaders) in
/-- The steps of the broker that no request asked for. -/
theorem Sound.quiet {s : BrokerServer} (sound : Sound script s) (op : ServerOp)
    (quiet : ∀ conn rid cid call, op ≠ .request conn rid cid call) :
    Sound script (op.apply codec matchHeaders s) := by
  refine sound.apply codec matchHeaders op ?_ fun conn rid cid tag queueName autoAck same =>
    absurd same (quiet conn rid cid _)
  intro o member
  cases op with
  | request conn rid cid call => exact absurd rfl (quiet conn rid cid call)
  | execute index =>
    simp only [BrokerServer.hostOps] at member
    cases found : s.pool[index]? with
    | none => simp [found] at member
    | some task =>
      rw [found, Option.map_some, Option.getD_some] at member
      rcases List.mem_cons.mp member with rfl | acknowledges
      · exact trivial
      · split at acknowledges
        · split at acknowledges
          · rw [List.mem_singleton.mp acknowledges]
            exact trivial
          · cases acknowledges
        · cases acknowledges
  | queueRuntimeStats queueName =>
    rw [List.mem_singleton.mp member]
    exact trivial
  | compactQueue queueName =>
    rw [List.mem_singleton.mp member]
    exact trivial
  | _ => cases member

variable (codec matchHeaders) in
theorem Sound.call {s : BrokerServer} (sound : Sound script s) {conn : Nat} {rid cid : Bytes}
    {call : Call} (allowed : ∀ o ∈ BrokerServer.callOps call, Allowed script o)
    (asks : ∀ tag queueName autoAck, call = .basicConsume tag queueName autoAck →
      Subscribed script conn tag queueName autoAck) :
    Sound script (ServerOp.apply codec matchHeaders s (.request conn rid cid call)) := by
  refine sound.apply codec matchHeaders _ ?_ ?_
  · intro o member
    simp only [BrokerServer.hostOps] at member
    split at member
    · exact allowed o member
    · cases member
  · rintro conn' rid' cid' tag queueName autoAck same
    cases same
    exact asks tag queueName autoAck rfl

variable (codec matchHeaders) in
theorem Sound.request {s : BrokerServer} (sound : Sound script s) {conn : Nat} (visits : Visits)
    {message : ClientMessage} (sent : Sent script conn message) :
    Sound script (exec (ServerOp.apply codec matchHeaders) s
      (requestOps conn (toRequest visits message))) := by
  have one {op : HostOp} (allowed : Allowed script op) : ∀ o ∈ [op], Allowed script o := by
    intro o member
    rwa [List.mem_singleton.mp member]
  have plain {rid cid : Bytes} {call : Call}
      (allowed : ∀ o ∈ BrokerServer.callOps call, Allowed script o)
      (other : ∀ tag queueName autoAck, call ≠ .basicConsume tag queueName autoAck) :
      Sound script (ServerOp.apply codec matchHeaders s (.request conn rid cid call)) :=
    sound.call codec matchHeaders allowed fun tag queueName autoAck same =>
      absurd same (other tag queueName autoAck)
  cases message with
  | openChannel rid cid =>
    exact sound.quiet codec matchHeaders (.openChannel conn rid cid)
      fun _ _ _ _ same => by cases same
  | closeChannel rid cid =>
    exact sound.quiet codec matchHeaders (.closeChannel conn rid cid)
      fun _ _ _ _ same => by cases same
  | queueStatus rid cid queueName => exact sound
  | heartbeat rid => exact sound
  | basicAck rid cid queueName messageId =>
    exact plain (one trivial) fun _ _ _ same => by cases same
  | basicCancel rid cid tag queueName =>
    exact plain (fun o member => by cases member) fun _ _ _ same => by cases same
  | basicQuery rid cid => exact plain (one trivial) fun _ _ _ same => by cases same
  | declareExchange rid cid exchangeName type durable autoDelete =>
    exact plain (one trivial) fun _ _ _ same => by cases same
  | basicConsume rid cid tag queueName autoAck =>
    have typed := sent.resolve_left Bool.false_ne_true
    refine sound.call codec matchHeaders (fun o member => by cases member) ?_
    rintro tag' queueName' autoAck' same
    cases same
    exact ⟨rid, cid, typed⟩
  | basicPublish rid cid exchangeName properties body =>
    have typed := sent.resolve_left Bool.false_ne_true
    exact plain (one ⟨conn, rid, cid, typed⟩) fun _ _ _ same => by cases same
  | declareQueue rid cid queueName exclusive durable autoDelete =>
    have typed := sent.resolve_left Bool.false_ne_true
    have volatile : durable = false := by
      obtain ⟨line, -, read⟩ := typed
      exact typable_of_line read
    refine plain (one ⟨volatile, Or.inl ⟨rfl, ?_⟩⟩) fun _ _ _ same => by cases same
    exact ⟨conn, rid, cid, exclusive, durable, autoDelete, typed⟩
  | bind rid cid exchangeName queueName bindingKey bindingArgs =>
    have typed := sent.resolve_left Bool.false_ne_true
    refine plain (one (Or.inr ?_)) fun _ _ _ same => by cases same
    exact ⟨conn, rid, cid, bindingKey, bindingArgs, typed⟩

end Host

section Steps

variable {script : List Step} {codec : Codec}
  {matchHeaders : StrMap Bytes → StrMap Bytes → Bool} {s : System}

theorem getConnCtx_sent {t : TimedBroker} {conn : Nat}
    {handler : BrokerServer → Option Reply × BrokerServer}
    {keeps : (handler t.broker).2.connected = t.broker.connected} {c : Nat} {reply : Reply}
    (sent : Effect.send c reply ∈ (t.getConnCtx conn handler keeps).1) :
    c = conn ∧ (handler t.broker).1 = some reply := by
  unfold TimedBroker.getConnCtx at sent
  split at sent
  · rw [Option.mem_toList, Option.map_eq_some_iff] at sent
    obtain ⟨reply', answered, same⟩ := sent
    cases same
    exact ⟨rfl, answered⟩
  · cases List.mem_singleton.mp sent

theorem handle_query {b : BrokerServer} {ch : Channel} {rid rid' cid cid' body : Bytes}
    {call : Call} (answered : (b.handle codec matchHeaders ch rid cid call).1 =
      .query rid' cid' body) :
    rid' = rid ∧ ∃ visit, call = .basicQuery visit ∧ body = (b.host.basicQuery codec visit).1 := by
  cases call with
  | declareQueue queueName durable exclusive autoDelete args =>
    simp only [BrokerServer.handle] at answered
    split at answered <;> cases answered
  | declareQueueWithDlq queueName durable exclusive autoDelete args config =>
    simp only [BrokerServer.handle] at answered
    split at answered <;> cases answered
  | basicQuery visit =>
    cases answered
    exact ⟨rfl, visit, rfl, rfl⟩
  | _ => cases answered

theorem onMessage_query {t : TimedBroker} {conn : Nat} {now : Int} {request : Request} {c : Nat}
    {rid cid body : Bytes} (sent : Effect.send c (.response (.query rid cid body)) ∈
      (t.onMessage codec matchHeaders conn now request).1) :
    c = conn ∧ ∃ cid' visit, request = .call rid cid' (.basicQuery visit) ∧
      body = (t.broker.host.basicQuery codec visit).1 := by
  cases request with
  | heartbeat rid => cases List.mem_singleton.mp sent
  | queueStatus rid cid queueName =>
    obtain ⟨-, answered⟩ := @getConnCtx_sent t conn _ rfl c _ sent
    obtain ⟨ch, -, other⟩ := Option.map_eq_some_iff.mp answered
    cases other
  | openChannel rid cid =>
    obtain ⟨-, answered⟩ := getConnCtx_sent sent
    rw [openChannel_reply, Option.map_map] at answered
    obtain ⟨isOpen, -, other⟩ := Option.map_eq_some_iff.mp answered
    cases other
  | closeChannel rid cid =>
    obtain ⟨-, answered⟩ := getConnCtx_sent sent
    rw [closeChannel_reply, Option.map_map] at answered
    obtain ⟨isOpen, -, other⟩ := Option.map_eq_some_iff.mp answered
    cases other
  | call rid' cid' call =>
    obtain ⟨same, answered⟩ := getConnCtx_sent sent
    obtain ⟨response, handled, isQuery⟩ := Option.map_eq_some_iff.mp answered
    cases isQuery
    unfold BrokerServer.request at handled
    cases selected : t.broker.selectChannel conn cid' with
    | none =>
      rw [selected] at handled
      cases handled
    | some ch =>
      rw [selected] at handled
      obtain ⟨rfl, visit, rfl, text⟩ := handle_query (Option.some.inj handled)
      exact ⟨same, cid', visit, rfl, text⟩

theorem query_origin (t : Service) (names : List Bytes) :
    (t.query names).1 = [] ∨
      ∃ queueName letter, letter ∈ t.letters queueName ∧ letter.body = (t.query names).1 := by
  unfold Service.query
  split
  · exact Or.inl rfl
  · next queueName _ =>
    simp only [Service.take]
    cases held : t.letters queueName with
    | nil => exact Or.inl rfl
    | cons letter rest =>
      exact Or.inr ⟨queueName, letter, by rw [held]; exact List.mem_cons_self, rfl⟩

theorem execute_consumer {t : BrokerServer} {index : Nat} {d : Delivery}
    (delivered : (t.execute codec index).1 = some d) :
    d.consumer ∈ t.cmp.consumersOf d.qname := by
  unfold BrokerServer.execute at delivered
  split at delivered
  · cases delivered
  · next task _ =>
    unfold BrokerServer.consume at delivered
    split at delivered
    · cases delivered
    · split at delivered
      · cases delivered
      · next cp cmp chosen =>
        cases delivered
        have first : (t.cmp.choose task.qname).1 = some cp := congrArg Prod.fst chosen
        exact ConsumerManager.choose_mem first

theorem refAt_of_connectionOf {t : BrokerServer} {ref : ChannelRef} {conn : Nat}
    (found : connectionOf t ref = some conn) : ∃ cid, refAt t conn cid = some ref := by
  obtain ⟨e, located, rfl⟩ := Option.map_eq_some_iff.mp found
  have here := List.find?_some located
  obtain ⟨c, member, same⟩ := List.any_eq_true.mp here
  refine ⟨c.1, ?_⟩
  have stored := AList.mem_lookup_iff.mpr (List.mem_of_find?_eq_some located)
  have listed := AList.mem_lookup_iff.mpr member
  rw [refAt, BrokerServer.selectChannel, Option.mem_def.mp stored, Option.bind_some,
    Option.mem_def.mp listed, Option.map_some, of_decide_eq_true same]

theorem Sound.pulled {b : BrokerServer} (sound : Sound script b) {conn : Nat} {visits : Visits}
    {message : ClientMessage} (sent : Sent script conn message) {rid cid : Bytes}
    {visit : Visit QueueMessage}
    (isCall : toRequest visits message = .call rid cid (.basicQuery visit)) :
    Pulled script conn rid (b.host.basicQuery codec visit).1 := by
  have typed : Typed script conn (.basicQuery rid cid) := by
    cases message with
    | basicQuery rid cid =>
      cases isCall
      exact sent.resolve_left Bool.false_ne_true
    | _ => cases isCall
  refine ⟨⟨cid, typed⟩, ?_⟩
  rw [(basicQuery_service codec b.host visit).1]
  rcases query_origin b.host.service ((visit.order b.host.queueMessages).map Prod.fst) with
    nothing | ⟨queueName, letter, waits, text⟩
  · exact Or.inl nothing
  · exact Or.inr ⟨queueName, letter, sound.host.stored queueName letter waits, text⟩

theorem Honest.less (honest : Honest script s) {s' : System}
    (broker : Sound script s'.server.broker) (requests : ∀ e ∈ s'.up, Sent script e.1 e.2)
    (delivered : ∀ conn, s'.deliveriesTo conn ⊆ s.deliveriesTo conn) (down : s'.down ⊆ s.down) :
    Honest script s' where
  broker := broker
  requests := requests
  delivered conn d member := honest.delivered conn d (delivered conn member)
  pulled conn rid cid body member := honest.pulled conn rid cid body (down member)

theorem Honest.submit (honest : Honest script s) (conn : Nat) {message : Option ClientMessage}
    (sent : ∀ m ∈ message, Sent script conn m) : Honest script (s.submit conn message) := by
  unfold System.submit
  split
  · refine honest.less honest.broker ?_ (fun _ => List.Subset.refl _) (List.Subset.refl _)
    intro e member
    rcases List.mem_append.mp member with old | new
    · exact honest.requests e old
    · rw [Option.mem_toList, Option.map_eq_some_iff] at new
      obtain ⟨m, typed, rfl⟩ := new
      exact sent m typed
  · exact honest

theorem Honest.receive (honest : Honest script s) (conn : Nat) :
    Honest script (s.receive conn) := by
  unfold System.receive
  split
  · exact honest
  · next r down popped =>
    refine honest.less honest.broker honest.requests (fun other => ?_) (subset_of_pop popped)
    rw [deliveriesTo_pop popped]
    exact List.Subset.refl _
  · next d down popped =>
    refine honest.less honest.broker ?_ (fun other => ?_) (subset_of_pop popped)
    · intro e member
      rcases List.mem_append.mp member with old | new
      · exact honest.requests e old
      · rw [Option.mem_toList, Option.map_eq_some_iff] at new
        obtain ⟨m, sent, rfl⟩ := new
        left
        cases response : d.response with
        | consume cid tag body properties =>
          rw [response] at sent
          cases sent
          rfl
        | _ =>
          rw [response] at sent
          cases sent
    · rw [deliveriesTo_receive popped]
      exact List.Subset.refl _

theorem Honest.serve (honest : Honest script s) (conn : Nat) (now : Int) (visits : Visits) :
    Honest script (s.serve codec matchHeaders conn now visits) := by
  unfold System.serve
  split
  · exact honest
  next message up popped =>
    have sent : Sent script conn message := honest.requests _ (mem_of_pop popped)
    have broker := honest.broker.request codec matchHeaders visits sent
    rw [← onMessage_broker codec matchHeaders s.server conn now] at broker
    refine ⟨broker, fun e member => honest.requests e (subset_of_pop popped member), ?_, ?_⟩
    · intro other d member
      simp only [System.deliveriesTo, on_append, List.filterMap_append, filterMap_packets,
        List.append_nil] at member
      exact honest.delivered other d member
    · intro other rid cid body member
      rcases List.mem_append.mp member with old | new
      · exact honest.pulled other rid cid body old
      · obtain ⟨effect, shown, packed⟩ := List.mem_filterMap.mp new
        cases effect with
        | shutdown c => cases packed
        | send c reply =>
          cases packed
          obtain ⟨rfl, cid', visit, isCall, rfl⟩ := onMessage_query shown
          exact honest.broker.pulled sent isCall

theorem Honest.execute (honest : Honest script s) {index : Nat}
    (alive : System.Alive codec s (.execute index)) : Honest script (s.execute codec index) := by
  have broker : Sound script (s.server.broker.execute codec index).2 :=
    honest.broker.quiet codec (fun _ _ => false) (.execute index)
      fun _ _ _ _ same => by cases same
  unfold System.execute
  split
  · exact honest.less broker honest.requests (fun _ => List.Subset.refl _) (List.Subset.refl _)
  next d delivered =>
    split
    · next gone =>
      have present := alive.2 d delivered
      rw [gone] at present
      cases present
    next conn found =>
      have rightful : Rightful script conn d := by
        rcases execute_cases codec s.server.broker index with
          ⟨nobody, -⟩ | ⟨d', delivered', taken, response, -⟩
        · rw [nobody] at delivered
          cases delivered
        obtain rfl : d' = d := Option.some.inj (delivered'.symm.trans delivered)
        obtain ⟨cid, known⟩ := refAt_of_connectionOf found
        have consumer := execute_consumer delivered
        refine ⟨?_, (honest.broker.answerable.consumers d'.qname d'.consumer consumer).2 conn cid
          known, response⟩
        have first := (takeFront_service codec s.host d'.qname).1
        have waits : d'.message.letter ∈ s.host.service.letters d'.qname := by
          refine List.mem_of_mem_head? ?_
          rw [System.host, taken] at first
          exact first.symm
        exact honest.broker.host.stored d'.qname d'.message.letter waits
      refine ⟨broker, honest.requests, ?_, ?_⟩
      · intro other d' member
        rw [deliveriesTo_send] at member
        split at member
        · next same =>
          subst same
          rcases List.mem_append.mp member with old | new
          · exact honest.delivered other d' old
          · rwa [List.mem_singleton.mp new]
        · exact honest.delivered other d' member
      · intro other rid cid body member
        rcases List.mem_append.mp member with old | new
        · exact honest.pulled other rid cid body old
        · cases List.mem_singleton.mp new

theorem Honest.apply (honest : Honest script s) {step : Step} (listed : step ∈ script)
    (alive : System.Alive codec s step) :
    Honest script (System.apply codec matchHeaders s step) := by
  have same {s' : System} (broker : Sound script s'.server.broker) (up : s'.up ⊆ s.up)
      (delivered : ∀ conn, s'.deliveriesTo conn ⊆ s.deliveriesTo conn) (down : s'.down ⊆ s.down) :
      Honest script s' :=
    honest.less broker (fun e member => honest.requests e (up member)) delivered down
  have all {α : Type} {items : List α} : items ⊆ items := List.Subset.refl _
  cases step with
  | connect conn now =>
    refine same ?_ all (fun _ => all) all
    have moved := honest.broker.quiet codec matchHeaders (.newConnection conn)
      fun _ _ _ _ same => by cases same
    exact (newConnection_broker s.server conn now).symm ▸ moved
  | disconnect conn =>
    refine same ?_ (cut_sublist s.up).subset (fun other => ?_) (cut_sublist s.down).subset
    · exact honest.broker.quiet codec matchHeaders (.deleteConnection conn)
        fun _ _ _ _ same => by cases same
    · exact ((List.Sublist.refl _).append (((cut_sublist s.down).filterMap _).filterMap _)).subset
  | command conn line =>
    refine honest.submit conn ?_
    intro message sent
    exact Or.inr ⟨line, listed, sent⟩
  | beat conn =>
    refine honest.submit conn ?_
    intro message sent
    obtain rfl := Option.some.inj sent
    exact Or.inl rfl
  | serve conn now visits => exact honest.serve conn now visits
  | execute index => exact honest.execute alive
  | receive conn => exact honest.receive conn
  | queueRuntimeStats queueName =>
    refine same ?_ all (fun _ => all) all
    exact honest.broker.quiet codec matchHeaders (.queueRuntimeStats queueName)
      fun _ _ _ _ same => by cases same
  | compactQueue queueName =>
    refine same ?_ all (fun _ => all) all
    exact honest.broker.quiet codec matchHeaders (.compactQueue queueName)
      fun _ _ _ _ same => by cases same

theorem Fresh.honest (fresh : Fresh s) : Honest script s := by
  obtain ⟨⟨host, initial, isNew⟩, up, down, received⟩ := fresh
  obtain ⟨name, baseDir, exchanges, seq, fs, rfl⟩ := initial
  have isHost : s.server.broker.host = .new name baseDir exchanges seq fs :=
    congrArg BrokerServer.host isNew
  refine ⟨⟨⟨?_, ?_, ?_⟩, ?_⟩, ?_, ?_, ?_⟩
  · exact isHost ▸ WellFormed.new name baseDir exchanges seq fs
  · intro queueName letter member
    rw [isHost] at member
    cases member
  · intro exchangeName queueName _
    rw [isHost]
    rfl
  · exact Answerable.initial ⟨_, ⟨name, baseDir, exchanges, seq, fs, rfl⟩, isNew⟩
  · rw [up]
    exact fun e member => absurd member List.not_mem_nil
  · intro conn d member
    rw [System.deliveriesTo, down, received] at member
    cases member
  · intro conn rid cid body member
    rw [down] at member
    cases member

end Steps

/-- In every run from a fresh server that uses no channel after its end, what a client received
was written by a client for this queue and wanted by this client; so is what waits in the queues
and what pulls are answered. -/
theorem messages_were_typed (codec : Codec)
    (matchHeaders : StrMap Bytes → StrMap Bytes → Bool) {s : System} (fresh : Fresh s)
    (script : List Step)
    (alive : Along (System.apply codec matchHeaders) (System.Alive codec) s script) :
    let s' := exec (System.apply codec matchHeaders) s script
    (∀ conn d, (conn, d) ∈ s'.received → Rightful script conn d) ∧
      (∀ conn rid cid body, (conn, .reply (.response (.query rid cid body))) ∈ s'.down →
        Pulled script conn rid body) ∧
      ∀ queueName, ∀ letter ∈ s'.host.service.letters queueName,
        Written script queueName letter := by
  intro s'
  have listed : Along (System.apply codec matchHeaders) (fun _ step => step ∈ script) s script :=
    along_of_forall (fun step listed _ => listed) s
  have honest : Honest script s' :=
    Along.invariant (fun s step honest met => honest.apply met.1 met.2) fresh.honest
      (listed.and alive)
  refine ⟨?_, honest.pulled, honest.broker.host.stored⟩
  intro conn d arrived
  exact honest.delivered conn d (List.mem_append_left _ (mem_on.mpr arrived))

/-- What the client subscribed to is what it published. -/
theorem messages_were_typed_example :
    let s := exec (System.apply Wire.codec fun _ _ => false) started conversation
    s.received.map (fun e => (e.1, e.2.message.body)) = [(1, str "hello")] ∧
      ∀ conn d, (conn, d) ∈ s.received → Rightful conversation conn d :=
  ⟨by decide +kernel,
    (messages_were_typed Wire.codec (fun _ _ => false) started_fresh conversation
      (by decide +kernel)).1⟩

end HzMq.Client
