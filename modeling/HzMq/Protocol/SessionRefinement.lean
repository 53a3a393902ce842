import HzMq.Common.Wire
import HzMq.Protocol.Channels

/-!
# Every connection runs its session

Seen from one connection, the server is the session of that connection: the events
of other connections, the consume tasks and the management requests are silent.
-/

namespace HzMq.Protocol

open Machine

section Steps

variable {s : TimedBroker} (conn : Nat)

theorem getConnCtx_outlines (s : TimedBroker) (c : Nat) (event : ConnectionEvent)
    (handler : BrokerServer → Option Reply × BrokerServer)
    (keeps : (handler s.broker).2.connected = s.broker.connected) :
    outlinesOn conn event (s.getConnCtx c handler keeps).1 =
      if c = conn then
        if s.broker.connected c then ((handler s.broker).1.map (outline event)).toList
        else [.shutdown]
      else [] := by
  unfold TimedBroker.getConnCtx outlinesOn
  by_cases same : c = conn
  · rw [if_pos same]
    split
    · cases (handler s.broker).1 with
      | none => rfl
      | some reply => simp [same]
    · simp [same]
  · rw [if_neg same]
    split
    · cases (handler s.broker).1 <;> simp [same]
    · simp [same]

theorem getConnCtx_broker (s : TimedBroker) (c : Nat)
    (handler : BrokerServer → Option Reply × BrokerServer)
    (keeps : (handler s.broker).2.connected = s.broker.connected) :
    (s.getConnCtx c handler keeps).2.broker =
      if s.broker.connected c then (handler s.broker).2 else s.broker := by
  unfold TimedBroker.getConnCtx
  split <;> rfl

theorem newConnection_broker (s : TimedBroker) (c : Nat) (now : Int) :
    (s.newConnection c now).broker = s.broker.newConnection c := by
  unfold TimedBroker.newConnection
  split
  · rfl
  · next known =>
    rw [Bool.not_eq_false, BrokerServer.connected] at known
    rw [BrokerServer.newConnection, if_pos known]

theorem refreshConnection_broker (s : TimedBroker) (c : Nat) (now : Int) :
    (s.refreshConnection c now).broker = s.broker := by
  unfold TimedBroker.refreshConnection
  split <;> rfl

theorem session_cases (s : TimedBroker) :
    (s.lastActive.lookup conn = none ∧ openOn s.broker conn = none ∧
        s.broker.connected conn = false ∧ sessionOf conn s = none) ∨
      ∃ last isOpen, s.lastActive.lookup conn = some last ∧ openOn s.broker conn = some isOpen ∧
        s.broker.connected conn = true ∧ sessionOf conn s = some ⟨last, isOpen⟩ := by
  have agree := s.agree conn
  have known := openOn_isSome s.broker conn
  cases last : s.lastActive.lookup conn with
  | none =>
    rw [last, Option.isSome_none] at agree
    rw [← agree, Option.isSome_eq_false_iff, Option.isNone_iff_eq_none] at known
    exact Or.inl ⟨rfl, known, agree.symm, by rw [sessionOf, last]; rfl⟩
  | some time =>
    rw [last, Option.isSome_some] at agree
    rw [← agree] at known
    obtain ⟨isOpen, found⟩ := Option.isSome_iff_exists.mp known
    exact Or.inr ⟨time, isOpen, rfl, found, agree.symm, by rw [sessionOf, last, found]; rfl⟩

theorem sessionOf_eq {last : Option Int} {isOpen : Option (Bytes → Bool)}
    (first : s.lastActive.lookup conn = last) (second : openOn s.broker conn = isOpen) :
    sessionOf conn s = last.bind fun last => isOpen.map fun isOpen => ⟨last, isOpen⟩ := by
  rw [sessionOf, first, second]

variable (codec : Codec) (matchHeaders : StrMap Bytes → StrMap Bytes → Bool)

/-- A message that goes through `GET_CONN_CTX`, as the handler of the broker does it. -/
def brokerHandler : Request → BrokerServer → Option Reply × BrokerServer
  | .openChannel rid cid, b =>
    ((b.openChannel conn rid cid).1.map .response, (b.openChannel conn rid cid).2)
  | .closeChannel rid cid, b =>
    ((b.closeChannel conn rid cid).1.map .response, (b.closeChannel conn rid cid).2)
  | .call rid cid call, b =>
    ((b.request codec matchHeaders conn rid cid call).1.map .response,
      (b.request codec matchHeaders conn rid cid call).2)
  | .queueStatus rid cid queueName, b =>
    ((b.selectChannel conn cid).map fun _ =>
      .queueStatus rid cid (b.host.queueMgr.getQueueStatus queueName), b)
  | .heartbeat _, b => (none, b)

theorem onMessage_outlines (s : TimedBroker) (c : Nat) (now : Int) {request : Request}
    (plain : ∀ rid, request ≠ .heartbeat rid) :
    outlinesOn conn (.message c request) (s.onMessage codec matchHeaders c now request).1 =
        (if c = conn then
          if s.broker.connected c then
            ((brokerHandler c codec matchHeaders request s.broker).1.map
              (outline (.message c request))).toList
          else [.shutdown]
        else []) ∧
      (s.onMessage codec matchHeaders c now request).2.broker =
        if s.broker.connected c then (brokerHandler c codec matchHeaders request s.broker).2
        else s.broker := by
  cases request with
  | heartbeat rid => exact absurd rfl (plain rid)
  | openChannel rid cid =>
    exact ⟨getConnCtx_outlines conn s c _ _ _, getConnCtx_broker s c _ _⟩
  | closeChannel rid cid =>
    exact ⟨getConnCtx_outlines conn s c _ _ _, getConnCtx_broker s c _ _⟩
  | call rid cid call =>
    exact ⟨getConnCtx_outlines conn s c _ _ _, getConnCtx_broker s c _ _⟩
  | queueStatus rid cid queueName =>
    exact ⟨getConnCtx_outlines conn s c _ _ rfl, getConnCtx_broker s c _ rfl⟩

theorem brokerHandler_other {c : Nat} (other : c ≠ conn) (request : Request) (b : BrokerServer) :
    openOn (brokerHandler c codec matchHeaders request b).2 conn = openOn b conn := by
  cases request with
  | openChannel rid cid => exact (openOn_openChannel b c rid cid conn).trans (if_neg other.symm)
  | closeChannel rid cid => exact (openOn_closeChannel b c rid cid conn).trans (if_neg other.symm)
  | call rid cid call => exact congrFun (openOn_request b codec matchHeaders c rid cid call) conn
  | queueStatus rid cid queueName => rfl
  | heartbeat rid => rfl

/-- On its own connection it is answered, and changes the channels, as the session says. -/
theorem brokerHandler_own {b : BrokerServer} (own : OwnIds b) (last : Int)
    {isOpen : Bytes → Bool} (known : openOn b conn = some isOpen) (now : Int) {request : Request}
    (plain : ∀ rid, request ≠ .heartbeat rid) :
    let result := Link.act ⟨last, isOpen⟩ now (sessionEvent request)
    ((brokerHandler conn codec matchHeaders request b).1.map
        (outline (.message conn request))).toList = result.1 ∧
      (openOn (brokerHandler conn codec matchHeaders request b).2 conn).map
        (fun isOpen => (⟨last, isOpen⟩ : Link)) = result.2 := by
  cases request with
  | heartbeat rid => exact absurd rfl (plain rid)
  | openChannel rid cid =>
    simp only [brokerHandler, openChannel_reply, openOn_openChannel, known]
    exact ⟨rfl, rfl⟩
  | closeChannel rid cid =>
    simp only [brokerHandler, closeChannel_reply, openOn_closeChannel, known]
    exact ⟨rfl, rfl⟩
  | call rid cid call =>
    simp only [brokerHandler, openOn_request, known, Option.map_map]
    exact ⟨request_reply b codec matchHeaders own known rid cid call, rfl⟩
  | queueStatus rid cid queueName =>
    simp only [brokerHandler, known, sessionEvent, Link.act, Option.map_some, and_true]
    cases selected : b.selectChannel conn cid with
    | none => simp [openOn_unselected b known selected]
    | some ch =>
      obtain ⟨isOpen', known', open'⟩ := openOn_selected b selected
      obtain rfl := Option.some.inj (known.symm.trans known')
      simp [open', outline]

theorem OwnIds.brokerHandler {b : BrokerServer} (own : OwnIds b) (request : Request) :
    OwnIds (brokerHandler conn codec matchHeaders request b).2 := by
  cases request with
  | openChannel rid cid => exact own.apply codec matchHeaders (.openChannel conn rid cid)
  | closeChannel rid cid => exact own.apply codec matchHeaders (.closeChannel conn rid cid)
  | call rid cid call => exact own.apply codec matchHeaders (.request conn rid cid call)
  | queueStatus rid cid queueName => exact own
  | heartbeat rid => exact own

theorem OwnIds.handle (own : OwnIds s.broker) (e : SystemEvent) :
    OwnIds (e.handle codec matchHeaders s).2.broker := by
  cases e with
  | execute index => exact own.apply codec matchHeaders (.execute index)
  | queueRuntimeStats queueName => exact own
  | compactQueue queueName => exact own
  | network e =>
    obtain ⟨now, event⟩ := e
    cases event with
    | connect c =>
      refine Eq.mpr (congrArg OwnIds (newConnection_broker s c now)) ?_
      exact own.apply codec matchHeaders (.newConnection c)
    | disconnect c => exact own.apply codec matchHeaders (.deleteConnection c)
    | checkTimeout => exact own
    | message c request =>
      by_cases plain : ∀ rid, request ≠ .heartbeat rid
      · have moved := (onMessage_outlines 0 codec matchHeaders s c now plain).2
        refine Eq.mpr (congrArg OwnIds moved) ?_
        split
        · exact own.brokerHandler c codec matchHeaders request
        · exact own
      · obtain ⟨rid, rfl⟩ := not_forall_not.mp plain
        exact Eq.mpr (congrArg OwnIds (refreshConnection_broker s c now)) own

/-- The events of other connections leave a session alone. -/
theorem other_event {c : Nat} (other : c ≠ conn) (now : Int) (request : Request) :
    outlinesOn conn (.message c request) (s.onMessage codec matchHeaders c now request).1 = [] ∧
      openOn (s.onMessage codec matchHeaders c now request).2.broker conn =
        openOn s.broker conn := by
  by_cases plain : ∀ rid, request ≠ .heartbeat rid
  · obtain ⟨shown, moved⟩ := onMessage_outlines conn codec matchHeaders s c now plain
    rw [shown, moved, if_neg other]
    split
    · exact ⟨rfl, brokerHandler_other conn codec matchHeaders other request s.broker⟩
    · exact ⟨rfl, rfl⟩
  · obtain ⟨rid, rfl⟩ := not_forall_not.mp plain
    refine ⟨?_, congrFun (openOn_of_connections ?_) conn⟩
    · simp [TimedBroker.onMessage, TimedBroker.onHeartbeat, outlinesOn, other]
    · exact congrArg BrokerServer.connections (refreshConnection_broker s c now)

theorem own_message (own : OwnIds s.broker) (now : Int) (request : Request) :
    outlinesOn conn (.message conn request)
        (s.onMessage codec matchHeaders conn now request).1 =
        (Session.act (sessionOf conn s) (now, sessionEvent request)).1 ∧
      sessionOf conn (s.onMessage codec matchHeaders conn now request).2 =
        (Session.act (sessionOf conn s) (now, sessionEvent request)).2 := by
  have times : (s.onMessage codec matchHeaders conn now request).2.lastActive.lookup conn =
      Liveness.touched Liveness.isHeartbeat conn (s.lastActive.lookup conn)
        ⟨now, .message conn request⟩ :=
    Liveness.lookup_step codec matchHeaders conn s ⟨now, .message conn request⟩
  by_cases plain : ∀ rid, request ≠ .heartbeat rid
  · obtain ⟨shown, moved⟩ := onMessage_outlines conn codec matchHeaders s conn now plain
    have quiet : Liveness.isHeartbeat request = false := by
      cases request with
      | heartbeat rid => exact absurd rfl (plain rid)
      | _ => rfl
    simp only [Liveness.touched, quiet, Bool.false_eq_true, and_false, if_false] at times
    rw [if_pos rfl] at shown
    rcases session_cases conn s with ⟨last, closed, nobody, session⟩ |
      ⟨last, isOpen, active, known, somebody, session⟩
    · rw [nobody, if_neg Bool.false_ne_true] at shown moved
      rw [sessionOf_eq conn times (moved ▸ closed), last, session, shown]
      cases request with
      | heartbeat rid => exact absurd rfl (plain rid)
      | _ => exact ⟨rfl, rfl⟩
    · rw [somebody, if_pos rfl] at shown moved
      obtain ⟨reply, channels⟩ :=
        brokerHandler_own conn codec matchHeaders own last known now plain
      rw [sessionOf_eq conn times (congrArg (openOn · conn) moved), active, session, shown]
      exact ⟨reply, channels⟩
  · obtain ⟨rid, rfl⟩ := not_forall_not.mp plain
    simp only [Liveness.touched, Liveness.isHeartbeat, and_true, true_and] at times
    have kept : openOn (s.onMessage codec matchHeaders conn now (.heartbeat rid)).2.broker conn =
        openOn s.broker conn := congrFun (openOn_of_connections
          (congrArg BrokerServer.connections (refreshConnection_broker s conn now))) conn
    rw [sessionOf_eq conn times kept]
    refine ⟨?_, ?_⟩
    · rcases session_cases conn s with ⟨-, -, -, session⟩ | ⟨last, isOpen, -, -, -, session⟩
      · simp [session, TimedBroker.onMessage, TimedBroker.onHeartbeat, outlinesOn, Session.act,
          sessionEvent, outline]
      · simp [session, TimedBroker.onMessage, TimedBroker.onHeartbeat, outlinesOn, Session.act,
          Link.act, sessionEvent, outline]
    · rcases session_cases conn s with ⟨last, closed, -, session⟩ |
        ⟨last, isOpen, active, known, -, session⟩
      · rw [session, last, closed]
        rfl
      · rw [session, active, known]
        rfl

/-- A connection that is shut down is told so once. -/
theorem shutdown_outlines {conns : List Nat} (distinct : conns.Nodup) (event : ConnectionEvent) :
    outlinesOn conn event (conns.map .shutdown) = if conn ∈ conns then [.shutdown] else [] := by
  induction conns with
  | nil => rfl
  | cons c conns ih =>
    obtain ⟨fresh, rest⟩ := List.nodup_cons.mp distinct
    have later := ih rest
    simp only [outlinesOn, List.map_cons, List.filterMap_cons] at later ⊢
    by_cases same : c = conn
    · subst same
      rw [if_pos rfl, later, if_neg fresh, if_pos List.mem_cons_self]
    · have other : conn ∈ c :: conns ↔ conn ∈ conns := by simp [Ne.symm same]
      rw [if_neg same, later]
      simp only [other]

theorem checkTimeout_outlines (s : TimedBroker) (now : Int) :
    outlinesOn conn .checkTimeout ((s.checkTimeout now connectionTimeout).map .shutdown) =
      (Session.act (sessionOf conn s) (now, .checkTimeout)).1 := by
  have distinct : (s.checkTimeout now connectionTimeout).Nodup :=
    (List.filter_sublist.map Sigma.fst).nodup s.lastActive.keys_nodup
  have struck := Liveness.mem_checkTimeout s conn now connectionTimeout
  rw [shutdown_outlines conn distinct]
  rcases session_cases conn s with ⟨last, -, -, session⟩ | ⟨last, isOpen, active, -, -, session⟩
  · rw [session, if_neg]
    · rfl
    · rw [struck, last]
      rintro ⟨_, absurd', -⟩
      cases absurd'
  · rw [session]
    have exact' : conn ∈ s.checkTimeout now connectionTimeout ↔
        TimedBroker.expired now last connectionTimeout = true := by
      rw [struck, active]
      simp [TimedBroker.expired]
    simp only [Session.act, Link.act, exact']

theorem connect_session (s : TimedBroker) (now : Int) :
    sessionOf conn (s.newConnection conn now) =
      (Session.act (sessionOf conn s) (now, .connect)).2 := by
  have channels : openOn (s.newConnection conn now).broker conn =
      some ((openOn s.broker conn).getD fun _ => false) := by
    rw [newConnection_broker, openOn_newConnection, if_pos rfl]
  rw [sessionOf_eq conn (Liveness.lookup_newConnection s conn conn now) channels]
  rcases session_cases conn s with ⟨last, closed, -, session⟩ |
    ⟨last, isOpen, active, known, -, session⟩
  · rw [session, last, closed]
    simp [Session.act]
  · rw [session, active, known]
    simp [Session.act, Link.act]

theorem disconnect_session (s : TimedBroker) (c : Nat) :
    sessionOf conn (s.deleteConnection c) = if c = conn then none else sessionOf conn s := by
  by_cases same : c = conn
  · subst same
    rw [if_pos rfl, sessionOf, TimedBroker.deleteConnection, AList.lookup_erase]
    rfl
  · rw [if_neg same, sessionOf, sessionOf, TimedBroker.deleteConnection,
      AList.lookup_erase_ne (Ne.symm same), openOn_deleteConnection, if_neg (Ne.symm same)]

theorem other_session {c : Nat} (other : c ≠ conn) (now : Int) (request : Request) :
    sessionOf conn (s.onMessage codec matchHeaders c now request).2 = sessionOf conn s := by
  have times : (s.onMessage codec matchHeaders c now request).2.lastActive.lookup conn =
      Liveness.touched Liveness.isHeartbeat conn (s.lastActive.lookup conn)
        ⟨now, .message c request⟩ :=
    Liveness.lookup_step codec matchHeaders conn s ⟨now, .message c request⟩
  simp only [Liveness.touched, other, false_and, if_false] at times
  exact sessionOf_eq conn times (other_event conn codec matchHeaders other now request).2

/-- What one connection is sent, seen from that connection alone. -/
theorem session_abstraction :
    Abstraction (fun s : TimedBroker => OwnIds s.broker) (actOn codec matchHeaders conn)
      Session.act (sessionOf conn) (fun _ => ownEvent? conn) where
  keeps s e own := by
    have kept := own.handle codec matchHeaders e
    cases e <;> exact kept
  silent s e own read := by
    cases e with
    | execute index =>
      refine ⟨rfl, sessionOf_eq conn rfl ?_⟩
      exact congrFun (openOn_of_connections (connections_execute codec s.broker index)) conn
    | queueRuntimeStats queueName => exact ⟨rfl, rfl⟩
    | compactQueue queueName => exact ⟨rfl, rfl⟩
    | network e =>
      obtain ⟨now, event⟩ := e
      cases event with
      | checkTimeout => cases read
      | connect c =>
        have other : c ≠ conn := by
          rintro rfl
          simp [ownEvent?, ownEvent] at read
        refine ⟨rfl, sessionOf_eq conn ?_ ?_⟩
        · exact (Liveness.lookup_newConnection s c conn now).trans (if_neg fun h => other h.1)
        · refine (congrArg (openOn · conn) (newConnection_broker s c now)).trans ?_
          exact (openOn_newConnection s.broker c conn).trans (if_neg other.symm)
      | disconnect c =>
        have other : c ≠ conn := by
          rintro rfl
          simp [ownEvent?, ownEvent] at read
        exact ⟨rfl, (disconnect_session conn s c).trans (if_neg other)⟩
      | message c request =>
        have other : c ≠ conn := by
          rintro rfl
          simp [ownEvent?, ownEvent] at read
        exact ⟨(other_event conn codec matchHeaders other now request).1,
          other_session conn codec matchHeaders other now request⟩
  shows s e e' own read := by
    cases e with
    | execute index => cases read
    | queueRuntimeStats queueName => cases read
    | compactQueue queueName => cases read
    | network e =>
      obtain ⟨now, event⟩ := e
      cases event with
      | checkTimeout =>
        cases read
        refine ⟨checkTimeout_outlines conn s now, ?_⟩
        rcases session_cases conn s with ⟨-, -, -, session⟩ | ⟨last, isOpen, -, -, -, session⟩
        · exact session.trans (by rw [session]; rfl)
        · exact session.trans (by rw [session]; rfl)
      | connect c =>
        obtain ⟨rfl, same⟩ := Option.ite_none_right_eq_some.mp read
        cases same
        refine ⟨?_, connect_session c s now⟩
        rcases session_cases c s with ⟨-, -, -, session⟩ | ⟨last, isOpen, -, -, -, session⟩ <;>
          rw [session] <;> rfl
      | disconnect c =>
        obtain ⟨rfl, same⟩ := Option.ite_none_right_eq_some.mp read
        cases same
        refine ⟨?_, (disconnect_session c s c).trans ((if_pos rfl).trans ?_)⟩ <;>
          rcases session_cases c s with ⟨-, -, -, session⟩ | ⟨last, isOpen, -, -, -, session⟩ <;>
          rw [session] <;> rfl
      | message c request =>
        obtain ⟨rfl, same⟩ := Option.ite_none_right_eq_some.mp read
        cases same
        exact own_message c codec matchHeaders own now request

end Steps

/-- In every run of the server, from a start with no connections, what a connection is sent
is in outline what its own session sends, and at the end it is where its session is: for every
interleaving with other connections, consume tasks and management requests. -/
theorem connection_refines_session (codec : Codec)
    (matchHeaders : StrMap Bytes → StrMap Bytes → Bool) {broker : BrokerServer}
    (nobody : ∀ conn, broker.connected conn = false) (events : List SystemEvent) (conn : Nat) :
    let start := TimedBroker.new broker nobody
    let own := events.filterMap (ownEvent? conn)
    answers (actOn codec matchHeaders conn) start events = answers Session.act none own ∧
      sessionOf conn (final (actOn codec matchHeaders conn) start events) =
        final Session.act none own := by
  have unselected : OwnIds broker := by
    intro c cid ch selected
    have known := Option.isSome_eq_false_iff.mp (nobody c)
    rw [BrokerServer.selectChannel, Option.isNone_iff_eq_none.mp known] at selected
    cases selected
  have run := (session_abstraction conn codec matchHeaders).run
    (s := TimedBroker.new broker nobody) unselected events
  rwa [readings_const] at run

/-- Two connections open a channel of the same name; the first is not told of the second. -/
theorem connection_refines_session_example :
    answers (actOn Wire.codec (fun _ _ => false) 1) (.new (.new .blank) fun _ => rfl)
        [.network ⟨0, .connect 1⟩, .network ⟨1, .connect 2⟩,
          .network ⟨2, .message 1 (.openChannel (str "a") (str "c"))⟩,
          .network ⟨3, .message 2 (.openChannel (str "b") (str "c"))⟩,
          .network ⟨4, .disconnect 2⟩, .network ⟨40 * 10 ^ 9, .checkTimeout⟩] =
      [.channel (str "a") (str "c") true, .shutdown] :=
  (connection_refines_session Wire.codec (fun _ _ => false) _ _ 1).1.trans (by decide)

end HzMq.Protocol
