import HzMq.Common.Wire
import HzMq.Server.HostEffects
import HzMq.Server.VirtualHost.Bindings

/-!
# The tables of a broker agree

The names of queues are kept in three tables and appear in a fourth one, the
bindings. In every reachable broker the three know the same names, and the
fourth mentions only names that are known. What was deleted is therefore not
routed to before it was declared and then bound again.
-/

namespace HzMq.Topology

open VirtualHost Machine

/-- The three tables of queues have the same keys, and a binding is stored under names
that exist and that it carries itself. -/
structure Consistent (s : BrokerServer) : Prop where
  stored : ∀ queueName,
    (s.host.queueMessages.lookup queueName).isSome = s.host.queueMgr.exists? queueName
  subscribed : ∀ queueName,
    (s.cmp.queueConsumers.lookup queueName).isSome = s.host.queueMgr.exists? queueName
  exchange : ∀ exchangeName, (s.host.exchangeBindings.lookup exchangeName).isSome →
    (s.host.selectExchange exchangeName).isSome
  binding : ∀ exchangeName queueName binding,
    s.host.bindingAt exchangeName queueName = some binding →
      (s.host.selectExchange exchangeName).isSome ∧ s.host.queueMgr.exists? queueName = true ∧
        binding.exchangeName = exchangeName ∧ binding.queueName = queueName

def declaresQueue (queueName : Bytes) : HostOp → Bool
  | .declareQueue name _ _ _ _ => name = queueName
  | .declareQueueWithDlq name _ _ _ _ _ => name = queueName
  | _ => false

def deletesQueue (queueName : Bytes) : HostOp → Bool
  | .deleteQueue name => name = queueName
  | _ => false

section Agreement

variable {codec : Codec} {matchHeaders : StrMap Bytes → StrMap Bytes → Bool}

variable (codec matchHeaders) in
theorem exists?_apply (h : VirtualHost) (op : HostOp) (name : Bytes) :
    (op.apply codec matchHeaders h).queueMgr.exists? name =
      (declaresQueue name op || !deletesQueue name op && h.queueMgr.exists? name) := by
  by_cases messages : Frame.onMessages op = true
  · have frame : Frame h (op.apply codec matchHeaders h) := Frame.apply h messages
    rw [frame.queueMgr]
    cases op <;> first | rfl | cases messages
  cases op with
  | declareExchange exchange type durable autoDelete args =>
    rw [HostOp.apply, (h.declareExchange_tables exchange type durable autoDelete args).2.1]
    rfl
  | deleteExchange exchange => rfl
  | declareQueue queue durable exclusive autoDelete args =>
    rw [HostOp.apply, declareQueue_eq, (bind_mgr _ _ _ _ _).1, (addStore_tables h codec _ _ _).2.2,
      MsgQueueManager.declareQueue, MsgQueueManager.exists?_declare]
    simp [declaresQueue, deletesQueue, eq_comm]
  | declareQueueWithDlq queue durable exclusive autoDelete args config =>
    rw [HostOp.apply, declareQueueWithDlq_eq, (addStore_tables h codec _ _ _).2.2,
      MsgQueueManager.declareQueueWithDlq, MsgQueueManager.exists?_declare]
    simp [declaresQueue, deletesQueue, eq_comm]
  | deleteQueue queue =>
    rw [HostOp.apply, VirtualHost.deleteQueue, MsgQueueManager.exists?_deleteQueue]
    simp [declaresQueue, deletesQueue, eq_comm]
  | bind exchange queue key args =>
    rw [HostOp.apply, (bind_mgr _ _ _ _ _).1]
    rfl
  | unbind exchange queue =>
    rw [HostOp.apply, (unbind_stores h exchange queue).1]
    rfl
  | _ => exact absurd rfl messages

open BrokerServer

variable (codec matchHeaders) in
theorem handle_queues (s : BrokerServer) (ch : Channel) (rid cid : Bytes) (call : Call)
    (name : Bytes) :
    (s.handle codec matchHeaders ch rid cid call).2.2.host.queueMgr.exists? name =
      ((callOps call).any (declaresQueue name) ||
        !(callOps call).any (deletesQueue name) && s.host.queueMgr.exists? name) := by
  rw [handle_host]
  cases call <;>
    simp only [callOps, exec_cons, exec_nil, exists?_apply, List.any_cons, List.any_nil,
      Bool.or_false, Bool.not_false, Bool.true_and, Bool.false_or]

variable (codec matchHeaders) in
theorem handle_lists (s : BrokerServer) (ch : Channel) (rid cid : Bytes) (call : Call)
    (name : Bytes) :
    ((s.handle codec matchHeaders ch rid cid call).2.2.cmp.queueConsumers.lookup name).isSome =
      ((callOps call).any (declaresQueue name) ||
        !(callOps call).any (deletesQueue name) &&
          (s.cmp.queueConsumers.lookup name).isSome) := by
  cases call with
  | declareQueue queue durable exclusive autoDelete args =>
    simp [handle, declareQueue_eq, ConsumerManager.isSome_initQueueConsumer, callOps,
      declaresQueue, deletesQueue, eq_comm]
  | declareQueueWithDlq queue durable exclusive autoDelete args config =>
    simp [handle, declareQueueWithDlq_eq, ConsumerManager.isSome_initQueueConsumer, callOps,
      declaresQueue, deletesQueue, eq_comm]
  | deleteQueue queue =>
    simp [handle, ConsumerManager.isSome_destroyQueueConsumer, callOps, declaresQueue,
      deletesQueue, eq_comm]
  | basicPublish visit tasks exchange properties body =>
    simp only [handle, BrokerServer.basicPublish]
    cases s.host.selectExchange exchange <;> rfl
  | basicConsume tag queue autoAck =>
    simp only [handle, BrokerServer.basicConsume]
    split
    · rfl
    · exact ConsumerManager.isSome_create _ _ _ _ _ name
  | basicCancel tag queue => exact ConsumerManager.isSome_remove _ _ _ name
  | _ => rfl

def Subscribable (s : BrokerServer) : Prop :=
  ∀ queueName, (s.cmp.queueConsumers.lookup queueName).isSome = s.host.queueMgr.exists? queueName

namespace Subscribable

variable {s : BrokerServer}

theorem destroyChannel (ok : Subscribable s) (ch : Channel) :
    Subscribable (s.destroyChannel ch) := by
  unfold BrokerServer.destroyChannel
  split
  · exact ok
  · exact fun name => (ConsumerManager.isSome_remove _ _ _ name).trans (ok name)

theorem destroyChannels (ok : Subscribable s) (channels : List (Bytes × Channel)) :
    Subscribable (channels.foldl (fun s e => s.destroyChannel e.2) s) := by
  induction channels generalizing s with
  | nil => exact ok
  | cons e channels ih => exact ih (ok.destroyChannel e.2)

theorem handle (ok : Subscribable s) (ch : Channel) (rid cid : Bytes) (call : Call) :
    Subscribable (s.handle codec matchHeaders ch rid cid call).2.2 := fun name => by
  rw [handle_lists, handle_queues, ok name]

theorem consume (ok : Subscribable s) (qname : Bytes) :
    Subscribable (s.consume codec qname).2 := fun name => by
  have lists : ((s.consume codec qname).2.cmp.queueConsumers.lookup name).isSome =
      (s.cmp.queueConsumers.lookup name).isSome := by
    have chosen := s.cmp.isSome_choose qname name
    unfold BrokerServer.consume
    rcases s.host.basicConsume codec qname with ⟨_ | mp, host⟩
    · rfl
    · generalize s.cmp.choose qname = picked at chosen
      rcases picked with ⟨_ | cp, cmp⟩ <;> exact chosen
  have queues : (s.consume codec qname).2.host.queueMgr = s.host.queueMgr := by
    rw [consume_host codec fun _ _ => false]
    exact Frame.queueMgr (Frame.exec fun op member => onMessages_of_consumeOps codec member)
  rw [lists, queues, ok name]

theorem apply (ok : Subscribable s) (op : ServerOp) :
    Subscribable (op.apply codec matchHeaders s) := by
  cases op with
  | newConnection conn =>
    simp only [ServerOp.apply, newConnection]
    split <;> exact ok
  | deleteConnection conn => exact ok.destroyChannels _
  | openChannel conn rid cid =>
    simp only [ServerOp.apply, openChannel]
    split
    · exact ok
    · split <;> exact ok
  | closeChannel conn rid cid =>
    simp only [ServerOp.apply, closeChannel]
    split
    · exact ok
    · simp only
      split
      · exact ok
      · next ch _ => exact ok.destroyChannel ch
  | request conn rid cid call =>
    simp only [ServerOp.apply, request]
    cases s.selectChannel conn cid with
    | none => exact ok
    | some ch => exact handle ok ch rid cid call
  | execute index =>
    simp only [ServerOp.apply, execute]
    cases s.pool[index]? with
    | none => exact ok
    | some task =>
      have taken : Subscribable { s with pool := s.pool.eraseIdx index } := ok
      exact taken.consume task.qname
  | queueRuntimeStats queueName =>
    intro name
    rw [ServerOp.apply, (Frame.queueRuntimeStats s.host queueName).queueMgr]
    exact ok name
  | compactQueue queueName =>
    intro name
    rw [ServerOp.apply, (Frame.compactQueue s.host queueName).queueMgr]
    exact ok name

end Subscribable

variable (codec matchHeaders) in
theorem consistent_of_reachable {s : BrokerServer} (reached : s.Reachable codec matchHeaders) :
    Consistent s := by
  have ok := Reachable.wellFormed (BrokerServer.Reachable.host reached)
  have named := Reachable.named (BrokerServer.Reachable.host reached)
  have subscribable : Subscribable s := by
    refine Machine.Reachable.invariant ?_ (fun s op ok => ok.apply op) reached
    rintro s ⟨host, ⟨name, baseDir, exchanges, seq, fs, rfl⟩, rfl⟩ queueName
    rfl
  refine ⟨fun name => (ok.stored name).symm, subscribable, named.exchange, ?_⟩
  intro exchangeName queueName binding stored
  obtain ⟨sameExchange, sameQueue⟩ := named.names exchangeName queueName binding stored
  refine ⟨named.exchange exchangeName ?_, ?_, sameExchange, sameQueue⟩
  · cases found : s.host.exchangeBindings.lookup exchangeName with
    | none => simp [bindingAt, bindingsOf, found] at stored
    | some bindingMap => rfl
  · rw [ok.stored]
    exact ok.bound exchangeName queueName (Option.isSome_of_eq_some stored)

end Agreement

/-! ### Names that were deleted -/

def declaresExchange (exchangeName : Bytes) : HostOp → Bool
  | .declareExchange name _ _ _ _ => name = exchangeName
  | _ => false

/-- The operations that bind one of the given pairs of names. A declaration binds the
queue to the default exchange. -/
def bindsAt (pairs : Bytes → Bytes → Bool) : HostOp → Bool
  | .bind exchange queue _ _ => pairs exchange queue
  | .declareQueue queue _ _ _ _ => pairs [] queue
  | _ => false

def Unbound (pairs : Bytes → Bytes → Bool) (h : VirtualHost) : Prop :=
  ∀ exchange queue, pairs exchange queue = true → h.bindingAt exchange queue = none

def bindsQueue (queueName : Bytes) : HostOp → Bool := bindsAt fun _ queue => queue = queueName

def bindsExchange (exchangeName : Bytes) : HostOp → Bool :=
  bindsAt fun exchange _ => exchange = exchangeName

def asks (kind : HostOp → Bool) : ServerOp → Bool
  | .request _ _ _ call => (BrokerServer.callOps call).any kind
  | _ => false

def MentionsQueue (h : VirtualHost) (queueName : Bytes) : Prop :=
  ∃ (visit : Visit Binding) (exchange : Bytes), ∃ entry ∈ visit.order (h.bindingsOf exchange),
    entry.1 = queueName ∨ entry.2.queueName = queueName

def MentionsExchange (h : VirtualHost) (exchangeName : Bytes) : Prop :=
  ∃ (visit : Visit Binding) (exchange : Bytes), ∃ entry ∈ visit.order (h.bindingsOf exchange),
    exchange = exchangeName ∨ entry.2.exchangeName = exchangeName

section Deleted

variable {codec : Codec} {matchHeaders : StrMap Bytes → StrMap Bytes → Bool}

theorem selectExchange_apply {h : VirtualHost} {op : HostOp} {exchangeName : Bytes}
    (absent : h.selectExchange exchangeName = none)
    (other : declaresExchange exchangeName op = false) :
    (op.apply codec matchHeaders h).selectExchange exchangeName = none := by
  by_cases messages : Frame.onMessages op = true
  · have frame : Frame h (op.apply codec matchHeaders h) := Frame.apply h messages
    rw [frame.selectExchange, absent]
  cases op with
  | declareExchange exchange type durable autoDelete args =>
    have declared := (h.declareExchange_tables exchange type durable autoDelete args).2.2
      exchangeName
    have differs : exchangeName ≠ exchange := fun same => by
      simp [declaresExchange, same] at other
    rw [HostOp.apply]
    simpa [absent, differs] using declared
  | deleteExchange exchange =>
    by_cases same : exchangeName = exchange
    · subst same
      simp [HostOp.apply, VirtualHost.deleteExchange, selectExchange]
    · simpa [HostOp.apply, VirtualHost.deleteExchange, selectExchange, AList.lookup_erase_ne same]
        using absent
  | declareQueue queue durable exclusive autoDelete args =>
    rw [HostOp.apply, declareQueue_eq, VirtualHost.bind]
    have exchanges := (addStore_tables h codec
      (h.queueMgr.declareQueue queue durable exclusive autoDelete args).2 queue durable).2.1
    split <;> simpa only [selectExchange, exchanges] using absent
  | declareQueueWithDlq queue durable exclusive autoDelete args config =>
    rw [HostOp.apply, declareQueueWithDlq_eq, selectExchange, (addStore_tables h codec _ _ _).2.1]
    exact absent
  | deleteQueue queue => exact absent
  | bind exchange queue key args =>
    simp only [HostOp.apply, VirtualHost.bind]
    split <;> exact absent
  | unbind exchange queue =>
    simp only [HostOp.apply, VirtualHost.unbind]
    split <;> exact absent
  | _ => exact absurd rfl messages

/-- Pairs of names that are not bound stay so until one of them is. -/
theorem unbound_apply {h : VirtualHost} {op : HostOp} {pairs : Bytes → Bytes → Bool}
    (unbound : Unbound pairs h) (other : bindsAt pairs op = false) :
    Unbound pairs (op.apply codec matchHeaders h) := by
  intro exchange queue pair
  have before := unbound exchange queue pair
  by_cases messages : Frame.onMessages op = true
  · have frame : Frame h (op.apply codec matchHeaders h) := Frame.apply h messages
    rw [bindingAt, frame.bindingsOf]
    exact before
  cases op with
  | declareExchange name type durable autoDelete args =>
    rw [HostOp.apply, bindingAt, bindingsOf,
      (h.declareExchange_tables name type durable autoDelete args).1]
    exact before
  | deleteExchange name => simp [HostOp.apply, bindingAt_deleteExchange, before]
  | declareQueue name durable exclusive autoDelete args =>
    rw [HostOp.apply, bindingAt_declareQueue, if_neg, before]
    rintro ⟨-, rfl, rfl⟩
    simp [bindsAt, pair] at other
  | declareQueueWithDlq name durable exclusive autoDelete args config =>
    rw [HostOp.apply, bindingAt_declareQueueWithDlq, before]
  | deleteQueue name => simp [HostOp.apply, bindingAt_deleteQueue, before]
  | bind exchange' name key args =>
    rw [HostOp.apply, bindingAt_bind, if_neg, before]
    rintro ⟨-, -, rfl, rfl⟩
    simp [bindsAt, pair] at other
  | unbind exchange' name => simp [HostOp.apply, bindingAt_unbind, before]
  | _ => exact absurd rfl messages

variable (codec matchHeaders) in
/-- What the operations of no step but a request of one kind can undo is kept by every
step that does not ask for that kind. -/
theorem host_invariant (Inv : VirtualHost → Prop) {kind : HostOp → Bool}
    (onTables : ∀ op, Frame.onMessages op = true → kind op = false)
    (keep : ∀ h op, Inv h → kind op = false → Inv (HostOp.apply codec matchHeaders h op))
    {s : BrokerServer} {op : ServerOp} (before : Inv s.host) (other : ¬asks kind op = true) :
    Inv (op.apply codec matchHeaders s).host := by
  have quiet : ∀ o ∈ s.hostOps codec op, kind o = false := by
    intro o member
    cases op with
    | request conn rid cid call =>
      simp only [BrokerServer.hostOps] at member
      split at member
      · simpa using fun asked => other (List.any_eq_true.mpr ⟨o, member, asked⟩)
      · cases member
    | execute index =>
      simp only [BrokerServer.hostOps] at member
      cases found : s.pool[index]? with
      | none => simp [found] at member
      | some task =>
        simp only [found, Option.map_some, Option.getD_some] at member
        exact onTables o (BrokerServer.onMessages_of_consumeOps codec member)
    | queueRuntimeStats queueName =>
      rw [List.mem_singleton.mp member]
      exact onTables _ rfl
    | compactQueue queueName =>
      rw [List.mem_singleton.mp member]
      exact onTables _ rfl
    | _ => cases member
  rw [BrokerServer.apply_host]
  exact Along.invariant keep before (along_of_forall (fun o member h => quiet o member) s.host)

theorem not_mentionsQueue {h : VirtualHost} (named : Named h) {queueName : Bytes}
    (unbound : Unbound (fun _ queue => queue = queueName) h) : ¬MentionsQueue h queueName := by
  rintro ⟨visit, exchange, ⟨queue, binding⟩, member, mentioned⟩
  have stored : h.bindingAt exchange queue = some binding := visit.mem_order.mp member
  have own := (named.names exchange queue binding stored).2
  have here : queue = queueName := mentioned.elim id fun carried => own.symm.trans carried
  rw [unbound exchange queue (by simpa using here)] at stored
  cases stored

theorem not_mentionsExchange {h : VirtualHost} (named : Named h) {exchangeName : Bytes}
    (unbound : Unbound (fun exchange _ => exchange = exchangeName) h) :
    ¬ MentionsExchange h exchangeName := by
  rintro ⟨visit, exchange, ⟨queue, binding⟩, member, mentioned⟩
  have stored : h.bindingAt exchange queue = some binding := visit.mem_order.mp member
  have own := (named.names exchange queue binding stored).1
  have here : exchange = exchangeName := mentioned.elim id fun carried => own.symm.trans carried
  rw [unbound exchange queue (by simpa using here)] at stored
  cases stored

/-- What does not exist is not bound. -/
theorem Consistent.unbound {s : BrokerServer} (consistent : Consistent s)
    {pairs : Bytes → Bytes → Bool}
    (missing : ∀ exchange queue, pairs exchange queue = true →
      s.host.selectExchange exchange = none ∨ s.host.queueMgr.exists? queue = false) :
    Unbound pairs s.host := by
  intro exchange queue pair
  by_contra stored
  obtain ⟨binding, stored⟩ := Option.ne_none_iff_exists'.mp stored
  obtain ⟨existing, known, -⟩ := consistent.binding exchange queue binding stored
  rcases missing exchange queue pair with absent | unknown
  · rw [absent] at existing
    cases existing
  · rw [unknown] at known
    cases known

variable (codec matchHeaders) in
theorem queue_unmentioned {s : BrokerServer} (reached : s.Reachable codec matchHeaders)
    {queueName : Bytes} (gone : s.host.queueMgr.exists? queueName = false) {ops : List ServerOp}
    (never : ¬Follows (fun op => asks (declaresQueue queueName) op = true)
      (fun op => asks (bindsQueue queueName) op = true) ops) :
    ¬MentionsQueue (exec (ServerOp.apply codec matchHeaders) s ops).host queueName := by
  refine not_mentionsQueue (Reachable.named (BrokerServer.Reachable.host (reached.exec ops))) ?_
  refine exec_until (BrokerServer.Reachable codec matchHeaders)
    (fun s => s.host.queueMgr.exists? queueName = false)
    (fun s => Unbound (fun _ queue => queue = queueName) s.host)
    (fun s op reached => reached.next op) (fun s op _ unknown other => ?_)
    (fun s op _ unbound other => ?_) (fun s reached unknown => ?_) reached gone never
  · refine host_invariant codec matchHeaders (fun h => h.queueMgr.exists? queueName = false) ?_
      (fun h o unknown quiet => ?_) unknown other
    · rintro (_ | _) <;> simp [Frame.onMessages, declaresQueue]
    · rw [exists?_apply, quiet, unknown, Bool.and_false, Bool.or_false]
  · refine host_invariant codec matchHeaders (Unbound _) ?_ (fun h o unbound quiet => ?_)
      unbound other
    · rintro (_ | _) <;> simp [Frame.onMessages, bindsQueue, bindsAt]
    · exact unbound_apply unbound quiet
  · have consistent := consistent_of_reachable codec matchHeaders reached
    refine consistent.unbound fun _ queue same => Or.inr ?_
    rw [of_decide_eq_true same]
    exact unknown

variable (codec matchHeaders) in
theorem exchange_unmentioned {s : BrokerServer} (reached : s.Reachable codec matchHeaders)
    {exchangeName : Bytes} (gone : s.host.selectExchange exchangeName = none)
    {ops : List ServerOp}
    (never : ¬Follows (fun op => asks (declaresExchange exchangeName) op = true)
      (fun op => asks (bindsExchange exchangeName) op = true) ops) :
    ¬MentionsExchange (exec (ServerOp.apply codec matchHeaders) s ops).host exchangeName := by
  refine not_mentionsExchange
    (Reachable.named (BrokerServer.Reachable.host (reached.exec ops))) ?_
  refine exec_until (BrokerServer.Reachable codec matchHeaders)
    (fun s => s.host.selectExchange exchangeName = none)
    (fun s => Unbound (fun exchange _ => exchange = exchangeName) s.host)
    (fun s op reached => reached.next op) (fun s op _ absent other => ?_)
    (fun s op _ unbound other => ?_) (fun s reached absent => ?_) reached gone never
  · refine host_invariant codec matchHeaders (fun h => h.selectExchange exchangeName = none) ?_
      (fun h o absent quiet => ?_) absent other
    · rintro (_ | _) <;> simp [Frame.onMessages, declaresExchange]
    · exact selectExchange_apply absent quiet
  · refine host_invariant codec matchHeaders (Unbound _) ?_ (fun h o unbound quiet => ?_)
      unbound other
    · rintro (_ | _) <;> simp [Frame.onMessages, bindsExchange, bindsAt]
    · exact unbound_apply unbound quiet
  · have consistent := consistent_of_reachable codec matchHeaders reached
    refine consistent.unbound fun exchange _ same => Or.inl ?_
    rw [of_decide_eq_true same]
    exact absent

end Deleted

/-- In every reachable broker the tables agree; and from a deletion on, whatever follows,
nothing is routed to the queue or by way of the exchange before it was declared and then
bound again. -/
theorem tables_consistent (codec : Codec) (matchHeaders : StrMap Bytes → StrMap Bytes → Bool)
    {s : BrokerServer} (reached : s.Reachable codec matchHeaders) :
    Consistent s ∧
      (∀ conn rid cid queueName ops, (s.selectChannel conn cid).isSome →
        ¬Follows (fun op => asks (declaresQueue queueName) op = true)
          (fun op => asks (bindsQueue queueName) op = true) ops →
        ¬MentionsQueue (exec (ServerOp.apply codec matchHeaders) s
          (.request conn rid cid (.deleteQueue queueName) :: ops)).host queueName) ∧
      ∀ conn rid cid exchangeName ops, (s.selectChannel conn cid).isSome →
        ¬Follows (fun op => asks (declaresExchange exchangeName) op = true)
          (fun op => asks (bindsExchange exchangeName) op = true) ops →
        ¬MentionsExchange (exec (ServerOp.apply codec matchHeaders) s
          (.request conn rid cid (.deleteExchange exchangeName) :: ops)).host exchangeName := by
  refine ⟨consistent_of_reachable codec matchHeaders reached, ?_, ?_⟩
  · intro conn rid cid queueName ops opened never
    obtain ⟨ch, found⟩ := Option.isSome_iff_exists.mp opened
    rw [exec_cons]
    refine queue_unmentioned codec matchHeaders (reached.next _) ?_ never
    simp [BrokerServer.apply_host, BrokerServer.hostOps, found, BrokerServer.callOps,
      exists?_apply, declaresQueue, deletesQueue]
  · intro conn rid cid exchangeName ops opened never
    obtain ⟨ch, found⟩ := Option.isSome_iff_exists.mp opened
    rw [exec_cons]
    refine exchange_unmentioned codec matchHeaders (reached.next _) ?_ never
    simp [BrokerServer.apply_host, BrokerServer.hostOps, found, BrokerServer.callOps,
      HostOp.apply, VirtualHost.deleteExchange, selectExchange]

def servedBroker : BrokerServer :=
  exec (ServerOp.apply Wire.codec fun _ _ => false) (.new .blank)
    [.newConnection 0, .openChannel 0 [] (str "c"),
      .request 0 [] (str "c") (.declareQueue (str "q") true false false ∅)]

theorem servedBroker_reachable : servedBroker.Reachable Wire.codec fun _ _ => false :=
  Reachable.exec (.start ⟨_, blank_initial, rfl⟩) _

/-- Binding alone, without a declaration, does not bring a deleted queue back. -/
theorem tables_consistent_example :
    Consistent servedBroker ∧
      ¬MentionsQueue (exec (ServerOp.apply Wire.codec fun _ _ => false) servedBroker
        [.request 0 [] (str "c") (.deleteQueue (str "q")),
          .request 0 [] (str "c") (.bind [] (str "q") (str "q"))]).host (str "q") ∧
      ¬MentionsExchange (exec (ServerOp.apply Wire.codec fun _ _ => false) servedBroker
        [.request 0 [] (str "c") (.deleteExchange []),
          .request 0 [] (str "c") (.bind [] (str "q") (str "q"))]).host [] := by
  obtain ⟨consistent, queue, exchange⟩ :=
    tables_consistent Wire.codec (fun _ _ => false) servedBroker_reachable
  refine ⟨consistent, queue 0 [] (str "c") (str "q") _ (by decide) ?_,
    exchange 0 [] (str "c") [] _ (by decide) ?_⟩
  all_goals
    rintro ⟨before, op, after, cut, declares, -⟩
    have member : op ∈ before ++ op :: after := List.mem_append_right _ List.mem_cons_self
    rw [← cut, List.mem_singleton] at member
    subst member
    exact absurd declares (by decide)

end HzMq.Topology
