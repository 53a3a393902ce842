import HzMq.Delivery.DeadLetter
import HzMq.Delivery.Subscriptions
import HzMq.Topology.Deletion

/-!
# When the tasks are done

A publication leaves a consume task for each queue of its exchange, and nothing
else does: neither a subscription nor a dead letter. A queue with consumers is
emptied in the end as long as it has a task for every message it holds.
-/

namespace HzMq.Delivery

open VirtualHost QueueMessage Machine HzMq.Topology

def tasksFor (queueName : Bytes) (pool : List Task) : Nat :=
  pool.countP fun task => task.qname = queueName

/-- With no task left, a queue that has consumers holds nothing. -/
def Delivered (s : BrokerServer) : Prop :=
  s.pool = [] → ∀ queueName, s.cmp.consumersOf queueName ≠ [] → s.host.contents queueName = []

/-- A queue that has consumers has a task for each of its messages. -/
def Covered (s : BrokerServer) : Prop :=
  ∀ queueName, s.cmp.consumersOf queueName ≠ [] →
    (s.host.contents queueName).length ≤ tasksFor queueName s.pool

theorem Covered.delivered {s : BrokerServer} (covered : Covered s) : Delivered s := by
  intro idle queueName registered
  have bound := covered queueName registered
  rw [idle] at bound
  exact List.eq_nil_of_length_eq_zero (Nat.le_zero.mp bound)

section Scheduling

variable (matchHeaders : StrMap Bytes → StrMap Bytes → Bool)

def refusedTo (visit : Visit Binding) (h : VirtualHost) (queueName messageId : Bytes)
    (requeue : Bool) : List Bytes :=
  match letterOf h queueName messageId requeue with
  | none => []
  | some letter => letterQueues matchHeaders visit h letter.1

/-- A subscription is made to a queue with a task for each message it holds, and a dead
letter goes to the refusing queue itself, to a queue without consumers, or to one with more
tasks than messages. -/
def staysCovered (s : BrokerServer) : ServerOp → Bool
  | .request conn _ cid (.basicConsume _ queueName _) =>
    (s.selectChannel conn cid).isNone || !s.host.queueMgr.exists? queueName ||
      (s.host.contents queueName).length ≤ tasksFor queueName s.pool
  | .request conn _ cid (.basicNack visit queueName messageId requeue _) =>
    (s.selectChannel conn cid).isNone ||
      (refusedTo matchHeaders visit s.host queueName messageId requeue).all fun name =>
        name == queueName || (s.cmp.consumersOf name).isEmpty ||
          (s.host.contents name).length < tasksFor name s.pool
  | _ => true

end Scheduling

section Sizes

variable {codec : Codec} {matchHeaders : StrMap Bytes → StrMap Bytes → Bool} {h : VirtualHost}

theorem takeFront_length (h : VirtualHost) (queueName name : Bytes) :
    ((h.takeFront codec queueName).2.contents name).length =
      (h.contents name).length - if name = queueName then 1 else 0 := by
  cases held : h.contents queueName with
  | nil =>
    rw [takeFront_empty codec held]
    split
    · next same => simp [same, held]
    · rfl
  | cons m rest =>
    rw [(takeFront_cons codec held).2]
    by_cases same : name = queueName
    · simp [same, held]
    · simp [same]

theorem basicAck_length (h : VirtualHost) (queueName msgId name : Bytes) :
    ((h.basicAck codec queueName msgId).contents name).length ≤ (h.contents name).length := by
  cases found : target (h.contents queueName) msgId with
  | none => rw [basicAck_of_none codec found]
  | some pair =>
    rw [basicAck_of_target codec found]
    by_cases same : name = queueName
    · rw [same, Function.update_self]
      exact (rest_sublist_of_target found).length_le
    · rw [Function.update_of_ne same]

theorem withStore_length {queueName : Bytes} {store store' : QueueMessage}
    (found : h.queueMessages.lookup queueName = some store) (fs : FileStream.FileSystem)
    (fewer : store'.msgs.length ≤ store.msgs.length) (name : Bytes) :
    ((h.withStore queueName store' fs).contents name).length ≤ (h.contents name).length := by
  rw [contents_withStore]
  by_cases same : name = queueName
  · rw [same, Function.update_self, contents_of_lookup found]
    exact fewer
  · rw [Function.update_of_ne same]

def addsNothing : HostOp → Bool
  | .declareQueue _ _ _ _ _ => false
  | .declareQueueWithDlq _ _ _ _ _ _ => false
  | .basicPublish _ _ _ => false
  | .publishToExchange _ _ _ _ => false
  | .publishEx _ _ _ _ _ => false
  | .basicNack _ _ _ _ _ => false
  | _ => true

theorem contents_length_le (h : VirtualHost) {op : HostOp} (quiet : addsNothing op = true)
    (name : Bytes) :
    ((op.apply codec matchHeaders h).contents name).length ≤ (h.contents name).length := by
  cases op with
  | declareExchange exchange type durable autoDelete args =>
    simp only [HostOp.apply, VirtualHost.declareExchange]
    split <;> exact Nat.le_refl _
  | deleteExchange exchange => exact Nat.le_refl _
  | deleteQueue queue =>
    rw [HostOp.apply, contents_eq, contents_eq, lookup_deleteQueue]
    split
    · exact Nat.zero_le _
    · exact Nat.le_refl _
  | bind exchange queue key args =>
    rw [HostOp.apply, contents_eq, contents_eq, (bind_stores h exchange queue key args).1]
  | unbind exchange queue =>
    rw [HostOp.apply, contents_eq, contents_eq, (unbind_stores h exchange queue).2.1]
  | basicConsume queue => exact (takeFront_length h queue name).trans_le (Nat.sub_le _ _)
  | basicConsumeAndRemove queue =>
    exact (takeFront_length h queue name).trans_le (Nat.sub_le _ _)
  | basicAck queue id => exact basicAck_length h queue id name
  | basicQuery visit =>
    rw [HostOp.apply, basicQuery_eq]
    split
    · exact Nat.le_refl _
    · exact (takeFront_length h _ name).trans_le (Nat.sub_le _ _)
  | queueRuntimeStats queue =>
    simp only [HostOp.apply, VirtualHost.queueRuntimeStats]
    split
    · exact Nat.le_refl _
    · next store found =>
      refine withStore_length found _ ?_ name
      unfold getStats
      split <;> exact Nat.le_refl _
  | compactQueue queue =>
    simp only [HostOp.apply, VirtualHost.compactQueue]
    split
    · exact Nat.le_refl _
    · next store found =>
      have objects := congrArg List.length (compact_objects codec h.fs store).1
      rw [List.length_map, List.length_map] at objects
      rw [contents_withStore, contents_follow, Function.update_apply]
      split
      · next own => rw [own, contents_of_lookup found, objects]
      · exact Nat.le_refl _
  | _ => cases quiet

theorem addStore_contents {queueMgr : MsgQueueManager} {queueName name : Bytes} {durable : Bool}
    (stored : (h.queueMessages.lookup name).isSome) :
    (addStore codec { h with queueMgr } queueName durable).contents name = h.contents name := by
  unfold VirtualHost.addStore
  split
  · rfl
  · next absent =>
    have other : name ≠ queueName := fun same => absent (same ▸ stored)
    rw [contents_withStore, Function.update_of_ne other]
    rfl

theorem bind_contents (h : VirtualHost) (exchange queue key : Bytes) :
    (h.bind exchange queue key).2.contents = h.contents := by
  unfold VirtualHost.bind
  split <;> rfl

end Sizes

section Step

variable {codec : Codec} {matchHeaders : StrMap Bytes → StrMap Bytes → Bool} {s s' : BrokerServer}

/-- A step after which no more queues have consumers, and none has gained more messages than
tasks. -/
theorem Covered.of_le (covered : Covered s)
    (registered : ∀ name, s'.cmp.consumersOf name ≠ [] → s.cmp.consumersOf name ≠ [])
    (grown : ∀ name, s.cmp.consumersOf name ≠ [] →
      (s'.host.contents name).length + tasksFor name s.pool ≤
        (s.host.contents name).length + tasksFor name s'.pool) : Covered s' := by
  intro name now
  have before := covered name (registered name now)
  have step := grown name (registered name now)
  omega

theorem destroyChannel_keeps (ch : Channel) (s : BrokerServer) :
    (s.destroyChannel ch).pool = s.pool ∧
      ∀ name, (s.destroyChannel ch).cmp.consumersOf name ≠ [] → s.cmp.consumersOf name ≠ [] := by
  unfold BrokerServer.destroyChannel
  split
  · exact ⟨rfl, fun name => id⟩
  · refine ⟨rfl, ?_⟩
    intro name
    simp only [ConsumerManager.consumersOf_remove]
    split
    · exact fun some none => some (by rw [none, List.eraseP_nil])
    · exact id

theorem destroyChannels_keep (channels : List (Bytes × Channel)) (s : BrokerServer) :
    (channels.foldl (fun s e => s.destroyChannel e.2) s).pool = s.pool ∧
      ∀ name, (channels.foldl (fun s e => s.destroyChannel e.2) s).cmp.consumersOf name ≠ [] →
        s.cmp.consumersOf name ≠ [] := by
  induction channels generalizing s with
  | nil => exact ⟨rfl, fun name => id⟩
  | cons e channels ih =>
    obtain ⟨pool, registered⟩ := destroyChannel_keeps e.2 s
    obtain ⟨laterPool, later⟩ := ih (s.destroyChannel e.2)
    exact ⟨laterPool.trans pool, fun name => registered name ∘ later name⟩

theorem closeChannel_pool (conn : Nat) (rid cid : Bytes) :
    (s.closeChannel conn rid cid).2.pool = s.pool := by
  simp only [BrokerServer.closeChannel]
  split
  · rfl
  · simp only
    split
    · rfl
    · exact (destroyChannel_keeps _ s).1

theorem tasksFor_eraseIdx {pool : List Task} {index : Nat} {task : Task}
    (waiting : pool[index]? = some task) (name : Bytes) :
    tasksFor name pool =
      tasksFor name (pool.eraseIdx index) + if name = task.qname then 1 else 0 := by
  obtain ⟨inside, rfl⟩ := List.getElem?_eq_some_iff.mp waiting
  rw [tasksFor, ← (List.getElem_cons_eraseIdx_perm inside).countP_eq, List.countP_cons, tasksFor]
  simp only [decide_eq_true_eq, @eq_comm _ name]

theorem consume_pool (qname : Bytes) : (s.consume codec qname).2.pool = s.pool := by
  simp only [BrokerServer.consume]
  rcases s.host.basicConsume codec qname with ⟨_ | mp, host⟩
  · rfl
  · rcases s.cmp.choose qname with ⟨_ | cp, cmp⟩ <;> rfl

variable (codec) in
theorem consume_length (s : BrokerServer) (qname name : Bytes) :
    ((s.consume codec qname).2.host.contents name).length ≤
      (s.host.contents name).length - if name = qname then 1 else 0 := by
  rw [BrokerServer.consume_host codec fun _ _ => false, BrokerServer.consumeOps, exec_cons]
  have first : (((HostOp.basicConsume qname).apply codec (fun _ _ => false) s.host).contents
      name).length = (s.host.contents name).length - if name = qname then 1 else 0 :=
    takeFront_length s.host qname name
  rw [← first]
  split
  · split
    · exact basicAck_length _ _ _ name
    · exact Nat.le_refl _
  · exact Nat.le_refl _

theorem Covered.execute (covered : Covered s) (index : Nat) :
    Covered ((ServerOp.execute index).apply codec matchHeaders s) := by
  simp only [ServerOp.apply, BrokerServer.execute]
  cases waiting : s.pool[index]? with
  | none => exact covered
  | some task =>
    intro name registered
    simp only [consume_consumersOf] at registered
    have before := covered name registered
    have shorter := consume_length codec { s with pool := s.pool.eraseIdx index } task.qname name
    rw [tasksFor_eraseIdx waiting name] at before
    rw [consume_pool]
    simp only at shorter ⊢
    omega

/-- Every queue that takes a publication is one of those that get a task. -/
theorem count_log_le {log : List (Bytes × MessagePtr)} {visit : Visit Binding}
    (tasks : Visit Binding) {bindings : MsgQueueBindingMap} (taken : (log.map Prod.fst).Sublist
      ((visit.order bindings).map Prod.fst)) (ref : ChannelRef) (name : Bytes) :
    (log.filter fun e => e.1 = name).length ≤
      tasksFor name ((tasks.order bindings).map fun e => ⟨ref, e.1⟩) := by
  have same := ((visit.perm bindings).trans (tasks.perm bindings).symm).map Prod.fst
  have bound := (taken.countP_le (p := fun n => n = name)).trans_eq (same.countP_eq _)
  rw [← List.countP_eq_length_filter, tasksFor]
  simpa only [List.countP_map, Function.comp_def] using bound

theorem Covered.basicPublish (covered : Covered s) (ok : WellFormed s.host) (ch : ChannelRef)
    (visit tasks : Visit Binding) (exchangeName : Bytes) (properties : Option BasicProperties)
    (body : Bytes) :
    Covered (s.basicPublish codec matchHeaders ch visit tasks exchangeName properties body).2 := by
  unfold BrokerServer.basicPublish
  cases found : s.host.selectExchange exchangeName with
  | none => exact covered
  | some exchange =>
    obtain ⟨log, appends, -, names, answer⟩ :=
      publishToExchange_spec codec matchHeaders ok visit found properties body
    have frame : Frame s.host
        (s.host.publishToExchange codec matchHeaders visit exchangeName properties body).2.2 :=
      Frame.publishToExchange visit _ _ _ _
    refine covered.of_le (fun name => id) ?_
    intro name _
    have sublist := names ▸ accepted_sublist _ _ (visit.order (s.host.bindingsOf exchangeName))
    simp only [appends.contents_eq, frame.bindingsOf, List.length_append, List.length_map, answer]
    cases log with
    | nil => simp
    | cons e log =>
      have tasked := count_log_le tasks sublist ch name
      simp only [List.isEmpty_cons, Bool.not_false, if_true, tasksFor, List.countP_append]
      simp only [tasksFor] at tasked
      omega

/-- A dead letter makes no queue with consumers longer than the condition leaves room for. -/
theorem Covered.basicNack (covered : Covered s) (ok : WellFormed s.host) {ch : Channel}
    {conn : Nat} {rid cid : Bytes} (opened : s.selectChannel conn cid = some ch)
    {visit : Visit Binding} {queueName messageId : Bytes} {requeue : Bool} {reason : Bytes}
    (allowed : staysCovered matchHeaders s
      (.request conn rid cid (.basicNack visit queueName messageId requeue reason)) = true) :
    Covered { s with
      host := s.host.basicNack codec matchHeaders visit queueName messageId requeue reason } := by
  rcases basicNack_cases visit s.host queueName messageId requeue reason with
    unchanged | ⟨info, known, rfl, ⟨-, removal⟩ | ⟨t, configured, first, letter⟩⟩
  · rw [unchanged]
    exact covered
  · rw [removal]
    exact covered.of_le (fun name => id) fun name _ =>
      Nat.add_le_add_right (basicAck_length s.host queueName messageId name) _
  · obtain ⟨-, hit⟩ := nackRemoves_of_found known first
    obtain ⟨⟨m, rest⟩, found⟩ := Option.isSome_iff_exists.mp hit
    obtain ⟨log, -, names, result⟩ :=
      deadLetter_contents codec matchHeaders ok configured found t visit
    simp only [staysCovered, opened, Option.isNone_some, Bool.false_or, refusedTo, letterOf, known,
      configured, first, Bool.not_false, Bool.and_self, if_true, Option.map_some, ← names,
      List.all_eq_true, Bool.or_eq_true, beq_iff_eq, List.isEmpty_iff, decide_eq_true_eq]
      at allowed
    intro name registered
    have before := covered name registered
    have copies : (log.filter fun e => e.1 = name).length ≤ 1 := by
      have distinct : (letterQueues matchHeaders visit s.host info.dlqConfig).Nodup :=
        letterQueues_nodup info.dlqConfig visit
      exact KeyedFifo.log_filter_length_le_one (names ▸ distinct) name
    simp only [letter, result, List.length_append, List.length_map]
    by_cases here : name = queueName
    · have shorter : rest.length + 1 = (s.host.contents name).length := by
        obtain ⟨front, back, split, rfl, -, -⟩ := target_split found
        rw [here, split]
        simp [Nat.add_assoc]
      rw [here, Function.update_self, ← here]
      omega
    · rw [Function.update_of_ne here]
      by_cases gets : name ∈ log.map Prod.fst
      · rcases allowed name gets with (same | alone) | room
        · exact absurd same here
        · exact absurd alone registered
        · omega
      · rw [KeyedFifo.log_filter_absent gets, List.length_nil]
        exact before

/-- A declaration gives no messages to a queue that has consumers, since it is known. -/
theorem Covered.declared (covered : Covered s) (ok : WellFormed s.host) (lists : Subscribable s)
    (consumers : ∀ name, s'.cmp.consumersOf name = s.cmp.consumersOf name)
    (pool : s'.pool = s.pool)
    (kept : ∀ name, (s.host.queueMessages.lookup name).isSome →
      s'.host.contents name = s.host.contents name) : Covered s' := by
  refine covered.of_le (fun name => consumers name ▸ id) ?_
  intro name registered
  have listed : (s.cmp.queueConsumers.lookup name).isSome := by
    by_contra absent
    rw [Option.not_isSome_iff_eq_none] at absent
    exact registered (by simp [ConsumerManager.consumersOf, absent])
  rw [pool, kept name (by rw [← ok.stored, ← lists, listed])]

variable (codec matchHeaders) in
theorem Covered.quiet (covered : Covered s) (op : HostOp) (adds : addsNothing op = true) :
    Covered { s with host := op.apply codec matchHeaders s.host } :=
  covered.of_le (fun _ => id) fun name _ =>
    Nat.add_le_add_right (contents_length_le s.host adds name) _

/-- A request other than a publication, a declaration or a refusal does not make a queue
longer, and only a subscription can add a consumer. -/
theorem Covered.handle (covered : Covered s) (ok : WellFormed s.host) (lists : Subscribable s)
    {ch : Channel} {conn : Nat} {rid cid : Bytes} {call : Call}
    (opened : s.selectChannel conn cid = some ch)
    (allowed : staysCovered matchHeaders s (.request conn rid cid call) = true) :
    Covered (s.handle codec matchHeaders ch rid cid call).2.2 := by
  cases call with
  | declareExchange exchange type durable autoDelete args =>
    exact covered.quiet codec matchHeaders
      (.declareExchange exchange type durable autoDelete args) rfl
  | deleteExchange exchange => exact covered.quiet codec matchHeaders (.deleteExchange exchange) rfl
  | declareQueue queue durable exclusive autoDelete args =>
    refine covered.declared ok lists (handle_consumersOf ch rid cid rfl) ?_ ?_
    · simp [BrokerServer.handle, declareQueue_eq]
    · intro name stored
      simp only [BrokerServer.handle, declareQueue_eq, Bool.not_true, Bool.false_eq_true, if_false]
      rw [bind_contents, addStore_contents stored]
  | declareQueueWithDlq queue durable exclusive autoDelete args config =>
    refine covered.declared ok lists (handle_consumersOf ch rid cid rfl) ?_ ?_
    · simp [BrokerServer.handle, declareQueueWithDlq_eq]
    · intro name stored
      simp only [BrokerServer.handle, declareQueueWithDlq_eq, Bool.not_true, Bool.false_eq_true,
        if_false]
      rw [addStore_contents stored]
  | deleteQueue queue =>
    have shorter : Covered { s with
        host := (HostOp.deleteQueue queue).apply codec matchHeaders s.host } :=
      covered.quiet codec matchHeaders (.deleteQueue queue) rfl
    refine shorter.of_le (fun name => ?_) fun name _ => Nat.le_refl _
    simp only [BrokerServer.handle, ConsumerManager.consumersOf_destroyQueueConsumer]
    split
    · exact fun some => absurd rfl some
    · exact id
  | bind exchange queue key =>
    exact covered.quiet codec matchHeaders (.bind exchange queue key ∅) rfl
  | unbind exchange queue => exact covered.quiet codec matchHeaders (.unbind exchange queue) rfl
  | basicPublish visit tasks exchange properties body =>
    exact covered.basicPublish ok ch.ref visit tasks exchange properties body
  | basicAck queue id => exact covered.quiet codec matchHeaders (.basicAck queue id) rfl
  | basicNack visit queue id requeue reason => exact covered.basicNack ok opened allowed
  | basicConsume tag queue autoAck =>
    simp only [BrokerServer.handle, BrokerServer.basicConsume]
    cases exists' : s.host.queueMgr.exists? queue with
    | false => exact covered
    | true =>
      simp only [staysCovered, opened, exists', Option.isNone_some, Bool.not_true, Bool.or_false,
        Bool.false_or, decide_eq_true_eq] at allowed
      intro name registered
      by_cases here : name = queue
      · exact here ▸ allowed
      · simp only [Bool.not_true, Bool.false_eq_true, if_false,
          s.cmp.consumersOf_create (by rw [lists, exists']), here, false_and] at registered
        exact covered name registered
  | basicCancel tag queue =>
    refine covered.of_le (fun name => ?_) fun name _ => Nat.le_refl _
    simp only [BrokerServer.handle, ConsumerManager.consumersOf_remove]
    split
    · exact fun some none => some (by rw [none, List.eraseP_nil])
    · exact id
  | basicQuery visit => exact covered.quiet codec matchHeaders (.basicQuery visit) rfl

theorem Covered.apply (covered : Covered s) (ok : WellFormed s.host) (lists : Subscribable s)
    {op : ServerOp} (allowed : staysCovered matchHeaders s op = true) :
    Covered (op.apply codec matchHeaders s) := by
  cases op with
  | newConnection conn =>
    simp only [ServerOp.apply, BrokerServer.newConnection]
    split <;> exact covered
  | deleteConnection conn =>
    obtain ⟨pool, registered⟩ :=
      destroyChannels_keep ((s.connections.lookup conn).getD ∅).pairs s
    refine covered.of_le registered ?_
    intro name _
    rw [ServerOp.apply, BrokerServer.deleteConnection_host]
    exact Nat.add_le_add_left (Nat.le_of_eq (congrArg _ pool.symm)) _
  | openChannel conn rid cid =>
    simp only [ServerOp.apply, BrokerServer.openChannel]
    split
    · exact covered
    · split <;> exact covered
  | closeChannel conn rid cid =>
    have host : ((ServerOp.closeChannel conn rid cid).apply codec matchHeaders s).host = s.host :=
      BrokerServer.apply_host codec matchHeaders s (.closeChannel conn rid cid)
    refine covered.of_le (fun name => ?_) ?_
    · rw [ServerOp.apply, closeChannel_cmp]
      exact (destroyChannels_keep _ s).2 name
    · intro name _
      rw [host, ServerOp.apply, closeChannel_pool]
  | request conn rid cid call =>
    simp only [ServerOp.apply, BrokerServer.request]
    cases opened : s.selectChannel conn cid with
    | none => exact covered
    | some ch => exact covered.handle ok lists opened allowed
  | execute index => exact covered.execute index
  | queueRuntimeStats queue => exact covered.quiet codec matchHeaders (.queueRuntimeStats queue) rfl
  | compactQueue queue => exact covered.quiet codec matchHeaders (.compactQueue queue) rfl

structure Attended (s : BrokerServer) : Prop where
  covered : Covered s
  wellFormed : WellFormed s.host
  lists : Subscribable s

variable (codec) in
theorem Attended.apply (attended : Attended s) {op : ServerOp}
    (allowed : staysCovered matchHeaders s op = true) :
    Attended (op.apply codec matchHeaders s) where
  covered := attended.covered.apply attended.wellFormed attended.lists allowed
  wellFormed := by
    rw [BrokerServer.apply_host]
    exact WellFormed.exec attended.wellFormed _
  lists := attended.lists.apply op

theorem attended_initial (fresh : s.Initial) : Attended s := by
  obtain ⟨host, ⟨name, baseDir, exchanges, seq, fs, rfl⟩, rfl⟩ := fresh
  exact ⟨fun name registered => absurd rfl registered, WellFormed.new name baseDir exchanges seq fs,
    fun name => rfl⟩

end Step

/-- In every run in which each subscription and each dead letter meets enough waiting tasks,
a queue with consumers holds nothing whenever no task is left. -/
theorem quiescent_delivered (codec : Codec)
    (matchHeaders : StrMap Bytes → StrMap Bytes → Bool) {s : BrokerServer} (fresh : s.Initial)
    {ops : List ServerOp}
    (allowed : Along (ServerOp.apply codec matchHeaders)
      (fun s op => staysCovered matchHeaders s op = true) s ops) :
    Delivered (exec (ServerOp.apply codec matchHeaders) s ops) := by
  have keep (s : BrokerServer) (op : ServerOp) (attended : Attended s)
      (met : staysCovered matchHeaders s op = true) :
      Attended (op.apply codec matchHeaders s) := attended.apply codec met
  exact (Along.invariant keep (attended_initial fresh) allowed).covered.delivered

def awaitedRun : List ServerOp :=
  [.newConnection 0, .openChannel 0 [] (str "c"),
    .request 0 [] (str "c") (.declareQueue (str "q") true false false ∅),
    .request 0 [] (str "c") (.basicConsume (str "t") (str "q") true),
    .request 0 [] (str "c") (.basicPublish .stored .stored [] (some { routingKey := str "q" })
      (str "x")),
    .request 0 [] (str "c") (.basicPublish .stored .stored [] (some { routingKey := str "q" })
      (str "y"))]

/-- Two messages wait until the two tasks have run. -/
theorem quiescent_delivered_example :
    ((exec (ServerOp.apply Wire.codec fun _ _ => false) (.new .blank) awaitedRun).host.contents
        (str "q")).map MessagePtr.body = [str "x", str "y"] ∧
      Delivered (exec (ServerOp.apply Wire.codec fun _ _ => false) (.new .blank)
        (awaitedRun ++ [.execute 0, .execute 0])) :=
  ⟨by decide +kernel, quiescent_delivered Wire.codec (fun _ _ => false) ⟨_, blank_initial, rfl⟩
    (by decide +kernel)⟩

/-- A broker started on a directory in which a message was left. -/
def restartedBroker : BrokerServer :=
  .new (.new (str "TestHost") (str "d") ∅ 0 filledHost.fs)

def backlogRun : List ServerOp :=
  [.newConnection 0, .openChannel 0 [] (str "c"),
    .request 0 [] (str "c") (.declareQueue (str "q") true false false ∅),
    .request 0 [] (str "c") (.basicConsume (str "t") (str "q") true)]

def letterRun : List ServerOp :=
  [.newConnection 0, .openChannel 0 [] (str "c"),
    .request 0 [] (str "c") (.declareExchange (str "dlx") .fanout false false ∅),
    .request 0 [] (str "c") (.declareQueue (str "dl") false false false ∅),
    .request 0 [] (str "c") (.bind (str "dlx") (str "dl") []),
    .request 0 [] (str "c") (.declareQueueWithDlq (str "q") false false false ∅
      (some ⟨str "dlx", [], 3⟩)),
    .request 0 [] (str "c") (.declareExchange (str "ex") .fanout false false ∅),
    .request 0 [] (str "c") (.bind (str "ex") (str "q") []),
    .request 0 [] (str "c") (.basicConsume (str "t") (str "dl") true),
    .request 0 [] (str "c") (.basicPublish .stored .stored (str "ex") (some { id := str "m" })
      (str "x")),
    .request 0 [] (str "c") (.basicNack .stored (str "q") (str "m") false (str "failed")),
    .execute 0]

/-- In both runs a message stays in a queue with a consumer, and no task is left. -/
theorem message_stranded :
    restartedBroker.Initial ∧
      ¬Delivered (exec (ServerOp.apply Wire.codec fun _ _ => false) restartedBroker backlogRun) ∧
      ¬Delivered (exec (ServerOp.apply Wire.codec fun _ _ => false) (.new .blank) letterRun) := by
  refine ⟨⟨_, ⟨_, _, _, _, _, rfl⟩, rfl⟩, ?_, ?_⟩
  · intro delivered
    exact absurd (delivered (by decide +kernel) (str "q") (by decide +kernel)) (by decide +kernel)
  · intro delivered
    exact absurd (delivered (by decide +kernel) (str "dl") (by decide +kernel)) (by decide +kernel)

end HzMq.Delivery
