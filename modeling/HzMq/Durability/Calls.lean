import HzMq.Delivery.Identifiers
import HzMq.Persistence.Crash

/-!
# What a host has its stores do

An operation of the host on messages is a list of calls to the stores of its queues, in
the order in which the source makes them. But for the counter behind the ids there is
nothing else to it.
-/

namespace HzMq

open FileStream VirtualHost QueueMessage Persistence Delivery Machine

structure StoreCall where
  queueName : Bytes
  op : StoreOp
  deriving DecidableEq

namespace StoreCall

variable (codec : Codec)

def followed (h : VirtualHost) (store : QueueMessage) : StoreOp → VirtualHost
  | .compact => h.follow (store.follow h.fs)
  | _ => h

def apply (h : VirtualHost) (c : StoreCall) : VirtualHost :=
  match h.queueMessages.lookup c.queueName with
  | none => h
  | some store =>
    (followed h store c.op).withStore c.queueName (c.op.apply codec (store, h.fs)).1
      (c.op.apply codec (store, h.fs)).2

def crash (n : Nat) (h : VirtualHost) (c : StoreCall) : FileSystem :=
  match h.queueMessages.lookup c.queueName with
  | none => h.fs
  | some store => c.op.crash codec n (store, h.fs)

end StoreCall

section Calls

variable (matchHeaders : StrMap Bytes → StrMap Bytes → Bool) (h : VirtualHost)

def insertCalls (receivers : List Bytes) (props : Bytes → BasicProperties) (body : Bytes) :
    List StoreCall :=
  receivers.map fun queueName =>
    ⟨queueName, .insert (some (props queueName)) body (h.isDurable queueName)⟩

def publishCalls (visit : Visit Binding) (exchangeName : Bytes) (bp : Option BasicProperties)
    (body : Bytes) : List StoreCall :=
  insertCalls h (takers matchHeaders visit h exchangeName bp) (h.stamped bp) body

def frontCalls (queueName : Bytes) : List StoreCall :=
  match h.queueMessages.lookup queueName with
  | none => []
  | some store =>
    match store.front with
    | none => []
    | some msg => [⟨queueName, .remove msg.id⟩]

def deadLetterCalls (visit : Visit Binding) (queueName msgId : Bytes)
    (dlqConfig : DeadLetterConfig) (targetMsg : MessagePtr) : List StoreCall :=
  (if dlqConfig.exchangeName ≠ [] then
    publishCalls matchHeaders h.generateId.2 visit dlqConfig.exchangeName
      (some (dlqProps h.generateId.1 dlqConfig)) targetMsg.body
  else []) ++ [⟨queueName, .remove msgId⟩]

def nackCalls (visit : Visit Binding) (queueName msgId : Bytes) (requeue : Bool) :
    List StoreCall :=
  match h.queueMgr.selectQueue queueName with
  | none => []
  | some info =>
    if requeue then []
    else if !info.hasDeadLetterConfig then [⟨queueName, .remove msgId⟩]
    else
      match (h.contents queueName).find? fun m => m.id == msgId with
      | none => []
      | some targetMsg =>
        deadLetterCalls matchHeaders h visit queueName msgId info.dlqConfig targetMsg

def HostOp.calls : HostOp → List StoreCall
  | .basicPublish queue bp body =>
    if (h.queueMessages.lookup queue).isSome && acceptsKey (bp.map BasicProperties.routingKey) queue
    then insertCalls h [queue] (h.stamped bp) body
    else []
  | .publishToExchange visit exchange bp body => publishCalls matchHeaders h visit exchange bp body
  | .publishEx visit exchange key bp body =>
    insertCalls h (takersEx visit h exchange key bp) (fun _ => exProps bp key) body
  | .basicConsume queue => frontCalls h queue
  | .basicConsumeAndRemove queue => frontCalls h queue
  | .basicAck queue id => [⟨queue, .remove id⟩]
  | .basicNack visit queue id requeue _ => nackCalls matchHeaders h visit queue id requeue
  | .basicQuery visit =>
    match queryTarget (visit.order h.queueMessages) with
    | none => []
    | some (queue, _, _) => frontCalls h queue
  | .queueRuntimeStats queue => [⟨queue, .getStats⟩]
  | .compactQueue queue => [⟨queue, .compact⟩]
  | _ => []

end Calls

namespace StoreCall

variable {codec : Codec} {h h' : VirtualHost} {c : StoreCall}

theorem apply_absent (absent : h.queueMessages.lookup c.queueName = none) :
    c.apply codec h = h := by
  rw [apply, absent]

theorem apply_stored {store : QueueMessage}
    (stored : h.queueMessages.lookup c.queueName = some store) :
    c.apply codec h = (followed h store c.op).withStore c.queueName
      (c.op.apply codec (store, h.fs)).1 (c.op.apply codec (store, h.fs)).2 := by
  rw [apply, stored]

theorem followed_seq (h : VirtualHost) (seq : Nat) (store : QueueMessage) (op : StoreOp) :
    followed { h with seq } store op = { followed h store op with seq } := by
  cases op <;> rfl

theorem apply_seq (h : VirtualHost) (seq : Nat) (c : StoreCall) :
    c.apply codec { h with seq } = { c.apply codec h with seq } := by
  cases stored : h.queueMessages.lookup c.queueName with
  | none => rw [apply_absent stored, apply_absent (h := { h with seq }) stored]
  | some store =>
    rw [apply_stored stored, apply_stored (h := { h with seq }) stored, followed_seq]
    rfl

variable (codec) in
theorem exec_seq (h : VirtualHost) (seq : Nat) (cs : List StoreCall) :
    exec (apply codec) { h with seq } cs = { exec (apply codec) h cs with seq } := by
  induction cs generalizing h with
  | nil => rfl
  | cons c cs ih => rw [exec_cons, exec_cons, apply_seq, ih]

theorem withSeq_self {k : VirtualHost} {seq : Nat} (same : k.seq = seq) : { k with seq } = k := by
  rw [← same]

theorem seq_apply (h : VirtualHost) (c : StoreCall) : (c.apply codec h).seq = h.seq := by
  unfold apply
  split
  · rfl
  · cases c.op <;> rfl

theorem seq_exec (h : VirtualHost) (cs : List StoreCall) :
    (exec (apply codec) h cs).seq = h.seq := by
  induction cs generalizing h with
  | nil => rfl
  | cons c cs ih => rw [exec_cons, ih, seq_apply]

theorem exec_eq_withSeq {h' : VirtualHost} {cs : List StoreCall}
    (same : exec (apply codec) h cs = h') : exec (apply codec) h cs = { h' with seq := h.seq } := by
  subst same
  exact (withSeq_self (seq_exec h cs)).symm

theorem frontCalls_exec (h : VirtualHost) (queueName : Bytes) :
    exec (apply codec) h (frontCalls h queueName) = (h.takeFront codec queueName).2 := by
  cases stored : h.queueMessages.lookup queueName with
  | none => simp only [frontCalls, VirtualHost.takeFront, stored, exec_nil]
  | some store =>
    cases front : store.front with
    | none => simp only [frontCalls, VirtualHost.takeFront, stored, front, exec_nil]
    | some msg =>
      simp only [frontCalls, VirtualHost.takeFront, stored, front, exec_cons, exec_nil]
      exact apply_stored (c := ⟨queueName, .remove msg.id⟩) stored

theorem deliveries_exec {props : Bytes → BasicProperties} {body : Bytes}
    {log : List (Bytes × MessagePtr)} (run : Deliveries codec props body h log h') :
    exec (apply codec) h (insertCalls h (log.map Prod.fst) props body) =
      { h' with seq := h.seq } := by
  induction run with
  | nil h => rfl
  | @seq h h' log n _ ih =>
    have moved := exec_seq codec h n (insertCalls h (log.map Prod.fst) props body)
    have own := exec_seq codec h h.seq (insertCalls h (log.map Prod.fst) props body)
    have back := congrArg (fun k : VirtualHost => { k with seq := h.seq }) (moved.symm.trans ih)
    exact own.trans back
  | @deliver h h' log queueName store found _ ih =>
    rw [List.map_cons, insertCalls, List.map_cons, exec_cons, apply_stored found]
    exact ih

variable (matchHeaders : StrMap Bytes → StrMap Bytes → Bool)

variable (codec) in
theorem publishCalls_exec (ok : WellFormed h) (visit : Visit Binding) (exchangeName : Bytes)
    (bp : Option BasicProperties) (body : Bytes) :
    exec (apply codec) h (publishCalls matchHeaders h visit exchangeName bp body) =
      { (h.publishToExchange codec matchHeaders visit exchangeName bp body).2.2 with
        seq := h.seq } := by
  obtain ⟨log, run, names, -⟩ :=
    publishToExchange_deliveries codec matchHeaders ok visit exchangeName bp body
  rw [publishCalls, ← names]
  exact deliveries_exec run

theorem deadLetterCalls_exec (ok : WellFormed h) (visit : Visit Binding) (queueName msgId : Bytes)
    (dlqConfig : DeadLetterConfig) (targetMsg : MessagePtr) :
    exec (apply codec) h
        (deadLetterCalls matchHeaders h visit queueName msgId dlqConfig targetMsg) =
      { h.deadLetter codec matchHeaders visit queueName msgId dlqConfig targetMsg with
        seq := h.seq } := by
  rw [deadLetterCalls, exec_append, VirtualHost.deadLetter]
  by_cases named : dlqConfig.exchangeName ≠ []
  · have numbered : WellFormed h.generateId.2 := ok.of_frame (Frame.seq h _)
    have published := publishCalls_exec codec matchHeaders numbered visit
      dlqConfig.exchangeName (some (dlqProps h.generateId.1 dlqConfig)) targetMsg.body
    have back := exec_seq codec h.generateId.2 h.seq (publishCalls matchHeaders
      h.generateId.2 visit dlqConfig.exchangeName (some (dlqProps h.generateId.1 dlqConfig))
        targetMsg.body)
    rw [published] at back
    simp only [if_pos named]
    refine (congrArg (fun k => exec (apply codec) k [⟨queueName, .remove msgId⟩]) back).trans ?_
    exact apply_seq (h.generateId.2.publishToExchange codec matchHeaders visit
      dlqConfig.exchangeName (some (dlqProps h.generateId.1 dlqConfig)) targetMsg.body).2.2 h.seq
        ⟨queueName, .remove msgId⟩
  · simp only [if_neg named, exec_nil]
    exact apply_seq h.generateId.2 h.seq ⟨queueName, .remove msgId⟩

theorem nackCalls_exec (ok : WellFormed h) (visit : Visit Binding) (queueName msgId : Bytes)
    (requeue : Bool) (reason : Bytes) :
    exec (apply codec) h (nackCalls matchHeaders h visit queueName msgId requeue) =
      { h.basicNack codec matchHeaders visit queueName msgId requeue reason with
        seq := h.seq } := by
  have known := ok.stored queueName
  unfold nackCalls VirtualHost.basicNack
  cases selected : h.queueMgr.selectQueue queueName with
  | none =>
    simp only [exec_nil]
    split <;> rfl
  | some info =>
    obtain ⟨store, stored⟩ : ∃ store, h.queueMessages.lookup queueName = some store := by
      refine Option.isSome_iff_exists.mp (known ▸ ?_)
      rw [MsgQueueManager.selectQueue] at selected
      simp [MsgQueueManager.exists?, selected]
    cases requeue with
    | true => simp [stored, exec_nil]
    | false =>
      cases configured : info.hasDeadLetterConfig with
      | false =>
        simp only [stored, Bool.false_eq_true, if_false, configured, Bool.not_false, if_true]
        exact exec_eq_withSeq rfl
      | true =>
        rw [VirtualHost.contents_of_lookup stored]
        cases found : store.msgs.find? fun m => m.id == msgId with
        | none =>
          simp only [stored, Bool.false_eq_true, if_false, configured, Bool.not_true, exec_nil,
            QueueMessage.getAllMessages, found]
          split <;> rfl
        | some targetMsg =>
          obtain ⟨first, rest, split⟩ := List.exists_cons_of_ne_nil
            (List.ne_nil_of_mem (List.mem_of_find?_eq_some found))
          have front : store.front = some first := by rw [QueueMessage.front, split]; rfl
          simp only [stored, Bool.false_eq_true, if_false, configured, Bool.not_true,
            QueueMessage.getAllMessages, found, front]
          exact deadLetterCalls_exec matchHeaders ok visit queueName msgId info.dlqConfig targetMsg

/-- An operation on messages is its calls, but for the counter behind the ids. -/
theorem calls_exec (ok : WellFormed h) {op : HostOp} (messages : Frame.onMessages op = true) :
    exec (apply codec) h (op.calls matchHeaders h) =
      { op.apply codec matchHeaders h with seq := h.seq } := by
  cases op with
  | basicPublish queue bp body =>
    rw [HostOp.calls, HostOp.apply]
    cases stored : h.queueMessages.lookup queue with
    | none => simp [VirtualHost.basicPublish, stored, exec_nil]
    | some store =>
      have spec := basicPublish_spec codec (Option.isSome_of_eq_some stored) bp body
      cases accepts : acceptsKey (bp.map BasicProperties.routingKey) queue with
      | true =>
        rw [if_pos accepts] at spec
        obtain ⟨-, -, m, run⟩ := spec
        exact deliveries_exec run
      | false =>
        rw [if_neg (by simp [accepts])] at spec
        exact deliveries_exec spec.2.2
  | publishToExchange visit exchange bp body =>
    exact publishCalls_exec codec matchHeaders ok visit exchange bp body
  | publishEx visit exchange key bp body =>
    rw [HostOp.calls, HostOp.apply, VirtualHost.publishEx, takersEx]
    cases found : h.selectExchange exchange with
    | none => rfl
    | some e =>
      obtain ⟨log, run, names, -⟩ := publishExLoop_spec codec e.type (exProps bp key) body
        (visit.order (h.bindingsOf exchange)) false h fun entry member =>
          ok.bound_entry visit member
      simp only [← names]
      exact deliveries_exec run
  | basicConsume queue => exact exec_eq_withSeq (frontCalls_exec h queue)
  | basicConsumeAndRemove queue => exact exec_eq_withSeq (frontCalls_exec h queue)
  | basicAck queue id => exact exec_eq_withSeq rfl
  | basicNack visit queue id requeue reason =>
    exact nackCalls_exec matchHeaders ok visit queue id requeue reason
  | basicQuery visit =>
    rw [HostOp.calls, HostOp.apply, basicQuery_eq]
    cases queryTarget (visit.order h.queueMessages) with
    | none => rfl
    | some pulled => exact exec_eq_withSeq (frontCalls_exec h pulled.1)
  | queueRuntimeStats queue =>
    refine exec_eq_withSeq ?_
    simp only [HostOp.calls, exec_cons, exec_nil, HostOp.apply, VirtualHost.queueRuntimeStats,
      apply]
    cases h.queueMessages.lookup queue <;> rfl
  | compactQueue queue => exact exec_eq_withSeq rfl
  | _ => cases messages

end StoreCall

end HzMq
