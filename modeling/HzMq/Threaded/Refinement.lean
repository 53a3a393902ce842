import HzMq.Threaded.Model

/-!
# Threads and the broker's own list of tasks

Whatever the threads do without getting into a task that has begun, the broker could do
with its tasks in a list of which any one may be the next to run. It executes a task
as a whole where the worker makes the first call. What is sent is the same, replies
and messages each in their order; only a reply may come later than it does there, behind
messages of tasks that its own handler has pushed.
-/

namespace HzMq.Threaded

open BrokerServer Machine

section Pool

variable (s : BrokerServer) (pool : List Task)

@[simp] theorem withPool_pool : (s.withPool pool).pool = pool := rfl

@[simp] theorem withPool_withPool (pool' : List Task) :
    (s.withPool pool).withPool pool' = s.withPool pool' := rfl

theorem withPool_self (same : s.pool = pool) : s.withPool pool = s := by
  subst same
  rfl

theorem destroyChannel_withPool (ch : Channel) :
    (s.withPool pool).destroyChannel ch = (s.destroyChannel ch).withPool pool := by
  unfold destroyChannel
  split <;> rfl

theorem destroyChannels_withPool (channels : List (Bytes × Channel)) :
    channels.foldl (fun s e => s.destroyChannel e.2) (s.withPool pool) =
      (channels.foldl (fun s e => s.destroyChannel e.2) s).withPool pool := by
  induction channels generalizing s with
  | nil => rfl
  | cons e channels ih => rw [List.foldl_cons, List.foldl_cons, destroyChannel_withPool, ih]

/-- The tasks have no part in what a step does, if it is none of theirs. -/
def Ignores {β : Type} (f : BrokerServer → β × BrokerServer) : Prop :=
  ∀ (s : BrokerServer) pool, f (s.withPool pool) = ((f s).1, (f s).2.withPool pool)

def Appends {β : Type} (f : BrokerServer → β × BrokerServer) : Prop :=
  ∀ (s : BrokerServer) pool, s.pool = [] →
    f (s.withPool pool) = ((f s).1, (f s).2.withPool (pool ++ (f s).2.pool))

theorem Ignores.appends {β : Type} {f : BrokerServer → β × BrokerServer} (ignores : Ignores f) :
    Appends f := by
  intro s pool empty
  have own : (f s).2.pool = [] := by
    have same := ignores s s.pool
    rw [withPool_self s _ rfl] at same
    rw [same]
    exact empty
  rw [ignores, own, List.append_nil]

theorem Appends.map {β γ : Type} {f : BrokerServer → β × BrokerServer} (appends : Appends f)
    (say : β → γ) : Appends fun s => (say (f s).1, (f s).2) := by
  intro s pool empty
  exact congrArg (Prod.map say id) (appends s pool empty)

end Pool

section Steps

variable (codec : Codec) (matchHeaders : StrMap Bytes → StrMap Bytes → Bool)

theorem newConnection_withPool (s : BrokerServer) (pool : List Task) (conn : Nat) :
    (s.withPool pool).newConnection conn = (s.newConnection conn).withPool pool := by
  unfold newConnection withPool
  by_cases known : (s.connections.lookup conn).isSome = true
  · rw [if_pos known, if_pos known]
  · rw [if_neg known, if_neg known]

theorem deleteConnection_withPool (s : BrokerServer) (pool : List Task) (conn : Nat) :
    (s.withPool pool).deleteConnection conn = (s.deleteConnection conn).withPool pool :=
  congrArg (fun b : BrokerServer => { b with connections := s.connections.erase conn })
    (destroyChannels_withPool s pool _)

theorem openChannel_ignores (conn : Nat) (rid cid : Bytes) :
    Ignores fun s => s.openChannel conn rid cid := by
  intro s pool
  simp only [openChannel, withPool]
  cases s.connections.lookup conn with
  | none => rfl
  | some channels =>
    by_cases opened : (channels.lookup cid).isSome = true
    · simp only [if_pos opened]
    · simp only [if_neg opened]
      rfl

theorem closeChannel_ignores (conn : Nat) (rid cid : Bytes) :
    Ignores fun s => s.closeChannel conn rid cid := by
  intro s pool
  have destroyed := destroyChannel_withPool s pool
  simp only [closeChannel, withPool] at destroyed ⊢
  cases s.connections.lookup conn with
  | none => rfl
  | some channels =>
    dsimp only
    cases channels.lookup cid with
    | none => rfl
    | some ch => simp only [destroyed]

theorem basicPublish_appends (ch : ChannelRef) (visit tasks : Visit Binding)
    (exchangeName : Bytes) (properties : Option BasicProperties) (body : Bytes) :
    Appends fun s => s.basicPublish codec matchHeaders ch visit tasks exchangeName properties
      body := by
  intro s pool empty
  unfold basicPublish withPool
  simp only [empty]
  cases s.host.selectExchange exchangeName with
  | none => simp [empty]
  | some exchange =>
    by_cases published :
        (s.host.publishToExchange codec matchHeaders visit exchangeName properties body).1 = true
    · simp only [if_pos published, List.nil_append]
    · simp only [if_neg published, List.append_nil]

theorem handle_appends (ch : Channel) (rid cid : Bytes) (call : Call) :
    Appends fun s =>
      let (response, ch, s) := s.handle codec matchHeaders ch rid cid call
      ((response, ch), s) := by
  cases call with
  | basicPublish visit tasks exchangeName properties body =>
    exact (basicPublish_appends codec matchHeaders ch.ref visit tasks exchangeName properties
      body).map fun ok => (Response.common rid cid ok, ch)
  | declareQueue queueName durable exclusive autoDelete args =>
    refine Ignores.appends fun s pool => ?_
    simp [handle, withPool, VirtualHost.declareQueue_eq]
  | declareQueueWithDlq queueName durable exclusive autoDelete args config =>
    refine Ignores.appends fun s pool => ?_
    simp [handle, withPool, VirtualHost.declareQueueWithDlq_eq]
  | basicConsume tag queueName autoAck =>
    refine Ignores.appends fun s pool => ?_
    cases known : s.host.queueMgr.exists? queueName <;>
      simp [handle, basicConsume, withPool, known]
  | _ => exact Ignores.appends fun s pool => rfl

theorem request_appends (conn : Nat) (rid cid : Bytes) (call : Call) :
    Appends fun s => s.request codec matchHeaders conn rid cid call := by
  intro s pool empty
  have selected : (s.withPool pool).selectChannel conn cid = s.selectChannel conn cid := rfl
  simp only [request, selected]
  cases s.selectChannel conn cid with
  | none => simp [empty]
  | some ch =>
    exact congrArg (fun r => (some r.1.1, r.2.putChannel conn cid r.1.2))
      (handle_appends codec matchHeaders ch rid cid call s pool empty)

theorem act_appends {op : ServerOp} (outside : op.thread ≠ .worker) :
    Appends fun s => op.act codec matchHeaders s := by
  cases op with
  | newConnection conn =>
    exact Ignores.appends fun s pool => congrArg _ (newConnection_withPool s pool conn)
  | deleteConnection conn =>
    exact Ignores.appends fun s pool => congrArg _ (deleteConnection_withPool s pool conn)
  | openChannel conn rid cid =>
    exact (openChannel_ignores conn rid cid).appends.map fun r =>
      (r.map (Shown.reply conn)).toList
  | closeChannel conn rid cid =>
    exact (closeChannel_ignores conn rid cid).appends.map fun r =>
      (r.map (Shown.reply conn)).toList
  | request conn rid cid call =>
    exact (request_appends codec matchHeaders conn rid cid call).map fun r =>
      (r.map (Shown.reply conn)).toList
  | execute index => exact absurd rfl outside
  | queueRuntimeStats queueName => exact Ignores.appends fun s pool => rfl
  | compactQueue queueName => exact Ignores.appends fun s pool => rfl

theorem consume_ignores (qname : Bytes) : Ignores fun s => s.consume codec qname := by
  intro s pool
  simp only [consume, withPool]
  rcases s.host.basicConsume codec qname with ⟨_ | mp, host⟩
  · rfl
  · rcases s.cmp.choose qname with ⟨_ | cp, cmp⟩ <;> rfl

theorem act_replies (s : BrokerServer) {op : ServerOp} (outside : op.thread ≠ .worker) :
    ∀ x ∈ (op.act codec matchHeaders s).1, x.isReply = true := by
  intro x shown
  cases op with
  | openChannel conn rid cid =>
    obtain ⟨r, -, rfl⟩ := Option.map_eq_some_iff.mp (Option.mem_toList.mp shown)
    rfl
  | closeChannel conn rid cid =>
    obtain ⟨r, -, rfl⟩ := Option.map_eq_some_iff.mp (Option.mem_toList.mp shown)
    rfl
  | request conn rid cid call =>
    obtain ⟨r, -, rfl⟩ := Option.map_eq_some_iff.mp (Option.mem_toList.mp shown)
    rfl
  | execute index => exact absurd rfl outside
  | _ => cases shown

end Steps

section Pool

variable {s s' : ThreadPool Task} {e : ThreadPool.Event Task}

theorem lockEvent_accepted (i : Nat) (worker : Worker Task) :
    (ThreadPool.lockEvent i worker).accepted? = [] := by
  cases worker <;> rfl

theorem lock_byPool {i : Nat} (locked : s.lock i = some (e, s')) :
    e.accepted? = [] ∧ s'.stop = s.stop := by
  unfold ThreadPool.lock at locked
  split at locked
  · cases locked
    exact ⟨lockEvent_accepted i _, rfl⟩
  · cases locked

theorem finish_byPool {i : Nat} (finished : s.finish i = some (e, s')) :
    e.accepted? = [] ∧ s'.stop = s.stop := by
  unfold ThreadPool.finish at finished
  split at finished
  · cases finished
    exact ⟨rfl, rfl⟩
  · cases finished

theorem wakeUp_byPool {i : Nat} (woken : s.wakeUp i = some s') : s'.stop = s.stop := by
  obtain ⟨before, after, -, rfl⟩ := ThreadPool.wakeUp_eq_some woken
  rfl

theorem notifyOne_byPool {i : Nat} (notified : s.notifyOne i = some s') : s'.stop = s.stop := by
  unfold ThreadPool.notifyOne at notified
  split at notified
  · cases notified
  · split at notified
    · exact (wakeUp_byPool notified).trans rfl
    · cases notified
      rfl

/-- The pool by itself takes in nothing and does not stop. -/
theorem step_byPool {action : ThreadPool.Action Task} (byPool : action.byPool = true)
    (stepped : s.step action = some (e, s')) : e.accepted? = [] ∧ s'.stop = s.stop := by
  cases action with
  | push task => cases byPool
  | lock i => exact lock_byPool stepped
  | finish i => exact finish_byPool stepped
  | notifyOne i =>
    obtain ⟨after, notified, same⟩ := Option.map_eq_some_iff.mp stepped
    cases same
    exact ⟨rfl, notifyOne_byPool notified⟩
  | wakeUp i =>
    obtain ⟨after, woken, same⟩ := Option.map_eq_some_iff.mp stepped
    cases same
    exact ⟨rfl, wakeUp_byPool woken⟩
  | destroy => cases byPool
  | notifyAll =>
    simp only [ThreadPool.step] at stepped
    split at stepped
    · cases stepped
      exact ⟨rfl, rfl⟩
    · cases stepped

theorem executed_eq {action : ThreadPool.Action Task} {i : Nat} {task : Task}
    (stepped : s.step action = some (.executed i task, s')) :
    action = .finish i ∧ s.threads[i]? = some (.running task) := by
  cases action with
  | push pushed =>
    simp only [ThreadPool.step, ThreadPool.push, Option.some.injEq] at stepped
    split at stepped <;> cases stepped
  | lock j =>
    simp only [ThreadPool.step, ThreadPool.lock] at stepped
    split at stepped
    · obtain ⟨event, -⟩ := Prod.mk.inj (Option.some.inj stepped)
      generalize (ThreadPool.critical s.stop s.tasks).1 = place at event
      cases place <;> cases event
    · cases stepped
  | finish j =>
    simp only [ThreadPool.step, ThreadPool.finish] at stepped
    split at stepped
    · next running =>
      cases stepped
      exact ⟨rfl, running⟩
    · cases stepped
  | notifyOne j =>
    obtain ⟨after, -, same⟩ := Option.map_eq_some_iff.mp stepped
    cases same
  | wakeUp j =>
    obtain ⟨after, -, same⟩ := Option.map_eq_some_iff.mp stepped
    cases same
  | destroy =>
    simp only [ThreadPool.step] at stepped
    split at stepped <;> cases stepped
  | notifyAll =>
    simp only [ThreadPool.step] at stepped
    split at stepped <;> cases stepped

theorem permits_byPool {s : ThreadedBroker} {action : ThreadPool.Action Task}
    (permitted : s.permits action = true) : action.byPool = true := by
  cases action with
  | finish worker => rfl
  | _ => exact permitted

theorem insideOf_worker {s : ThreadedBroker} {worker : Nat} {e : Begun}
    (found : s.insideOf worker = some e) : e.worker = worker := by
  simpa using List.find?_some found

end Pool

section Task

variable (codec : Codec)

def rest (s : BrokerServer) (qname : Bytes) : Stage → Option Delivery × BrokerServer
  | .looked mp => called { s with host := s.host.basicAck codec qname mp.id } mp
  | .removed mp => called s mp
  | .chosen mp cp => (some (delivery mp cp), acknowledge s mp cp)
  | .called mp cp => (none, acknowledge s mp cp)
  | .returning => (none, s)
where
  delivery (mp : MessagePtr) (cp : Consumer) : Delivery :=
    ⟨cp, qname, mp, consumeCb cp.callback cp.tag mp.payload.properties mp.body⟩
  acknowledge (s : BrokerServer) (mp : MessagePtr) (cp : Consumer) : BrokerServer :=
    if cp.autoAck then { s with host := s.host.basicAck codec qname mp.id } else s
  called (s : BrokerServer) (mp : MessagePtr) : Option Delivery × BrokerServer :=
    match s.cmp.choose qname with
    | (none, turned) => (none, { s with cmp := turned })
    | (some cp, turned) => (some (delivery mp cp), acknowledge { s with cmp := turned } mp cp)

def messages (delivery? : Option Delivery) : List Shown := (delivery?.map Delivery.shown).toList

/-- From the first look on, the calls of a task are the task. -/
theorem consume_eq_rest (s : BrokerServer) (qname : Bytes) :
    s.consume codec qname = rest codec s qname (s.look qname) := by
  unfold consume VirtualHost.basicConsume VirtualHost.takeFront look
  cases found : s.host.queueMessages.lookup qname with
  | none => rfl
  | some store =>
    cases first : store.front with
    | none => simp [first, rest]
    | some mp =>
      have removed : s.host.basicAck codec qname mp.id =
          s.host.withStore qname (store.remove codec s.host.fs mp.id).1
            (store.remove codec s.host.fs mp.id).2 := by
        simp only [VirtualHost.basicAck, found]
      simp only [Option.bind_some, first, rest, rest.called, removed]
      rcases s.cmp.choose qname with ⟨_ | cp, cmp⟩
      · rfl
      · simp only [rest.acknowledge, rest.delivery]
        cases cp.autoAck <;> rfl

theorem advance_rest (s : BrokerServer) (qname : Bytes) (stage : Stage) :
    let (shown, stage', s') := s.advance codec qname stage
    messages (rest codec s qname stage).1 = shown ++ messages (rest codec s' qname stage').1 ∧
      (rest codec s qname stage).2 = (rest codec s' qname stage').2 := by
  cases stage with
  | looked mp => exact ⟨rfl, rfl⟩
  | removed mp =>
    simp only [advance, rest, rest.called]
    rcases s.cmp.choose qname with ⟨_ | cp, cmp⟩
    · exact ⟨rfl, rfl⟩
    · exact ⟨rfl, rfl⟩
  | chosen mp cp => exact ⟨rfl, rfl⟩
  | called mp cp => exact ⟨rfl, rfl⟩
  | returning => exact ⟨rfl, rfl⟩

theorem advance_messages (s : BrokerServer) (qname : Bytes) (stage : Stage) :
    ∀ x ∈ (s.advance codec qname stage).1, x.isReply = false := by
  intro x shown
  cases stage with
  | removed mp =>
    simp only [advance] at shown
    split at shown <;> cases shown
  | chosen mp cp =>
    rw [List.mem_singleton.mp shown]
    rfl
  | _ => cases shown

theorem advance_pool (s : BrokerServer) (qname : Bytes) (stage : Stage) :
    (s.advance codec qname stage).2.2.pool = s.pool := by
  cases stage with
  | removed mp =>
    simp only [advance]
    rcases s.cmp.choose qname with ⟨_ | cp, cmp⟩ <;> rfl
  | called mp cp =>
    simp only [advance]
    split <;> rfl
  | _ => rfl

end Task

section Settled

variable (codec : Codec) (s : ThreadedBroker)

def settled : List Shown × BrokerServer :=
  s.inside.foldl (fun done e =>
    let (delivery?, broker) := rest codec done.2 e.task.qname e.stage
    (done.1 ++ messages delivery?, broker)) ([], s.broker)

def unsent : List Shown := s.toSend ++ (settled codec s).1

variable {s}

theorem settled_nobody (nobody : s.inside = []) : settled codec s = ([], s.broker) := by
  rw [settled, nobody, List.foldl_nil]

theorem settled_one {e : Begun} (one : s.inside = [e]) :
    settled codec s = (messages (rest codec s.broker e.task.qname e.stage).1,
      (rest codec s.broker e.task.qname e.stage).2) := by
  simp [settled, one]

theorem unsent_nobody (nobody : s.inside = []) : unsent codec s = s.toSend := by
  rw [unsent, settled_nobody codec nobody, List.append_nil]

end Settled

def OneInside (s : ThreadedBroker) : Prop :=
  s.inside = [] ∨
    ∃ e, s.inside = [e] ∧ s.pool.threads[e.worker]? = some (.running e.task)

/-- What the threads have done and begun is what the broker has done. -/
structure Runs (codec : Codec) (s : ThreadedBroker) (t : BrokerServer) : Prop where
  tables : t.withPool [] = (settled codec s).2
  tasks : (s.begun ++ t.pool).Perm s.waiting
  oneInside : OneInside s
  going : s.pool.stop = false
  replies : ∀ x ∈ s.toSend, x.isReply = true

theorem runs_new (codec : Codec) (host : VirtualHost) (hardwareConcurrency : Nat) :
    Runs codec (.new host hardwareConcurrency) (.new host) where
  tables := rfl
  tasks := by
    rw [ThreadedBroker.waiting, ThreadedBroker.new, ThreadPool.inHand_new]
    exact .refl _
  oneInside := .inl rfl
  going := rfl
  replies := fun x shown => by cases shown

section Step

variable (codec : Codec) (matchHeaders : StrMap Bytes → StrMap Bytes → Bool)
variable {s : ThreadedBroker} {t : BrokerServer}

theorem Runs.eq (runs : Runs codec s t) (nobody : s.inside = []) :
    t = s.broker.withPool t.pool := by
  have tables : t.withPool [] = s.broker :=
    runs.tables.trans (congrArg Prod.snd (settled_nobody codec nobody))
  rw [← tables]
  rfl

theorem Runs.unbegun {codec : Codec} (runs : Runs codec s t) (nobody : s.inside = []) :
    t.pool.Perm s.waiting := by
  have tasks := runs.tasks
  rwa [ThreadedBroker.begun, nobody, List.map_nil, List.nil_append] at tasks

/-- The broker does at once what the handler still has to push and to send. -/
theorem Runs.handle (runs : Runs codec s t) (nobody : s.inside = []) {op : ServerOp}
    (outside : op.thread ≠ .worker) :
    Runs codec (s.handle codec matchHeaders op) (op.act codec matchHeaders t).2 ∧
      (op.act codec matchHeaders t).1 = (op.act codec matchHeaders s.broker).1 := by
  have appends : op.act codec matchHeaders t =
      ((op.act codec matchHeaders s.broker).1,
        (op.act codec matchHeaders s.broker).2.withPool
          (t.pool ++ (op.act codec matchHeaders s.broker).2.pool)) := by
    nth_rewrite 1 [runs.eq codec nobody]
    exact act_appends codec matchHeaders outside s.broker t.pool s.noTasks
  have still : (s.handle codec matchHeaders op).inside = [] := nobody
  rw [appends]
  refine ⟨⟨?_, ?_, .inl still, runs.going, ?_⟩, rfl⟩
  · rw [settled_nobody codec still]
    rfl
  · rw [withPool_pool, ThreadedBroker.begun, still, List.map_nil, List.nil_append]
    simp only [ThreadedBroker.handle, ThreadedBroker.waiting, ← List.append_assoc]
    exact (runs.unbegun nobody).append_right _
  · intro x shown
    rcases List.mem_append.mp shown with held | new
    · exact runs.replies x held
    · exact act_replies codec matchHeaders s.broker outside x new

theorem Runs.aside {codec : Codec} (runs : Runs codec s t) {s' : ThreadedBroker}
    (broker : s'.broker = s.broker) (inside : s'.inside = s.inside)
    (waiting : s.waiting.Perm s'.waiting)
    (running : ∀ (i : Nat) (task : Task), s.pool.threads[i]? = some (.running task) →
      s'.pool.threads[i]? = some (.running task))
    (going : s'.pool.stop = s.pool.stop) (replies : s'.toSend ⊆ s.toSend) : Runs codec s' t where
  tables := by
    rw [runs.tables, settled, settled, broker, inside]
  tasks := by
    rw [ThreadedBroker.begun, inside]
    exact runs.tasks.trans waiting
  oneInside := by
    rw [OneInside, inside]
    refine runs.oneInside.imp_right ?_
    rintro ⟨e, one, here⟩
    exact ⟨e, one, running e.worker e.task here⟩
  going := going.trans runs.going
  replies x shown := runs.replies x (replies shown)

theorem Runs.push {codec : Codec} (runs : Runs codec s t) : Runs codec s.push t := by
  unfold ThreadedBroker.push
  cases pending : s.toPush with
  | nil => exact runs
  | cons task rest =>
    have accepted : s.pool.push task =
        (.accepted task, { s.pool with
          tasks := s.pool.tasks ++ [task]
          notices := s.pool.notices + 1 }) := by
      rw [ThreadPool.push, if_neg (by simp [runs.going])]
    simp only [accepted]
    refine runs.aside rfl rfl (.of_eq ?_) (fun _ _ here => here) rfl (List.Subset.refl _)
    simp [ThreadedBroker.waiting, ThreadPool.inHand, pending]

theorem Runs.idle {codec : Codec} (runs : Runs codec s t) {e : ThreadPool.Event Task}
    {pool : ThreadPool Task} (moves : ThreadPool.Moves s.pool e pool) (noPush : e.accepted? = [])
    (noExecution : e.executed? = []) (going : pool.stop = s.pool.stop) :
    Runs codec { s with pool } t := by
  have after := moves.unfinished
  rw [noPush, noExecution, List.append_nil, List.nil_append] at after
  exact runs.aside rfl rfl (after.symm.append_right s.toPush)
    (fun _ _ here => moves.running noExecution here) going (List.Subset.refl _)

theorem Runs.begin (runs : Runs codec s t) (nobody : s.inside = []) {worker : Nat} {task : Task}
    (running : s.pool.threads[worker]? = some (.running task)) : ∃ index,
      Runs codec (s.begin worker) (t.execute codec index).2 ∧
      unsent codec (s.begin worker) = s.toSend ++ messages (t.execute codec index).1 := by
  have begun : s.begin worker =
      { s with inside := [⟨worker, task, s.broker.look task.qname⟩] } := by
    rw [ThreadedBroker.begin, running, nobody]
  have inHand : task ∈ s.pool.inHand :=
    List.mem_filterMap.mpr ⟨_, List.mem_of_getElem? running, rfl⟩
  have listed : task ∈ t.pool := by
    refine (runs.unbegun nobody).mem_iff.mpr ?_
    exact List.mem_append_left _ (List.mem_append_left _ inHand)
  obtain ⟨index, inside, found⟩ := List.getElem_of_mem listed
  have taken : t.execute codec index =
      ((s.broker.consume codec task.qname).1,
        (s.broker.consume codec task.qname).2.withPool (t.pool.eraseIdx index)) := by
    rw [BrokerServer.execute, List.getElem?_eq_getElem inside, found, runs.eq codec nobody]
    exact consume_ignores codec task.qname s.broker _
  have noTasks : (s.broker.consume codec task.qname).2.pool = [] := by
    have ignores := consume_ignores codec task.qname s.broker []
    rw [withPool_self s.broker [] s.noTasks] at ignores
    exact congrArg (fun r => r.2.pool) ignores
  refine ⟨index, ?_⟩
  rw [begun, taken, consume_eq_rest]
  refine ⟨⟨?_, ?_, .inr ⟨_, rfl, running⟩, runs.going, runs.replies⟩, ?_⟩
  · rw [settled_one codec rfl, ← consume_eq_rest]
    exact withPool_self _ [] noTasks
  · subst found
    exact (List.getElem_cons_eraseIdx_perm inside).trans (runs.unbegun nobody)
  · rw [unsent, settled_one codec rfl]

/-- The broker has done the rest of the task already. -/
theorem Runs.proceed (runs : Runs codec s t) {e : Begun} (one : s.inside = [e]) :
    Runs codec (s.proceed codec e).2 t ∧
      SameByKind Shown.isReply ((s.proceed codec e).1 ++ unsent codec (s.proceed codec e).2)
        (unsent codec s) := by
  have next := advance_rest codec s.broker e.task.qname e.stage
  have shown := advance_messages codec s.broker e.task.qname e.stage
  have pool := advance_pool codec s.broker e.task.qname e.stage
  have tables := runs.tables
  rw [settled_one codec one] at tables
  have running : s.pool.threads[e.worker]? = some (.running e.task) := by
    rcases runs.oneInside with nobody | ⟨e', single, here⟩
    · rw [nobody] at one
      cases one
    · rw [single] at one
      cases one
      exact here
  simp only [ThreadedBroker.proceed]
  generalize s.broker.advance codec e.task.qname e.stage = call at next shown pool ⊢
  obtain ⟨new, stage, broker⟩ := call
  have still : broker.withPool [] = broker := withPool_self broker [] (pool.trans s.noTasks)
  simp only [still, one, List.map_cons, List.map_nil, if_true]
  refine ⟨⟨?_, ?_, .inr ⟨_, rfl, running⟩, runs.going, runs.replies⟩, ?_⟩
  · rw [settled_one codec rfl]
    exact tables.trans next.2
  · have tasks := runs.tasks
    rw [ThreadedBroker.begun, one] at tasks
    exact tasks
  · rw [unsent, unsent, settled_one codec rfl, settled_one codec one, next.1, ← List.append_assoc,
      ← List.append_assoc]
    refine SameByKind.append_right (SameByKind.comm ?_) _
    intro x isNew y held
    rw [shown x isNew, runs.replies y held]
    exact Bool.false_ne_true

theorem Runs.finish {codec : Codec} (runs : Runs codec s t) {e : Begun} (one : s.inside = [e])
    (returns : e.stage = .returning) {pool : ThreadPool Task}
    (moves : ThreadPool.Moves s.pool (.executed e.worker e.task) pool)
    (going : pool.stop = s.pool.stop) : Runs codec { s with pool, inside := [] } t ∧
      unsent codec { s with pool, inside := [] } = unsent codec s := by
  have complete : settled codec s = ([], s.broker) := by
    rw [settled_one codec one, returns]
    rfl
  have after : (e.task :: (pool.inHand ++ pool.tasks)).Perm
      ((s.pool.inHand ++ s.pool.tasks) ++ []) := moves.unfinished
  have tasks := runs.tasks
  rw [ThreadedBroker.begun, one, List.map_singleton, List.singleton_append] at tasks
  rw [List.append_nil] at after
  refine ⟨⟨?_, ?_, .inl rfl, going.trans runs.going, runs.replies⟩, ?_⟩
  · rw [runs.tables, complete]
    rfl
  · exact (tasks.trans (after.append_right s.toPush).symm).cons_inv
  · rw [unsent, unsent, complete]
    rfl

theorem OneInside.eq_single (one : OneInside s) {worker : Nat} {e : Begun}
    (found : s.insideOf worker = some e) :
    s.inside = [e] ∧ s.pool.threads[worker]? = some (.running e.task) := by
  have own := insideOf_worker found
  have member := List.mem_of_find?_eq_some found
  rcases one with nobody | ⟨e', single, running⟩
  · rw [nobody] at member
    cases member
  · rw [single, List.mem_singleton] at member
    subst member own
    exact ⟨single, running⟩

theorem nobody_inside {worker : Nat} (alone : s.Undisturbed (.consume worker))
    (absent : s.insideOf worker = none) : s.inside = [] := by
  refine List.eq_nil_iff_forall_not_mem.mpr fun e member => ?_
  have other := List.find?_eq_none.mp absent e member
  exact other (decide_eq_true (alone e member))

/-- A step of the threads that nobody is disturbed by is a step of the broker, or none. -/
theorem Runs.act (runs : Runs codec s t) {a : ThreadedOp} (undisturbed : s.Undisturbed a) :
    ∃ op : Option ServerOp,
      Runs codec (s.act codec matchHeaders a).2
        (final (ServerOp.act codec matchHeaders) t op.toList) ∧
      SameByKind Shown.isReply
        ((s.act codec matchHeaders a).1 ++ unsent codec (s.act codec matchHeaders a).2)
        (unsent codec s ++ answers (ServerOp.act codec matchHeaders) t op.toList) ∧
      op.toList.filterMap ServerOp.outside = (s.input a).toList := by
  have aside {s' : ThreadedBroker} (next : Runs codec s' t)
      (same : unsent codec s' = unsent codec s) : ∃ op : Option ServerOp,
      Runs codec s' (final (ServerOp.act codec matchHeaders) t op.toList) ∧
      SameByKind Shown.isReply ([] ++ unsent codec s')
        (unsent codec s ++ answers (ServerOp.act codec matchHeaders) t op.toList) ∧
      op.toList.filterMap ServerOp.outside = ([] : List ServerOp) := by
    refine ⟨none, next, ?_, rfl⟩
    rw [same, Option.toList_none, answers_nil, List.append_nil]
    exact .refl _
  cases a with
  | handle op =>
    have nobody : s.inside = [] := List.isEmpty_iff.mp undisturbed
    cases ready : s.ready op with
    | false =>
      simp only [ThreadedBroker.act, ThreadedBroker.input, ready, Bool.false_eq_true, if_false]
      exact aside runs rfl
    | true =>
      have outside : op.thread ≠ .worker := by
        intro task
        simp [ThreadedBroker.ready, task] at ready
      obtain ⟨next, same⟩ := runs.handle codec matchHeaders nobody outside
      simp only [ThreadedBroker.act, ThreadedBroker.input, ready, if_true]
      refine ⟨some op, next, ?_, by simp [ServerOp.outside, outside]⟩
      rw [unsent_nobody codec nobody, unsent_nobody codec (show
        (s.handle codec matchHeaders op).inside = [] from nobody), Option.toList_some,
        answers_cons, answers_nil, List.append_nil, List.nil_append, same]
      exact .refl _
  | push =>
    refine aside runs.push ?_
    simp only [ThreadedBroker.act, ThreadedBroker.push]
    split <;> rfl
  | send =>
    refine ⟨none, ?_, ?_, rfl⟩
    · simp only [ThreadedBroker.act, ThreadedBroker.send]
      split
      · exact runs.aside rfl rfl (.refl _) (fun _ _ here => here) rfl (List.nil_subset _)
      · exact runs
    · simp only [ThreadedBroker.act, ThreadedBroker.send, Option.toList_none, answers_nil,
        List.append_nil]
      split <;> exact .refl _
  | consume worker =>
    simp only [ThreadedBroker.act, ThreadedBroker.consume, ThreadedBroker.input]
    cases found : s.insideOf worker with
    | none =>
      have nobody := nobody_inside undisturbed found
      by_cases running : ∃ task, s.pool.threads[worker]? = some (.running task)
      · obtain ⟨task, running⟩ := running
        obtain ⟨index, next, owed⟩ := runs.begin codec nobody running
        refine ⟨some (.execute index), next, ?_, rfl⟩
        rw [owed, unsent_nobody codec nobody, Option.toList_some, answers_cons, answers_nil,
          List.append_nil]
        exact .refl _
      · have still : s.begin worker = s := by
          unfold ThreadedBroker.begin
          split
          · next task here => exact absurd ⟨task, here⟩ running
          · rfl
        rw [still]
        exact aside runs rfl
    | some e =>
      obtain ⟨next, same⟩ := runs.proceed codec (runs.oneInside.eq_single found).1
      refine ⟨none, next, ?_, rfl⟩
      rw [Option.toList_none, answers_nil, List.append_nil]
      exact same
  | work action =>
    simp only [ThreadedBroker.act, ThreadedBroker.input]
    cases permitted : s.permits action with
    | false => exact aside runs rfl
    | true =>
      simp only [if_true, ThreadedBroker.work]
      cases stepped : s.pool.step action with
      | none => exact aside runs rfl
      | some pair =>
        obtain ⟨e, pool⟩ := pair
        obtain ⟨noPush, going⟩ := step_byPool (permits_byPool permitted) stepped
        have moves := ThreadPool.step_moves stepped
        cases e with
        | executed worker task =>
          obtain ⟨rfl, running⟩ := executed_eq stepped
          obtain ⟨e, found, returns⟩ := (Option.any_eq_true _ _).mp permitted
          obtain ⟨one, own⟩ := runs.oneInside.eq_single found
          obtain rfl := insideOf_worker found
          obtain rfl : e.task = task := by simpa using own.symm.trans running
          have last : e.stage = .returning := by
            cases stage : e.stage with
            | returning => rfl
            | _ => simp [stage, Stage.isReturning] at returns
          obtain ⟨next, same⟩ := runs.finish one last moves going
          simp only [one, List.filter_cons, List.filter_nil, ne_eq, not_true_eq_false,
            decide_false, Bool.false_eq_true, if_false]
          exact aside next same
        | _ => exact aside (runs.idle moves noPush rfl going) rfl

theorem keepsUp : KeepsUp (Runs codec) ThreadedBroker.Undisturbed (unsent codec) Shown.isReply
    (ThreadedBroker.act codec matchHeaders) (ServerOp.act codec matchHeaders)
    ThreadedBroker.input ServerOp.outside := by
  intro s t a runs undisturbed
  obtain ⟨op, follows⟩ := runs.act codec matchHeaders undisturbed
  exact ⟨op.toList, follows⟩

end Step

/-- For every number of workers and every interleaving of the threads in which nobody gets
between the calls of a consume task, with tasks in a list of which any may run next the broker
gets to the same tables on the same requests, with the same tasks still to be begun. What the
threads have sent and have still to send is what the broker sends: the replies in the same order,
and the messages in the same order. -/
theorem threads_refine_broker (codec : Codec)
    (matchHeaders : StrMap Bytes → StrMap Bytes → Bool) (host : VirtualHost)
    (hardwareConcurrency : Nat) (steps : List ThreadedOp) :
    let act := ThreadedBroker.act codec matchHeaders
    let start := ThreadedBroker.new host hardwareConcurrency
    let s := final act start steps
    Along (fun s a => (act s a).2) ThreadedBroker.Undisturbed start steps →
    ∃ ops : List ServerOp,
      let t := final (ServerOp.act codec matchHeaders) (.new host) ops
      ops.filterMap ServerOp.outside = readings act ThreadedBroker.input start steps ∧
      SameByKind Shown.isReply (answers act start steps ++ unsent codec s)
        (answers (ServerOp.act codec matchHeaders) (.new host) ops) ∧
      t.withPool [] = (settled codec s).2 ∧ (s.begun ++ t.pool).Perm s.waiting := by
  intro act start s undisturbed
  obtain ⟨ops, runs, same, inputs⟩ :=
    (keepsUp codec matchHeaders).run (runs_new codec host hardwareConcurrency) undisturbed
  exact ⟨ops, inputs, same, runs.tables, runs.tasks⟩

/-- A subscription and two publications; a worker has taken one task, and the other is yet to be
pushed. -/
def servedSteps : List ThreadedOp :=
  [.handle (.newConnection 0), .handle (.openChannel 0 [] (str "c")), .send,
    .handle (.request 0 [] (str "c") (.declareQueue (str "q") true false false ∅)), .send,
    .handle (.request 0 [] (str "c") (.basicConsume (str "t") (str "q") true)), .send,
    .handle (.request 0 [] (str "c") (.basicPublish .stored .stored []
      (some { routingKey := str "q" }) (str "x"))), .push, .work (.lock 1), .send,
    .handle (.request 0 [] (str "c") (.basicPublish .stored .stored []
      (some { routingKey := str "q" }) (str "y")))]

/-- The reply to the second publication is sent between the calls of the first task. -/
theorem threads_refine_broker_example :
    let act := ThreadedBroker.act Wire.codec fun _ _ => false
    let start := ThreadedBroker.new .blank 2
    let steps := servedSteps ++ [.consume 1, .consume 1, .push, .send, .consume 1, .consume 1,
      .consume 1, .work (.finish 1)]
    .message ⟨0, str "c"⟩ (.consume (str "c") (str "t") (str "x")
        { id := str "1", routingKey := str "q" }) ∈ answers act start steps ∧
      ∃ ops : List ServerOp, SameByKind Shown.isReply
        (answers act start steps ++ unsent Wire.codec (final act start steps))
        (answers (ServerOp.act Wire.codec fun _ _ => false) (.new .blank) ops) := by
  intro act start steps
  obtain ⟨ops, -, same, -⟩ := threads_refine_broker Wire.codec (fun _ _ => false) .blank 2 steps
    (by decide +kernel)
  exact ⟨by decide +kernel, ops, same⟩

end HzMq.Threaded
