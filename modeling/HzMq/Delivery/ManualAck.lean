import HzMq.Delivery.Accounting
import HzMq.Persistence.Operations
import HzMq.Persistence.Shield

/-!
# Messages a consumer has not acknowledged yet

A consume task removes the message before it calls the consumer, so that after
the call only the file may still hold it. It does when the invalidation was not
written and the bytes up to the end of the record stay as they are.
-/

namespace HzMq.Delivery

open FileStream VirtualHost QueueMessage Persistence Machine

section Held

variable (codec : Codec)

def Recovers (h : VirtualHost) (queueName : Bytes) (msg : Message) : Prop :=
  msg ∈ (start codec h.fs h.baseDir queueName).1.msgs.map MessagePtr.msg

instance (h : VirtualHost) (queueName : Bytes) (msg : Message) :
    Decidable (Recovers codec h queueName msg) := inferInstanceAs (Decidable (_ ∈ _))

/-- The broker still has the message: in memory, or on disk when its queue is durable. -/
def Held (h : VirtualHost) (queueName : Bytes) (m : MessagePtr) : Prop :=
  m ∈ h.contents queueName ∨ h.isDurable queueName = true ∧ Recovers codec h queueName m.msg

instance (h : VirtualHost) (queueName : Bytes) (m : MessagePtr) :
    Decidable (Held codec h queueName m) := inferInstanceAs (Decidable (_ ∨ _))

def fileKey (h : VirtualHost) (queueName : Bytes) : PathKey := resolve (path h.baseDir queueName)

variable {codec} {h : VirtualHost} {queueName : Bytes}

theorem recovers_iff {msg : Message} :
    Recovers codec h queueName msg ↔ h.fs.openable (fileKey h queueName) = true ∧
      msg ∈ loaded codec (h.fs.content (fileKey h queueName)) := by
  rw [Recovers, fileKey, start_msgs]
  split
  · next openable => simp [openable]
  · next closed => simp [closed]

end Held

section Spares

/-- Invalidating the message does not write into this file before `stop`. -/
def misses (key : PathKey) (stop : Nat) (file : Stream) (msg : Message) : Bool :=
  file.key ≠ key || !file.ready || msg.length = 0 || stop ≤ (msg.offset + 4) % 2 ^ 64

def removalMisses (key : PathKey) (stop : Nat) (h : VirtualHost) (queueName id : Bytes) : Bool :=
  (h.queueMessages.lookup queueName).all fun store =>
    (target store.msgs id).all fun e => misses key stop store.file e.1.msg

def headMisses (key : PathKey) (stop : Nat) (h : VirtualHost) (queueName : Bytes) : Bool :=
  (h.queueMessages.lookup queueName).all fun store =>
    store.front.all fun m => misses key stop store.file m.msg

/-- The operations that leave the file alone up to `stop`: what they invalidate lies
behind, and they neither compact the file nor use it for what they compact. -/
def spares (key : PathKey) (stop : Nat) (h : VirtualHost) : HostOp → Bool
  | .basicConsume queueName => headMisses key stop h queueName
  | .basicConsumeAndRemove queueName => headMisses key stop h queueName
  | .basicAck queueName msgId => removalMisses key stop h queueName msgId
  | .basicNack _ queueName msgId requeue _ =>
    requeue || !nackRemoves h queueName msgId || removalMisses key stop h queueName msgId
  | .basicQuery visit =>
    (queryTarget (visit.order h.queueMessages)).all fun pulled => headMisses key stop h pulled.1
  | .compactQueue queueName =>
    (h.queueMessages.lookup queueName).all fun store =>
      !store.file.isOpen || !h.fs.openable (resolve (store.filePath ++ str ".tmp")) ||
        resolve store.filePath ≠ key && resolve (store.filePath ++ str ".tmp") ≠ key
  | _ => true

/-- The operations of one step: a consume task may also remove a second message, which
it looks for behind the head. -/
def sparesStep (key : PathKey) (stop : Nat) (s : BrokerServer) : ServerOp → Bool
  | .request conn _ cid call =>
    (s.selectChannel conn cid).isNone || (BrokerServer.callOps call).all (spares key stop s.host)
  | .execute index =>
    (s.pool[index]?).all fun task =>
      (s.host.queueMessages.lookup task.qname).all fun store =>
        match store.msgs with
        | [] => true
        | m :: rest =>
          misses key stop store.file m.msg &&
            (s.cmp.choose task.qname).1.all fun c =>
              !c.autoAck || (target rest m.id).all fun e => misses key stop store.file e.1.msg
  | .compactQueue queueName => spares key stop s.host (.compactQueue queueName)
  | _ => true

variable {codec : Codec} {matchHeaders : StrMap Bytes → StrMap Bytes → Bool} {key : PathKey}
  {stop : Nat} {front : Bytes} {h h' : VirtualHost}

theorem misses_of_worse {file file' : Stream} {msg : Message} (sameKey : file'.key = file.key)
    (ready : file'.ready = true → file.ready = true) (before : misses key stop file msg = true) :
    misses key stop file' msg = true := by
  simp only [misses, Bool.or_eq_true, decide_eq_true_eq, Bool.not_eq_true'] at before ⊢
  rw [sameKey]
  refine before.imp_left fun early => early.imp_left fun outside =>
    outside.imp_right fun failed => ?_
  by_contra ready'
  simp [ready (by simpa using ready')] at failed

theorem behind_of_misses {file : Stream} {msg : Message} (short : front.length ≤ stop)
    (before : misses key stop file msg = true) (here : file.key = key) (ready : file.ready = true)
    (written : msg.length ≠ 0) : front.length ≤ (msg.offset + 4) % 2 ^ 64 := by
  simp only [misses, here, ready, written, ne_eq, not_true_eq_false, decide_false, Bool.not_true,
    Bool.or_self, Bool.false_or, decide_eq_true_eq] at before
  exact short.trans before

structure Grown (store store' : QueueMessage) : Prop where
  msgs : ∃ part, store'.msgs = store.msgs ++ part
  key : store'.file.key = store.file.key
  ready : store'.file.ready = true → store.file.ready = true

def StoresGrown (h h' : VirtualHost) : Prop :=
  ∀ name store, h.queueMessages.lookup name = some store →
    ∃ store', h'.queueMessages.lookup name = some store' ∧ Grown store store'

theorem Grown.refl (store : QueueMessage) : Grown store store := ⟨⟨[], by simp⟩, rfl, id⟩

theorem Grown.trans {a b c : QueueMessage} (first : Grown a b) (second : Grown b c) :
    Grown a c := by
  obtain ⟨part, msgs⟩ := first.msgs
  obtain ⟨more, msgs'⟩ := second.msgs
  exact ⟨⟨part ++ more, by rw [msgs', msgs, List.append_assoc]⟩, second.key.trans first.key,
    fun ready => first.ready (second.ready ready)⟩

theorem StoresGrown.delivers : Delivers codec StoresGrown where
  refl h name store found := ⟨store, found, .refl store⟩
  trans first second name store found := by
    obtain ⟨store', found', grown⟩ := first name store found
    obtain ⟨store'', found'', grown'⟩ := second name store' found'
    exact ⟨store'', found'', grown.trans grown'⟩
  seq h seq name store found := ⟨store, found, .refl store⟩
  deliver h queueName store bp body stored name other found := by
    simp only [VirtualHost.deliver, lookup_withStore]
    by_cases same : name = queueName
    · subst same
      rw [stored] at found
      cases found
      refine ⟨_, if_pos rfl, ⟨_, insert_msgs codec store h.fs bp body _⟩, ?_, ?_⟩
      · exact (insert_confined codec store h.fs bp body _).key
      · exact ready_of_persist_ready codec store.file h.fs (makeMessage bp body) _
    · exact ⟨other, by rw [if_neg same, found], .refl other⟩

theorem removalMisses_of_grown {queueName id : Bytes} (grown : StoresGrown h h')
    (existing : (target (h.contents queueName) id).isSome)
    (before : removalMisses key stop h queueName id = true) :
    removalMisses key stop h' queueName id = true := by
  cases stored : h.queueMessages.lookup queueName with
  | none => simp [contents_of_absent stored] at existing
  | some store =>
    rw [contents_of_lookup stored] at existing
    obtain ⟨⟨m, rest⟩, found⟩ := Option.isSome_iff_exists.mp existing
    obtain ⟨store', stored', ⟨part, msgs⟩, sameKey, ready⟩ := grown queueName store stored
    simp only [removalMisses, stored, Option.all_some, found] at before
    simp only [removalMisses, stored', Option.all_some, msgs, target_append found]
    exact misses_of_worse sameKey ready before

end Spares

section HostStep

variable {codec : Codec} {matchHeaders : StrMap Bytes → StrMap Bytes → Bool} {key : PathKey}
  {stop : Nat} {front : Bytes} {h : VirtualHost}

theorem shields_basicAck (shields : Shields key front h.fs) (short : front.length ≤ stop)
    {queueName id : Bytes} (spared : removalMisses key stop h queueName id = true) :
    Shields key front (h.basicAck codec queueName id).fs := by
  unfold VirtualHost.basicAck
  cases stored : h.queueMessages.lookup queueName with
  | none => exact shields
  | some store =>
    refine shields.remove codec ?_
    intro m rest found here ready written
    simp only [removalMisses, stored, Option.all_some, found] at spared
    exact behind_of_misses short spared here ready written

theorem shields_takeFront (shields : Shields key front h.fs) (short : front.length ≤ stop)
    {queueName : Bytes} (spared : headMisses key stop h queueName = true) :
    Shields key front (h.takeFront codec queueName).2.fs := by
  unfold VirtualHost.takeFront
  cases stored : h.queueMessages.lookup queueName with
  | none => exact shields
  | some store =>
    cases head : store.front with
    | none => simpa only [head] using shields
    | some m =>
      simp only [head]
      refine shields.remove codec ?_
      intro x rest found here ready written
      obtain ⟨after, msgs⟩ := List.head?_eq_some_iff.mp head
      rw [msgs, target_head] at found
      cases found
      simp only [headMisses, stored, Option.all_some, head] at spared
      exact behind_of_misses short spared here ready written

theorem shields_delivers :
    Delivers codec fun h h' => Shields key front h.fs → Shields key front h'.fs where
  refl _ := id
  trans first second shields := second (first shields)
  seq _ _ := id
  deliver _ _ store bp body _ shields := shields.insert codec store bp body _

theorem shields_basicNack (shields : Shields key front h.fs) (short : front.length ≤ stop)
    (visit : Visit Binding) {queueName id : Bytes} (requeue : Bool) (reason : Bytes)
    (spared : spares key stop h (.basicNack visit queueName id requeue reason) = true) :
    Shields key front (h.basicNack codec matchHeaders visit queueName id requeue reason).fs := by
  rcases basicNack_cases visit h queueName id requeue reason with
    unchanged | ⟨info, known, kept, ⟨plain, removal⟩ | ⟨t, configured, first, letter⟩⟩
  · rw [unchanged]
    exact shields
  · rw [removal]
    refine shields_basicAck shields short ?_
    simpa [spares, kept, nackRemoves, known, plain] using spared
  · obtain ⟨removes, hit⟩ := nackRemoves_of_found known first
    obtain ⟨mid, ⟨published, grown⟩, removal⟩ :=
      (shields_delivers.and StoresGrown.delivers).deadLetter visit h queueName id info.dlqConfig t
    rw [letter, removal]
    refine shields_basicAck (published shields) short (removalMisses_of_grown grown hit ?_)
    simpa [spares, kept, removes] using spared

theorem shields_basicQuery (shields : Shields key front h.fs) (short : front.length ≤ stop)
    (visit : Visit QueueMessage) (spared : spares key stop h (.basicQuery visit) = true) :
    Shields key front (h.basicQuery codec visit).2.fs := by
  rw [basicQuery_eq]
  simp only [spares] at spared
  cases found : queryTarget (visit.order h.queueMessages) with
  | none => exact shields
  | some pulled =>
    rw [found] at spared
    exact shields_takeFront shields short spared

theorem shields_compactQueue {queueName : Bytes}
    (hasName : ∀ n, key ≠ .replaced n) (shields : Shields key front h.fs)
    (spared : spares key stop h (.compactQueue queueName) = true) :
    Shields key front (h.compactQueue codec queueName).fs := by
  unfold VirtualHost.compactQueue
  simp only [spares] at spared
  cases stored : h.queueMessages.lookup queueName with
  | none => exact shields
  | some store =>
    simp only [stored, Option.all_some, Bool.or_eq_true, Bool.and_eq_true, Bool.not_eq_true',
      decide_eq_true_eq] at spared
    rcases spared with (closed | noTmp) | ⟨elsewhere, otherTmp⟩
    · have unchanged : store.compact codec h.fs = (store, h.fs) := by
        simp [QueueMessage.compact, closed]
      simp only [unchanged]
      exact shields
    · have unchanged : store.compact codec h.fs = (store, h.fs) := by
        simp [QueueMessage.compact, Stream.openOut, noTmp]
      simp only [unchanged]
      exact shields
    · exact shields.compact codec elsewhere otherTmp hasName

theorem shields_addStore (shields : Shields key front h.fs) (some' : front ≠ [])
    (queueMgr : MsgQueueManager) (queueName : Bytes) (durable : Bool) :
    Shields key front (VirtualHost.addStore codec { h with queueMgr } queueName durable).fs := by
  unfold VirtualHost.addStore
  split
  · exact shields
  · exact shields.new some' h.baseDir queueName

/-- One operation of the host keeps the front part of the file. -/
theorem shields_apply (hasName : ∀ n, key ≠ .replaced n)
    (some' : front ≠ []) (short : front.length ≤ stop) (shields : Shields key front h.fs)
    {op : HostOp} (spared : spares key stop h op = true) :
    Shields key front (op.apply codec matchHeaders h).fs := by
  cases op with
  | basicPublish queue bp body => exact shields_delivers.basicPublish h queue bp body shields
  | publishToExchange visit exchange bp body =>
    exact shields_delivers.publishToExchange visit h exchange bp body shields
  | publishEx visit exchange key bp body =>
    exact shields_delivers.publishEx visit h exchange key bp body shields
  | basicConsume queue => exact shields_takeFront shields short spared
  | basicConsumeAndRemove queue => exact shields_takeFront shields short spared
  | basicAck queue id => exact shields_basicAck shields short spared
  | basicNack visit queue id requeue reason =>
    exact shields_basicNack shields short visit requeue reason spared
  | basicQuery visit => exact shields_basicQuery shields short visit spared
  | compactQueue queue => exact shields_compactQueue hasName shields spared
  | queueRuntimeStats queue =>
    simp only [HostOp.apply, VirtualHost.queueRuntimeStats]
    split <;> exact shields
  | declareExchange name type durable autoDelete args =>
    simp only [HostOp.apply, VirtualHost.declareExchange]
    split <;> exact shields
  | deleteExchange name => exact shields
  | declareQueue name durable exclusive autoDelete args =>
    rw [HostOp.apply, declareQueue_eq, (bind_stores _ _ _ _ _).2.1]
    exact shields_addStore shields some' _ name durable
  | declareQueueWithDlq name durable exclusive autoDelete args config =>
    rw [HostOp.apply, declareQueueWithDlq_eq]
    exact shields_addStore shields some' _ name durable
  | deleteQueue name => exact shields
  | bind exchange queue key args =>
    rwa [HostOp.apply, (bind_stores h exchange queue key args).2.1]
  | unbind exchange queue =>
    simp only [HostOp.apply, VirtualHost.unbind]
    split <;> exact shields

end HostStep

section Kept

variable {codec : Codec} {matchHeaders : StrMap Bytes → StrMap Bytes → Bool} {stop : Nat}
  {front baseDir queueName : Bytes}

/-- What a run keeps for a message that waits for its acknowledgement: the queue, its
durability, and the front part of its file. -/
structure Kept (baseDir queueName front : Bytes) (h : VirtualHost) : Prop where
  shields : Shields (resolve (path baseDir queueName)) front h.fs
  baseDir : h.baseDir = baseDir
  durable : h.isDurable queueName = true

variable (codec matchHeaders) in
theorem Kept.apply {h : VirtualHost} (kept : Kept baseDir queueName front h) (some' : front ≠ [])
    (short : front.length ≤ stop) (op : HostOp) (stays : op ≠ .deleteQueue queueName)
    (spared : spares (resolve (path baseDir queueName)) stop h op = true) :
    Kept baseDir queueName front (op.apply codec matchHeaders h) := by
  obtain ⟨sameDir, durable⟩ := queue_kept codec matchHeaders h stays kept.durable
  exact ⟨shields_apply (resolve_ne_replaced _) some' short kept.shields spared,
    sameDir.trans kept.baseDir, durable⟩

end Kept

def deletes (queueName : Bytes) : ServerOp → Bool
  | .request _ _ _ (.deleteQueue name) => name = queueName
  | _ => false

section BrokerStep

variable {codec : Codec} {matchHeaders : StrMap Bytes → StrMap Bytes → Bool} {stop : Nat}
  {front baseDir queueName : Bytes} {s : BrokerServer}

/-- The second removal of a consume task is decided behind the head. -/
theorem removalMisses_takeFront {key : PathKey} {h : VirtualHost} {qname : Bytes}
    {store : QueueMessage} {m : MessagePtr} {rest : List MessagePtr}
    (stored : h.queueMessages.lookup qname = some store) (msgs : store.msgs = m :: rest)
    (spared : ((target rest m.id).all fun e => misses key stop store.file e.1.msg) = true) :
    removalMisses key stop (h.takeFront codec qname).2 qname m.id = true := by
  have front : store.front = some m := by simp [QueueMessage.front, msgs]
  have removed := remove_of_target codec store h.fs (msgs ▸ target_head m rest)
  simp only [VirtualHost.takeFront, stored, front, removalMisses, lookup_withStore, if_true,
    Option.all_some, removed]
  cases found : target rest m.id with
  | none => rfl
  | some e =>
    rw [found, Option.all_some] at spared
    rw [Option.all_some]
    exact misses_of_worse (invalidatePersistent_confined codec store.file h.fs m.msg).key
      (ready_of_invalidatePersistent_ready codec store.file h.fs m.msg) spared

theorem callOps_cases (call : Call) :
    BrokerServer.callOps call = [] ∨ ∃ op, BrokerServer.callOps call = [op] := by
  cases call <;> simp [BrokerServer.callOps]

theorem callOps_stays {conn : Nat} {rid cid : Bytes} {call : Call} {op : HostOp}
    (stays : deletes queueName (.request conn rid cid call) = false)
    (is : BrokerServer.callOps call = [op]) : op ≠ .deleteQueue queueName := by
  rintro rfl
  cases call <;> simp [BrokerServer.callOps] at is
  subst is
  simp [deletes] at stays

theorem Kept.consume (kept : Kept baseDir queueName front s.host) (some' : front ≠ [])
    (short : front.length ≤ stop) {index : Nat} {task : Task} (waiting : s.pool[index]? = some task)
    (spared : sparesStep (resolve (path baseDir queueName)) stop s (.execute index) = true) :
    Kept baseDir queueName front (exec (HostOp.apply codec matchHeaders) s.host
      (BrokerServer.consumeOps codec s task.qname)) := by
  simp only [sparesStep, waiting, Option.all_some] at spared
  simp only [BrokerServer.consumeOps, VirtualHost.basicConsume, exec_cons]
  cases stored : s.host.queueMessages.lookup task.qname with
  | none =>
    have nothing := takeFront_empty codec (contents_of_absent stored)
    simpa only [HostOp.apply, VirtualHost.basicConsume, nothing, exec_nil] using kept
  | some store =>
    rw [stored, Option.all_some] at spared
    cases msgs : store.msgs with
    | nil =>
      have nothing := takeFront_empty codec ((contents_of_lookup stored).trans msgs)
      simpa only [HostOp.apply, VirtualHost.basicConsume, nothing, exec_nil] using kept
    | cons m rest =>
      simp only [msgs, Bool.and_eq_true] at spared
      have head : headMisses (resolve (path baseDir queueName)) stop s.host task.qname = true := by
        simpa [headMisses, stored, QueueMessage.front, msgs] using spared.1
      have taken : Kept baseDir queueName front (s.host.takeFront codec task.qname).2 :=
        kept.apply codec matchHeaders some' short (.basicConsume task.qname) (by simp) head
      rw [(takeFront_cons codec ((contents_of_lookup stored).trans msgs)).1]
      cases chosen : (s.cmp.choose task.qname).1 with
      | none => exact taken
      | some c =>
        cases auto : c.autoAck with
        | false =>
          simp only [auto, Bool.false_eq_true, if_false, exec_nil]
          exact taken
        | true =>
          simp only [chosen, Option.all_some, auto, Bool.not_true, Bool.false_or] at spared
          simp only [auto, if_true]
          exact taken.apply codec matchHeaders some' short (.basicAck task.qname m.id) (by simp)
            (removalMisses_takeFront stored msgs spared.2)

theorem Kept.step (kept : Kept baseDir queueName front s.host) (some' : front ≠ [])
    (short : front.length ≤ stop) {op : ServerOp} (stays : deletes queueName op = false)
    (spared : sparesStep (resolve (path baseDir queueName)) stop s op = true) :
    Kept baseDir queueName front (op.apply codec matchHeaders s).host := by
  rw [BrokerServer.apply_host]
  cases op with
  | execute index =>
    simp only [BrokerServer.hostOps]
    cases waiting : s.pool[index]? with
    | none => exact kept
    | some task => exact kept.consume some' short waiting spared
  | request conn rid cid call =>
    simp only [BrokerServer.hostOps]
    split
    next selected =>
      simp only [sparesStep, Option.isNone_eq_false_iff.mpr selected, Bool.false_or] at spared
      rcases callOps_cases call with none' | ⟨op, only⟩
      · rw [none']
        exact kept
      · rw [only, List.all_cons, List.all_nil, Bool.and_true] at spared
        rw [only]
        exact kept.apply codec matchHeaders some' short op (callOps_stays stays only) spared
    · exact kept
  | queueRuntimeStats name =>
    exact kept.apply codec matchHeaders some' short (.queueRuntimeStats name) (by simp) rfl
  | compactQueue name =>
    exact kept.apply codec matchHeaders some' short (.compactQueue name) (by simp) spared
  | _ => exact kept

theorem Kept.run (kept : Kept baseDir queueName front s.host) (some' : front ≠ [])
    (short : front.length ≤ stop) {ops : List ServerOp}
    (stays : ∀ op ∈ ops, deletes queueName op = false)
    (spared : Along (ServerOp.apply codec matchHeaders)
      (fun s op => sparesStep (resolve (path baseDir queueName)) stop s op = true) s ops) :
    Kept baseDir queueName front (exec (ServerOp.apply codec matchHeaders) s ops).host := by
  have steps := (along_of_forall (fun op member _ => stays op member) s).and spared
  exact @Along.invariant _ _ _ _ (fun t => Kept baseDir queueName front t.host)
    (fun t op kept step => kept.step some' short step.1 step.2) s ops kept steps

end BrokerStep

/-- The stream of the queue's store is closed or has failed, as `recovery` leaves it. -/
def streamFailed (h : VirtualHost) (queueName : Bytes) : Bool :=
  (h.queueMessages.lookup queueName).all fun store => !store.file.ready

section Run

variable {codec : Codec} {matchHeaders : StrMap Bytes → StrMap Bytes → Bool} {s : BrokerServer}
  {index : Nat} {d : Delivery}

theorem handOver_inv (delivered : (s.execute codec index).1 = some d) :
    ∃ task rest, s.pool[index]? = some task ∧ task.qname = d.qname ∧
      (s.cmp.choose d.qname).1 = some d.consumer ∧ s.host.contents d.qname = d.message :: rest := by
  simp only [BrokerServer.execute] at delivered
  cases waiting : s.pool[index]? with
  | none => simp [waiting] at delivered
  | some task =>
    simp only [waiting] at delivered
    obtain ⟨named, chosen, rest, held⟩ := consume_inv codec delivered
    exact ⟨task, rest, rfl, named.symm, named ▸ chosen, named ▸ held⟩

theorem handOver_leaves_memory (reached : s.Reachable codec matchHeaders)
    (delivered : (s.execute codec index).1 = some d) (manual : d.consumer.autoAck = false) :
    d.message ∉ (s.execute codec index).2.host.contents d.qname := by
  obtain ⟨task, rest, waiting, named, chosen, held⟩ := handOver_inv delivered
  have distinct := reached.host.wellFormed.contents_nodup d.qname
  rw [held, List.nodup_cons] at distinct
  obtain ⟨response, -, after⟩ := consume_of_cons codec
    (s := { s with pool := s.pool.eraseIdx index }) held chosen
  simp only [manual, Bool.false_eq_true, if_false] at after
  simp only [BrokerServer.execute, waiting, named, after]
  rw [(takeFront_cons codec held).2, Function.update_self]
  exact distinct.1

theorem handOver_spares (delivered : (s.execute codec index).1 = some d)
    (manual : d.consumer.autoAck = false) (failed : streamFailed s.host d.qname = true)
    (key : PathKey) (stop : Nat) : sparesStep key stop s (.execute index) = true := by
  obtain ⟨⟨channel, -⟩, rest, waiting, rfl, chosen, held⟩ := handOver_inv delivered
  simp only [sparesStep, waiting, Option.all_some, chosen, manual]
  cases stored : s.host.queueMessages.lookup d.qname with
  | none => rfl
  | some store =>
    rw [contents_of_lookup stored] at held
    simp only [streamFailed, stored, Option.all_some] at failed
    simp [held, misses, failed]

variable (codec matchHeaders) in
/-- A message of a durable queue that is handed over while the stream of the queue is
failed and the record of the message is on disk stays there, as long as the queue exists
and no step compacts the file or invalidates in front of the end of the record. -/
theorem unacknowledged_held (delivered : (s.execute codec index).1 = some d)
    (manual : d.consumer.autoAck = false) (durable : s.host.isDurable d.qname = true)
    (recorded : Recovers codec s.host d.qname d.message.msg)
    (failed : streamFailed s.host d.qname = true) (ops : List ServerOp)
    (stays : ∀ op ∈ ops, deletes d.qname op = false)
    (spared : Along (ServerOp.apply codec matchHeaders)
      (fun t op => sparesStep (fileKey s.host d.qname)
        (d.message.msg.offset + d.message.msg.length) t op = true)
      ((ServerOp.execute index).apply codec matchHeaders s) ops) :
    Held codec (exec (ServerOp.apply codec matchHeaders) s (.execute index :: ops)).host d.qname
      d.message := by
  obtain ⟨openable, onDisk⟩ := recovers_iff.mp recorded
  have start : Kept s.host.baseDir d.qname ((s.host.fs.content (fileKey s.host d.qname)).take
      (d.message.msg.offset + d.message.msg.length)) s.host :=
    ⟨⟨openable, List.take_prefix _ _⟩, rfl, durable⟩
  have kept := start.run (front_ne_nil onDisk) (List.length_take_le _ _)
    (List.forall_mem_cons.mpr ⟨rfl, stays⟩) ⟨handOver_spares delivered manual failed _ _, spared⟩
  refine Or.inr ⟨kept.durable, recovers_iff.mpr ?_⟩
  rw [fileKey, kept.baseDir]
  exact ⟨kept.shields.openable,
    loaded_of_front onDisk (s.host.fs.content_length_lt _) kept.shields.starts⟩

end Run

def manualBroker (host : VirtualHost) (ops : List ServerOp) : BrokerServer :=
  exec (ServerOp.apply Wire.codec fun _ _ => false) (.new host)
    ([.newConnection 0, .openChannel 0 [] (str "c"),
      .request 0 [] (str "c") (.declareQueue (str "q") true false false ∅),
      .request 0 [] (str "c") (.basicConsume (str "t") (str "q") false)] ++ ops)

def publication : ServerOp :=
  .request 0 [] (str "c")
    (.basicPublish .stored .stored [] (some { routingKey := str "q" }) (str "x"))

def recordedHost : VirtualHost :=
  { VirtualHost.blank with
    fs := VirtualHost.blank.fs.put (fileKey .blank (str "q"))
      (FramedLog.frame (Wire.codec.serializeToString { body := str "y", valid := validMark }))
      (by decide) }

theorem unacknowledged_held_example :
    let s := manualBroker recordedHost [publication]
    ∃ d, (s.execute Wire.codec 0).1 = some d ∧ d.consumer.autoAck = false ∧
      Held Wire.codec (exec (ServerOp.apply Wire.codec fun _ _ => false) s
        [.execute 0, .queueRuntimeStats (str "q")]).host d.qname d.message := by
  intro s
  obtain ⟨d, delivered⟩ : ∃ d, (s.execute Wire.codec 0).1 = some d :=
    Option.isSome_iff_exists.mp (by decide)
  have facts : (s.execute Wire.codec 0).1.all (fun d => decide (d.consumer.autoAck = false ∧
      s.host.isDurable d.qname = true ∧ Recovers Wire.codec s.host d.qname d.message.msg ∧
        streamFailed s.host d.qname = true)) = true := by decide
  rw [delivered, Option.all_some, decide_eq_true_eq] at facts
  obtain ⟨manual, durable, recorded, failed⟩ := facts
  exact ⟨d, delivered, manual, unacknowledged_held Wire.codec (fun _ _ => false) delivered manual
    durable recorded failed [.queueRuntimeStats (str "q")] (by simp [deletes]) ⟨rfl, trivial⟩⟩

/-- On a good stream the hand-over itself makes the only copy invalid. -/
theorem manual_delivery_loses_message :
    let s := manualBroker .blank [.queueRuntimeStats (str "q"), publication]
    s.Reachable Wire.codec (fun _ _ => false) ∧
      ∃ d, (s.execute Wire.codec 0).1 = some d ∧ d.consumer.autoAck = false ∧
        s.host.isDurable d.qname = true ∧ Recovers Wire.codec s.host d.qname d.message.msg ∧
        ¬ Held Wire.codec (exec (ServerOp.apply Wire.codec fun _ _ => false) s
          [.execute 0]).host d.qname d.message := by
  intro s
  obtain ⟨d, delivered⟩ : ∃ d, (s.execute Wire.codec 0).1 = some d :=
    Option.isSome_iff_exists.mp (by decide)
  have facts : (s.execute Wire.codec 0).1.all (fun d => decide (d.consumer.autoAck = false ∧
      s.host.isDurable d.qname = true ∧ Recovers Wire.codec s.host d.qname d.message.msg ∧
        ¬ Held Wire.codec (exec (ServerOp.apply Wire.codec fun _ _ => false) s
          [.execute 0]).host d.qname d.message)) = true := by decide
  rw [delivered, Option.all_some, decide_eq_true_eq] at facts
  exact ⟨Reachable.exec (.start ⟨_, blank_initial, rfl⟩) _, d, delivered, facts⟩

end HzMq.Delivery
