import HzMq.Server.QueueMessage.FileEffects
import HzMq.Server.VirtualHost.Frame

/-!
# Which file a store writes to

The stream of a store is opened on the file of the store's own path and stays on that
file when a compaction of another store renames it. An operation on the store changes
the file that the stream is on, a compaction that of the path and its temporary file.
-/

namespace HzMq

open FileStream

namespace QueueMessage

/-- An open stream is on a file that the rule allows for the store's path. -/
def OnFile (rule : Bytes → PathKey → Prop) (q : QueueMessage) : Prop :=
  q.file.isOpen = true → rule q.filePath q.file.key

def Own (filePath : Bytes) (key : PathKey) : Prop := key = resolve filePath

theorem Own.home (filePath : Bytes) : Own filePath (resolve filePath) := rfl

/-- Where the stream of a store may be: on the file of its path, on one that another file has
replaced, or, when its path is another's temporary file, on what that was renamed to. -/
inductive Moored (baseDir filePath : Bytes) : PathKey → Prop
  | own : Moored baseDir filePath (resolve filePath)
  | replaced (n : Nat) : Moored baseDir filePath (.replaced n)
  | renamed {name : Bytes} :
      resolve (path baseDir name ++ str ".tmp") ≠ resolve (path baseDir name) →
      resolve (path baseDir name ++ str ".tmp") = resolve filePath →
      Moored baseDir filePath (resolve (path baseDir name))

theorem Moored.follow {baseDir filePath name : Bytes} {key : PathKey}
    (moored : Moored baseDir filePath key) {store : QueueMessage}
    (stored : store.filePath = path baseDir name) (fs : FileSystem) :
    Moored baseDir filePath (store.follow fs key) := by
  simp only [QueueMessage.follow]
  split
  · unfold FileSystem.follow
    rw [stored]
    split_ifs with same atNew atOld
    · exact moored
    · exact .replaced _
    · subst atOld
      generalize source : resolve (path baseDir name ++ str ".tmp") = key at *
      cases moored with
      | own => exact .renamed (source ▸ same) source
      | replaced n => exact absurd source (resolve_ne_replaced _ n)
      | renamed other =>
        exact absurd source (tmp_ne_file (zero_not_mem_of_tmp_ne (source ▸ same))
          (zero_not_mem_of_tmp_ne other))
    · exact moored
  · exact moored

section OnFile

variable (codec : Codec) {rule : Bytes → PathKey → Prop} {q q' : QueueMessage} (fs : FileSystem)

theorem OnFile.of_confined {fs fs' : FileSystem} (onFile : q.OnFile rule)
    (confined : Stream.Confined q.file fs q'.file fs') (filePath : q'.filePath = q.filePath) :
    q'.OnFile rule := by
  intro isOpen
  rw [confined.key, filePath]
  exact onFile (confined.isOpen ▸ isOpen)

theorem openInOut_onFile (home : ∀ filePath, rule filePath (resolve filePath))
    {filePath : Bytes} {file : Stream} (closed : file.isOpen = false) :
    (file.openInOut fs filePath).isOpen = true →
      rule filePath (file.openInOut fs filePath).key := by
  intro isOpen
  rw [Stream.openInOut_key file fs filePath closed isOpen]
  exact home filePath

theorem close_isOpen (file : Stream) : file.close.isOpen = false := by
  unfold Stream.close
  split
  · rfl
  · next closed => exact Bool.eq_false_iff.mpr closed

theorem new_onFile (home : ∀ filePath, rule filePath (resolve filePath))
    (baseDir queueName : Bytes) : (new fs baseDir queueName).1.OnFile rule := by
  simp only [new]
  split
  · exact openInOut_onFile fs home rfl
  · exact openInOut_onFile _ home (close_isOpen _)

theorem OnFile.recovery (onFile : q.OnFile rule) : (q.recovery codec fs).OnFile rule :=
  onFile.of_confined (recovery_confined codec q fs) (by simp)

theorem OnFile.insert (onFile : q.OnFile rule) (bp : Option BasicProperties) (body : Bytes)
    (durable : Bool) : (q.insert codec fs bp body durable).2.1.OnFile rule :=
  onFile.of_confined (insert_confined codec q fs bp body durable) rfl

theorem OnFile.remove (onFile : q.OnFile rule) (id : Bytes) :
    (q.remove codec fs id).1.OnFile rule :=
  onFile.of_confined (remove_confined codec q fs id) (remove_filePath codec q fs id)

theorem OnFile.getStats (onFile : q.OnFile rule) : (q.getStats codec fs).2.OnFile rule :=
  onFile.of_confined (getStats_confined codec q fs) (by simp)

theorem OnFile.compact (home : ∀ filePath, rule filePath (resolve filePath))
    (onFile : q.OnFile rule) : (q.compact codec fs).1.OnFile rule := by
  simp only [QueueMessage.compact]
  split
  · split
    · exact openInOut_onFile _ home (close_isOpen _)
    · exact onFile
  · exact onFile

variable {fs} {key : PathKey}

/-- Writing to a store does not change other files than that of its stream. -/
theorem sameAt_of_confined {fs' : FileSystem}
    (confined : Stream.Confined q.file fs q'.file fs')
    (closed : q.file.isOpen = false → fs' = fs) (other : q.file.isOpen = true → key ≠ q.file.key) :
    FileSystem.SameAt key fs fs' := by
  cases isOpen : q.file.isOpen with
  | false =>
    rw [closed isOpen]
    exact FileSystem.SameAt.refl fs key
  | true => exact confined.sameAt (other isOpen)

theorem insert_sameAt (other : q.file.isOpen = true → key ≠ q.file.key)
    (bp : Option BasicProperties) (body : Bytes) (durable : Bool) :
    FileSystem.SameAt key fs (q.insert codec fs bp body durable).2.2 := by
  refine sameAt_of_confined (insert_confined codec q fs bp body durable) (fun closed => ?_) other
  change (persist codec q.file fs (makeMessage bp body) durable).2.2.2 = fs
  unfold persist writePersistent
  split
  · simp [closed]
  · rfl

theorem remove_sameAt (other : q.file.isOpen = true → key ≠ q.file.key) (id : Bytes) :
    FileSystem.SameAt key fs (q.remove codec fs id).2 := by
  refine sameAt_of_confined (remove_confined codec q fs id) (fun closed => ?_) other
  rw [remove_eq]
  split
  · rfl
  · simp [invalidatePersistent, closed]

theorem OnFile.elsewhere (onFile : q.OnFile Own) (other : key ≠ resolve q.filePath) :
    q.file.isOpen = true → key ≠ q.file.key := fun isOpen => onFile isOpen ▸ other

end OnFile

end QueueMessage

namespace VirtualHost

open QueueMessage

theorem apply_baseDir (codec : Codec) (matchHeaders : StrMap Bytes → StrMap Bytes → Bool)
    (h : VirtualHost) (op : HostOp) : (op.apply codec matchHeaders h).baseDir = h.baseDir := by
  by_cases messages : Frame.onMessages op = true
  · have frame : Frame h (op.apply codec matchHeaders h) := Frame.apply h messages
    exact frame.baseDir
  cases op with
  | declareExchange name type durable autoDelete args =>
    simp only [HostOp.apply, VirtualHost.declareExchange]
    split <;> rfl
  | declareQueue name durable exclusive autoDelete args =>
    rw [HostOp.apply, declareQueue_eq]
    exact (bind_mgr _ _ _ _ _).2.trans (addStore_mgr _ codec name durable).2
  | declareQueueWithDlq name durable exclusive autoDelete args config =>
    rw [HostOp.apply, declareQueueWithDlq_eq]
    exact (addStore_mgr _ codec name durable).2
  | deleteExchange name => rfl
  | deleteQueue name => rfl
  | bind exchange queue key args => exact (bind_mgr h exchange queue key args).2
  | unbind exchange queue => exact (unbind_stores h exchange queue).2.2
  | _ => exact absurd rfl messages

def Placed (rule : Bytes → PathKey → Prop) (h : VirtualHost) : Prop :=
  ∀ name store, h.queueMessages.lookup name = some store → store.OnFile rule

namespace Placed

variable {codec : Codec} {matchHeaders : StrMap Bytes → StrMap Bytes → Bool}
  {rule : Bytes → PathKey → Prop} {h : VirtualHost}

theorem new (name baseDir : Bytes) (exchanges : StrMap Exchange) (seq : Nat) (fs : FileSystem) :
    Placed rule (VirtualHost.new name baseDir exchanges seq fs) := fun name store stored => by
  simp [VirtualHost.new] at stored

theorem of_stores {h' : VirtualHost} (placed : Placed rule h)
    (same : h'.queueMessages = h.queueMessages) : Placed rule h' := fun name store stored =>
  placed name store (same ▸ stored)

theorem withStore (placed : Placed rule h) (queueName : Bytes) {store : QueueMessage}
    (onFile : store.OnFile rule) (fs : FileSystem) :
    Placed rule (h.withStore queueName store fs) := by
  intro name other stored
  rw [lookup_withStore] at stored
  split at stored
  · exact Option.some.inj stored ▸ onFile
  · exact placed name other stored

theorem delivers : Delivers codec fun h h' => Placed rule h → Placed rule h' where
  refl _ := id
  trans first second placed := second (first placed)
  seq _ _ placed := placed.of_stores rfl
  deliver h queueName store bp body stored placed :=
    placed.withStore queueName ((placed queueName store stored).insert codec h.fs bp body _) _

theorem takeFront (placed : Placed rule h) (queueName : Bytes) :
    Placed rule (h.takeFront codec queueName).2 := by
  unfold VirtualHost.takeFront
  split
  · exact placed
  · next store stored =>
    split
    · exact placed
    · next msg _ =>
      exact placed.withStore queueName ((placed queueName store stored).remove codec h.fs msg.id) _

theorem basicAck (placed : Placed rule h) (queueName msgId : Bytes) :
    Placed rule (h.basicAck codec queueName msgId) := by
  unfold VirtualHost.basicAck
  split
  · exact placed
  · next store stored =>
    exact placed.withStore queueName ((placed queueName store stored).remove codec h.fs msgId) _

theorem basicNack (placed : Placed rule h) (visit : Visit Binding) (queueName msgId : Bytes)
    (requeue : Bool) (reason : Bytes) :
    Placed rule (h.basicNack codec matchHeaders visit queueName msgId requeue reason) := by
  rcases basicNack_cases visit h queueName msgId requeue reason with
    unchanged | ⟨info, -, -, ⟨-, removal⟩ | ⟨t, -, -, letter⟩⟩
  · rwa [unchanged]
  · rw [removal]
    exact placed.basicAck queueName msgId
  · obtain ⟨mid, published, removal⟩ :=
      delivers.deadLetter visit h queueName msgId info.dlqConfig t
    rw [letter, removal]
    exact (published placed).basicAck queueName msgId

theorem addStore (home : ∀ filePath, rule filePath (resolve filePath)) (placed : Placed rule h)
    (queueMgr : MsgQueueManager) (queueName : Bytes) (durable : Bool) :
    Placed rule (VirtualHost.addStore codec { h with queueMgr } queueName durable) := by
  unfold VirtualHost.addStore
  split
  · exact placed
  · have kept : Placed rule { h with queueMgr } := placed
    have fresh := new_onFile h.fs home h.baseDir queueName
    refine kept.withStore queueName ?_ _
    split
    · exact fresh.recovery codec (QueueMessage.new h.fs h.baseDir queueName).2
    · exact fresh

theorem bind (placed : Placed rule h) (exchange queue key : Bytes) (args : StrMap Bytes) :
    Placed rule (h.bind exchange queue key args).2 :=
  placed.of_stores (bind_stores h exchange queue key args).1

theorem apply (home : ∀ filePath, rule filePath (resolve filePath)) (placed : Placed rule h)
    {op : HostOp} (followed : ∀ queue store, op = .compactQueue queue →
      h.queueMessages.lookup queue = some store → ∀ name ≠ queue, ∀ other,
        (h.follow (store.follow h.fs)).queueMessages.lookup name = some other →
          other.OnFile rule) :
    Placed rule (op.apply codec matchHeaders h) := by
  cases op with
  | declareExchange name type durable autoDelete args =>
    simp only [HostOp.apply, VirtualHost.declareExchange]
    split <;> exact placed
  | deleteExchange name => exact placed
  | declareQueue name durable exclusive autoDelete args =>
    rw [HostOp.apply, declareQueue_eq]
    exact (placed.addStore home _ name durable).bind [] name name ∅
  | declareQueueWithDlq name durable exclusive autoDelete args config =>
    rw [HostOp.apply, declareQueueWithDlq_eq]
    exact placed.addStore home _ name durable
  | deleteQueue queue =>
    intro name store stored
    rw [HostOp.apply, lookup_deleteQueue] at stored
    split at stored
    · cases stored
    · exact placed name store stored
  | bind exchange queue key args => exact placed.bind exchange queue key args
  | unbind exchange queue => exact placed.of_stores (unbind_stores h exchange queue).2.1
  | basicPublish queue bp body => exact delivers.basicPublish h queue bp body placed
  | publishToExchange visit exchange bp body =>
    exact delivers.publishToExchange visit h exchange bp body placed
  | publishEx visit exchange key bp body =>
    exact delivers.publishEx visit h exchange key bp body placed
  | basicConsume queue => exact placed.takeFront queue
  | basicConsumeAndRemove queue => exact placed.takeFront queue
  | basicAck queue id => exact placed.basicAck queue id
  | basicNack visit queue id requeue reason => exact placed.basicNack visit queue id requeue reason
  | basicQuery visit =>
    rw [HostOp.apply, basicQuery_eq]
    split
    · exact placed
    · exact placed.takeFront _
  | queueRuntimeStats queue =>
    simp only [HostOp.apply, VirtualHost.queueRuntimeStats]
    split
    · exact placed
    · next store stored =>
      exact placed.withStore queue ((placed queue store stored).getStats codec h.fs) _
  | compactQueue queue =>
    simp only [HostOp.apply, VirtualHost.compactQueue]
    split
    · exact placed
    · next store stored =>
      intro name other found
      rw [lookup_withStore] at found
      split at found
      · exact Option.some.inj found ▸ (placed queue store stored).compact codec h.fs home
      · next differs => exact followed queue store rfl stored name differs other found

end Placed

section Moored

variable {codec : Codec} {matchHeaders : StrMap Bytes → StrMap Bytes → Bool} {h : VirtualHost}

theorem Placed.follow (ok : WellFormed h) (placed : Placed (Moored h.baseDir) h)
    {queueName : Bytes} {store : QueueMessage}
    (stored : h.queueMessages.lookup queueName = some store) :
    Placed (Moored h.baseDir) (h.follow (store.follow h.fs)) := by
  intro name moved found isOpen
  rw [lookup_follow, Option.map_eq_some_iff] at found
  obtain ⟨before, known, rfl⟩ := found
  rw [Stream.rekey_isOpen] at isOpen
  rw [Stream.rekey_of_isOpen isOpen]
  exact (placed name before known isOpen).follow (ok.paths queueName store stored) h.fs

/-- In whatever way a host was used, its streams are where renamings took them. -/
theorem Reachable.moored (reached : h.Reachable codec matchHeaders) :
    Placed (Moored h.baseDir) h := by
  induction reached with
  | start initial =>
    obtain ⟨name, baseDir, exchanges, seq, fs, rfl⟩ := initial
    exact Placed.new name baseDir exchanges seq fs
  | next op before placed =>
    rw [apply_baseDir]
    exact placed.apply (fun _ => .own) fun _ _ _ stored name _ =>
      placed.follow (Reachable.wellFormed before) stored name

end Moored

end VirtualHost

end HzMq
