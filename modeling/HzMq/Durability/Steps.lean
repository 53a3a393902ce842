import HzMq.Delivery.Acknowledge
import HzMq.Durability.Disk

/-!
# What each operation does to the files

Publications are runs of deliveries; a negative acknowledgement is one of these and then
a removal; statistics and compaction touch one queue, and so do declarations.
-/

namespace HzMq.Durability

open FileStream FramedLog VirtualHost QueueMessage Persistence Delivery HzMq.Topology

variable {codec : Codec} {matchHeaders : StrMap Bytes → StrMap Bytes → Bool}
  {names : List Bytes} {h h' : VirtualHost} {queueName : Bytes}

theorem Housed.of_frame (housed : Housed names h) (frame : Frame h h') (placed : Placed Own h')
    (openable : h'.fs.openable = h.fs.openable) : Housed names h' where
  ok := housed.ok.of_frame frame
  placed := placed
  apart := frame.baseDir.symm ▸ housed.apart
  named name stored := housed.named name (frame.stores name ▸ stored)
  openable name member := by
    rw [openable, fileKey, frame.baseDir]
    exact housed.openable name member

section Publish

theorem openable_delivers : Delivers codec fun h h' => h'.fs.openable = h.fs.openable where
  refl _ := rfl
  trans first second := second.trans first
  seq _ _ := rfl
  deliver h _ store bp body _ := (insert_confined codec store h.fs bp body _).openable

theorem Carried.delivers (member : queueName ∈ names) : Delivers codec fun h h' =>
    Housed names h → Housed names h' ∧ Carried codec queueName h h' where
  refl h housed := ⟨housed, .refl h⟩
  trans first second housed := by
    obtain ⟨between, carried⟩ := first housed
    obtain ⟨after, carried'⟩ := second between
    exact ⟨after, carried.trans carried'⟩
  seq h seq housed := by
    have frame := Frame.seq h seq
    exact ⟨housed.of_frame frame (housed.placed.of_stores rfl) rfl,
      .elsewhere frame rfl (FileSystem.SameAt.refl _ _)⟩
  deliver h other store bp body stored housed := by
    have frame : Frame h (h.deliver codec other store bp body).2 :=
      Frame.delivers.deliver h other store bp body stored
    have placed : Placed Own (h.deliver codec other store bp body).2 :=
      Placed.delivers.deliver h other store bp body stored housed.placed
    have openable : (h.deliver codec other store bp body).2.fs.openable = h.fs.openable :=
      openable_delivers.deliver h other store bp body stored
    exact ⟨housed.of_frame frame placed openable,
      Carried.deliver codec housed member stored bp body⟩

end Publish

section Reject

variable {other id : Bytes} {t : MessagePtr}

/-- A dead letter has been published and then its original is removed. Whatever was new in the
queue is still there, and the queue is not what it was. -/
theorem rejected_contents (ok : WellFormed h') (carried : Carried codec queueName h h')
    (found : (h.contents queueName).find? (fun x => x.id == id) = some t) :
    (h'.basicAck codec queueName id).contents queueName ≠ h.contents queueName ∧
      ∀ m ∈ h'.contents queueName, m ∉ h.contents queueName →
        m ∈ (h'.basicAck codec queueName id).contents queueName := by
  obtain ⟨added, joined⟩ := carried.more
  have bears : t.id = id := by simpa using List.find?_some found
  have queued := List.mem_of_find?_eq_some found
  obtain ⟨⟨x, rest⟩, target'⟩ := Option.isSome_iff_exists.mp (target_isSome_of_mem queued)
  rw [bears] at target'
  have removed : (h'.basicAck codec queueName id).contents queueName = rest ++ added := by
    rw [basicAck_of_target codec (joined ▸ target_append target' added), Function.update_self]
  have apart : (h.contents queueName ++ added).Nodup := joined ▸ ok.contents_nodup queueName
  rw [removed, joined]
  constructor
  · intro same
    have noneAdded : added = [] := by
      refine List.eq_nil_iff_forall_not_mem.mpr fun m new => ?_
      exact (List.nodup_append.mp apart).2.2 m (same ▸ List.mem_append_right _ new) m new rfl
    obtain ⟨before, after, split, rfl, -, -⟩ := target_split target'
    rw [noneAdded, List.append_nil, split] at same
    have lengths := congrArg List.length same
    simp at lengths
  · intro m member new
    exact List.mem_append_right _ ((List.mem_append.mp member).resolve_left new)

variable (codec) in
theorem basicAck_subset (h : VirtualHost) (other id : Bytes) (queueName : Bytes) :
    (h.basicAck codec other id).contents queueName ⊆ h.contents queueName := by
  by_cases differs : queueName ≠ other
  · rw [basicAck_others codec h id differs]
    exact List.Subset.refl _
  obtain rfl : queueName = other := not_not.mp differs
  cases found : target (h.contents queueName) id with
  | none =>
    rw [basicAck_of_none codec found]
    exact List.Subset.refl _
  | some pair =>
    rw [basicAck_of_target codec found, Function.update_self]
    exact (rest_sublist_of_target found).subset

theorem Safe.reject (ok : WellFormed h') (carried : Carried codec queueName h h')
    (found : (h.contents other).find? (fun x => x.id == id) = some t)
    (safe : Safe codec h (h'.basicAck codec other id) queueName) :
    Safe codec h h' queueName ∧ Safe codec h' (h'.basicAck codec other id) queueName := by
  have flag : h'.isDurable queueName = h.isDurable queueName :=
    isDurable_congr carried.frame.queueMgr
  have left := basicAck_subset codec h' other id queueName
  by_cases differs : queueName ≠ other
  · have same := basicAck_others codec h' id differs
    refine ⟨fun durable changed => ?_, fun _ changed => absurd same changed⟩
    obtain ⟨healthy, restores⟩ := safe durable (same ▸ changed)
    exact ⟨ready_of_basicAck_ready other id healthy, same ▸ restores⟩
  obtain rfl : queueName = other := not_not.mp differs
  obtain ⟨moved, stays⟩ := rejected_contents ok carried found
  constructor
  · intro durable _
    obtain ⟨healthy, restores⟩ := safe durable moved
    exact ⟨ready_of_basicAck_ready queueName id healthy,
      fun m member new => restores m (stays m member new) new⟩
  · intro durable _
    exact ⟨(safe (flag ▸ durable) moved).1, fun m member new => absurd (left member) new⟩

theorem Remembers.basicNack (housed : Housed names h) (member : queueName ∈ names)
    (visit : Visit Binding) (other id : Bytes) (requeue : Bool) (reason : Bytes)
    (saved : Saved codec h queueName)
    (safe : Safe codec h (h.basicNack codec matchHeaders visit other id requeue reason)
      queueName) :
    Remembers codec h (h.basicNack codec matchHeaders visit other id requeue reason)
      queueName := by
  rcases basicNack_cases visit h other id requeue reason with
    unchanged | ⟨info, -, -, ⟨-, removal⟩ | ⟨t, -, found, letter⟩⟩
  · rw [unchanged]
    exact .refl saved
  · rw [removal] at safe ⊢
    exact .basicAck housed member other id saved safe
  · obtain ⟨mid, published, removal⟩ :=
      (Carried.delivers member).deadLetter visit h other id info.dlqConfig t
    obtain ⟨between, carried⟩ := published housed
    rw [letter, removal] at safe ⊢
    obtain ⟨first, second⟩ := safe.reject between.ok carried found
    have here := carried.remembers saved first
    exact here.trans (isDurable_congr (Frame.basicAck mid other id).queueMgr)
      (.basicAck between member other id here.saved second)

theorem takeFront_eq (codec : Codec) (h : VirtualHost) (other : Bytes) :
    (h.takeFront codec other).2 = h ∨
      ∃ id, (h.takeFront codec other).2 = h.basicAck codec other id := by
  cases stored : h.queueMessages.lookup other with
  | none => exact Or.inl (by simp only [VirtualHost.takeFront, stored])
  | some store =>
    cases held : store.front with
    | none => exact Or.inl (by simp only [VirtualHost.takeFront, stored, held])
    | some msg =>
      exact Or.inr ⟨msg.id, by simp only [VirtualHost.takeFront, stored, held,
        basicAck_stored stored]⟩

theorem Remembers.takeFront (housed : Housed names h) (member : queueName ∈ names)
    (other : Bytes) (saved : Saved codec h queueName)
    (safe : Safe codec h (h.takeFront codec other).2 queueName) :
    Remembers codec h (h.takeFront codec other).2 queueName := by
  rcases takeFront_eq codec h other with unchanged | ⟨id, removal⟩
  · rw [unchanged]
    exact .refl saved
  · rw [removal] at safe ⊢
    exact .basicAck housed member other id saved safe

end Reject

section Upkeep

variable {store : QueueMessage}

/-- One store has become another on the same or a changed disk. -/
theorem Remembers.of_store {store' : QueueMessage} (frame : Frame h h')
    (stored : h.queueMessages.lookup queueName = some store)
    (after : h'.queueMessages.lookup queueName = some store')
    (bare : h.isDurable queueName = false → store'.msgs = store.msgs ∧ h'.fs = h.fs)
    (synced : h.isDurable queueName = true →
      Synced codec h.baseDir queueName (store, h.fs) →
        Synced codec h.baseDir queueName (store', h'.fs))
    (saved : Saved codec h queueName) : Remembers codec h h' queueName := by
  have flag : h'.isDurable queueName = h.isDurable queueName := isDurable_congr frame.queueMgr
  have sameKey : fileKey h' queueName = fileKey h queueName := by
    rw [fileKey, frame.baseDir, fileKey]
  cases saved with
  | undeclared absent =>
    rw [absent] at stored
    cases stored
  | volatile known notDurable unwritten intact =>
    obtain rfl := Option.some.inj (stored.symm.trans known)
    obtain ⟨msgs, fs⟩ := bare notDurable
    refine ⟨.volatile after (flag.trans notDurable) (msgs ▸ unwritten) ?_, fun _ => ?_⟩
    · rwa [sameKey, fs]
    · exact kept_congr frame.baseDir (by rw [fs]) (by rw [fs])
  | durable known isDurable inStep =>
    obtain rfl := Option.some.inj (stored.symm.trans known)
    refine ⟨.durable after (flag.trans isDurable) ?_,
      fun contrary => absurd ((flag.trans isDurable).symm.trans contrary) (by decide)⟩
    rw [frame.baseDir]
    exact synced isDurable inStep

theorem Remembers.queueRuntimeStats (other : Bytes) (saved : Saved codec h queueName) :
    Remembers codec h (h.queueRuntimeStats codec other).2 queueName := by
  have frame : Frame h (h.queueRuntimeStats codec other).2 := Frame.queueRuntimeStats h other
  cases stored : h.queueMessages.lookup other with
  | none =>
    simp only [VirtualHost.queueRuntimeStats, stored]
    exact .refl saved
  | some store =>
    simp only [VirtualHost.queueRuntimeStats, stored] at frame ⊢
    by_cases own : queueName = other
    · subst own
      exact .of_store frame stored (by rw [lookup_withStore, if_pos rfl])
        (fun _ => ⟨getStats_msgs codec store h.fs, rfl⟩) (fun _ synced => synced.getStats) saved
    · refine .elsewhere rfl ?_ rfl (FileSystem.SameAt.refl _ _) saved
      rw [lookup_withStore, if_neg own]

/-- A compaction renames no file that the stream of another queue is on. -/
theorem Housed.followed (housed : Housed names h) (member : queueName ∈ names) {other : Bytes}
    (stored : h.queueMessages.lookup other = some store) (differs : queueName ≠ other) :
    (h.follow (store.follow h.fs)).queueMessages.lookup queueName =
      h.queueMessages.lookup queueName := by
  rw [lookup_follow]
  cases known : h.queueMessages.lookup queueName with
  | none => rfl
  | some third =>
    obtain ⟨file, tmp, -⟩ := housed.foreign member stored differs
    have stays (isOpen : third.file.isOpen = true) :
        store.follow h.fs third.file.key = third.file.key := by
      have onFile : third.file.key = fileKey h queueName := by
        rw [housed.placed queueName third known isOpen, housed.ok.paths queueName third known]
        rfl
      rw [QueueMessage.follow, onFile, housed.ok.paths other store stored]
      split
      · exact FileSystem.follow_of_ne _ tmp.symm file.symm
      · rfl
    rw [Option.map_some, Stream.rekey_eq_self stays]

theorem Remembers.compactQueue (housed : Housed names h) (member : queueName ∈ names)
    (other : Bytes) (allowed : ∀ store ∈ h.queueMessages.lookup other,
      h.isDurable other = true ∧ Persistence.Writable codec (store, h.fs) .compact)
    (saved : Saved codec h queueName) :
    Remembers codec h (h.compactQueue codec other) queueName := by
  have frame : Frame h (h.compactQueue codec other) := Frame.compactQueue h other
  cases stored : h.queueMessages.lookup other with
  | none =>
    simp only [VirtualHost.compactQueue, stored]
    exact .refl saved
  | some store =>
    by_cases differs : queueName ≠ other
    · have within : Within other (fileKey h queueName) h (h.compactQueue codec other) :=
        .compactQueue housed.ok (housed.foreign member stored differs)
      refine .elsewhere frame.baseDir ?_ (isDurable_congr frame.queueMgr) within.file saved
      simp only [VirtualHost.compactQueue, stored, lookup_withStore, if_neg differs,
        housed.followed member stored differs]
    obtain rfl : queueName = other := not_not.mp differs
    obtain ⟨isDurable, writable⟩ := allowed store stored
    simp only [VirtualHost.compactQueue, stored] at frame ⊢
    have after := (lookup_withStore (h.follow (store.follow h.fs)) queueName queueName
      (store.compact codec h.fs).1 (store.compact codec h.fs).2).trans (if_pos rfl)
    exact .of_store frame stored after
      (fun contrary => absurd (isDurable.symm.trans contrary) (by decide))
      (fun _ synced => synced.compact writable) saved

end Upkeep

section Declare

variable {other : Bytes} {fs : FileSystem} {baseDir : Bytes}

theorem isDurable_declare {q : MsgQueue} (unknown : h.queueMgr.exists? other = false)
    (declared : h'.queueMgr = (h.queueMgr.declare other q).2) (name : Bytes) :
    h'.isDurable name = if name = other then q.durable else h.isDurable name := by
  unfold VirtualHost.isDurable
  rw [declared, MsgQueueManager.selectQueue, MsgQueueManager.declare, unknown]
  by_cases same : name = other
  · subst same
    simp [MsgQueueMapper.insert]
  · simp [MsgQueueMapper.insert, MsgQueueManager.selectQueue, AList.lookup_insert_ne, same]

theorem Remembers.fresh {durable : Bool}
    (openable : h.fs.openable (fileKey h queueName) = true) (baseDir : h'.baseDir = h.baseDir)
    (flag : h'.isDurable queueName = durable)
    (stored : h'.queueMessages.lookup queueName = some
      (if durable then (start codec h.fs h.baseDir queueName).1
        else (QueueMessage.new h.fs h.baseDir queueName).1))
    (fs : h'.fs = (start codec h.fs h.baseDir queueName).2) (saved : Saved codec h queueName) :
    Remembers codec h h' queueName := by
  obtain ⟨sameOpenable, -, content⟩ := new_fs openable
  cases durable with
  | true =>
    refine ⟨.durable stored flag ?_, fun contrary => absurd (flag.symm.trans contrary) (by decide)⟩
    rw [baseDir, fs]
    exact Synced.of_intact openable saved.intact
  | false =>
    have sameContent :
        h'.fs.content (fileKey h queueName) = h.fs.content (fileKey h queueName) := by
      rw [fs]
      exact content
    refine ⟨.volatile stored flag ?_ ?_, fun _ => kept_congr baseDir sameContent ?_⟩
    · intro m queued
      rw [if_neg Bool.false_ne_true, new_msgs] at queued
      cases queued
    · rw [fileKey, baseDir, ← fileKey, sameContent]
      exact saved.intact
    · rw [fs]
      exact congrFun sameOpenable _

theorem Remembers.addStore (housed : Housed names h) (member : queueName ∈ names)
    (named : other ∈ names) {durable : Bool} {q : MsgQueue} (flag : q.durable = durable)
    (saved : Saved codec h queueName) :
    Remembers codec h (VirtualHost.addStore codec
      { h with queueMgr := (h.queueMgr.declare other q).2 } other durable) queueName := by
  obtain rfl := flag
  have known := housed.ok.stored other
  unfold VirtualHost.addStore
  cases stored : h.queueMessages.lookup other with
  | some store =>
    rw [stored] at known
    simp only [Option.isSome_some, if_true, MsgQueueManager.declare, known]
    exact .refl saved
  | none =>
    rw [stored] at known
    simp only [Option.isSome_none, Bool.false_eq_true, if_false]
    have allowed := housed.openable other named
    obtain ⟨-, others, -⟩ := new_fs allowed
    by_cases own : queueName = other
    · subst own
      refine .fresh allowed rfl (Eq.trans (isDurable_declare known rfl queueName) (if_pos rfl)) ?_
        rfl saved
      rw [lookup_withStore, if_pos rfl]
      rfl
    · refine .elsewhere rfl ?_ ?_ (others _ fun same => own ?_) saved
      · rw [lookup_withStore, if_neg own]
      · exact Eq.trans (isDurable_declare known rfl queueName) (if_neg own)
      · by_contra differs
        exact (housed.apart queueName member other named differs).1 same

end Declare

section Names

theorem basicAck_openable (h : VirtualHost) (other id : Bytes) :
    (h.basicAck codec other id).fs.openable = h.fs.openable := by
  cases stored : h.queueMessages.lookup other with
  | none => rw [basicAck_absent stored]
  | some store =>
    rw [basicAck_stored stored]
    exact (remove_confined codec store h.fs id).openable

theorem takeFront_openable (h : VirtualHost) (other : Bytes) :
    (h.takeFront codec other).2.fs.openable = h.fs.openable := by
  rcases takeFront_eq codec h other with unchanged | ⟨id, removal⟩
  · rw [unchanged]
  · rw [removal, basicAck_openable]

theorem apply_openable (h : VirtualHost) {op : HostOp} (messages : Frame.onMessages op = true) :
    (op.apply codec matchHeaders h).fs.openable = h.fs.openable := by
  cases op with
  | basicPublish queue bp body => exact openable_delivers.basicPublish h queue bp body
  | publishToExchange visit exchange bp body =>
    exact openable_delivers.publishToExchange visit h exchange bp body
  | publishEx visit exchange key bp body =>
    exact openable_delivers.publishEx visit h exchange key bp body
  | basicConsume queue => exact takeFront_openable h queue
  | basicConsumeAndRemove queue => exact takeFront_openable h queue
  | basicAck queue id => exact basicAck_openable h queue id
  | basicNack visit queue id requeue reason =>
    rw [HostOp.apply]
    rcases basicNack_cases visit h queue id requeue reason with
      unchanged | ⟨info, -, -, ⟨-, removal⟩ | ⟨t, -, -, letter⟩⟩
    · rw [unchanged]
    · rw [removal, basicAck_openable]
    · obtain ⟨mid, published, removal⟩ :=
        openable_delivers.deadLetter visit h queue id info.dlqConfig t
      rw [letter, removal, basicAck_openable, published]
  | basicQuery visit =>
    rw [HostOp.apply, basicQuery_eq]
    split
    · rfl
    · exact takeFront_openable h _
  | queueRuntimeStats queue =>
    simp only [HostOp.apply, VirtualHost.queueRuntimeStats]
    split <;> rfl
  | compactQueue queue =>
    simp only [HostOp.apply, VirtualHost.compactQueue]
    split
    · rfl
    · exact compact_openable codec _ _
  | _ => cases messages

structure Still (h h' : VirtualHost) : Prop where
  baseDir : h'.baseDir = h.baseDir
  queueMgr : h'.queueMgr = h.queueMgr
  queueMessages : h'.queueMessages = h.queueMessages
  fs : h'.fs = h.fs

theorem Still.bind (h : VirtualHost) (exchange queue key : Bytes) (args : StrMap Bytes) :
    Still h (h.bind exchange queue key args).2 := by
  unfold VirtualHost.bind
  split <;> exact ⟨rfl, rfl, rfl, rfl⟩

theorem Still.unbind (h : VirtualHost) (exchange queue : Bytes) :
    Still h (h.unbind exchange queue) := by
  unfold VirtualHost.unbind
  split <;> exact ⟨rfl, rfl, rfl, rfl⟩

theorem Still.declareExchange (h : VirtualHost) (name : Bytes) (type : ExchangeType)
    (durable autoDelete : Bool) (args : StrMap Bytes) :
    Still h (h.declareExchange name type durable autoDelete args).2 := by
  unfold VirtualHost.declareExchange
  split <;> exact ⟨rfl, rfl, rfl, rfl⟩

theorem Housed.of_still (housed : Housed names h) (still : Still h h') (ok : WellFormed h') :
    Housed names h' where
  ok := ok
  placed := housed.placed.of_stores still.queueMessages
  apart := still.baseDir.symm ▸ housed.apart
  named name stored := housed.named name (still.queueMessages ▸ stored)
  openable name member := by
    rw [still.fs, fileKey, still.baseDir]
    exact housed.openable name member

theorem Remembers.of_still (still : Still h h') (saved : Saved codec h queueName) :
    Remembers codec h h' queueName :=
  .elsewhere still.baseDir (by rw [still.queueMessages]) (isDurable_congr still.queueMgr)
    (still.fs ▸ FileSystem.SameAt.refl _ _) saved

variable (codec) in
theorem Housed.addStore (housed : Housed names h) {name : Bytes} (named : name ∈ names)
    (q : MsgQueue) (durable : Bool) :
    Housed names (VirtualHost.addStore codec
      { h with queueMgr := (h.queueMgr.declare name q).2 } name durable) := by
  have ok : WellFormed (VirtualHost.addStore codec
      { h with queueMgr := (h.queueMgr.declare name q).2 } name durable) :=
    housed.ok.addStore _ name durable fun other => MsgQueueManager.exists?_declare _ _ _ _
  have placed : Placed Own (VirtualHost.addStore codec
      { h with queueMgr := (h.queueMgr.declare name q).2 } name durable) :=
    housed.placed.addStore Own.home _ name durable
  obtain ⟨openable, -, -⟩ := new_fs (housed.openable name named)
  unfold VirtualHost.addStore at ok placed ⊢
  split at ok
  · next stored =>
    simp only [if_pos stored] at placed ⊢
    exact ⟨ok, placed, housed.apart, housed.named, housed.openable⟩
  · next absent =>
    simp only [if_neg absent] at placed ⊢
    refine ⟨ok, placed, housed.apart, fun other stored => ?_, fun other member => ?_⟩
    · rw [lookup_withStore] at stored
      split at stored
      · next same => exact same ▸ named
      · exact housed.named other stored
    · exact (congrFun openable _).trans (housed.openable other member)

theorem Housed.deleteQueue (housed : Housed names h) (name : Bytes)
    (placed : Placed Own (h.deleteQueue name)) : Housed names (h.deleteQueue name) := by
  refine ⟨housed.ok.deleteQueue name, placed, housed.apart, fun other stored => ?_,
    housed.openable⟩
  rw [lookup_deleteQueue] at stored
  split at stored
  · cases stored
  · exact housed.named other stored

theorem isDurable_deleteQueue (h : VirtualHost) (name : Bytes) :
    (h.deleteQueue name).isDurable = Function.update h.isDurable name false := by
  funext queueName
  by_cases same : queueName = name
  · subst same
    simp [VirtualHost.isDurable, VirtualHost.deleteQueue, MsgQueueManager.deleteQueue,
      MsgQueueManager.selectQueue]
  · simp [VirtualHost.isDurable, VirtualHost.deleteQueue, MsgQueueManager.deleteQueue,
      MsgQueueManager.selectQueue, AList.lookup_erase_ne same, same]

theorem Remembers.deleteQueue (name : Bytes) (saved : Saved codec h queueName) :
    Remembers codec h (h.deleteQueue name) queueName := by
  by_cases own : queueName = name
  · subst own
    exact ⟨.undeclared (by rw [lookup_deleteQueue, if_pos rfl]) saved.intact,
      fun _ => kept_congr rfl rfl rfl⟩
  · refine .elsewhere rfl ?_ ?_ (FileSystem.SameAt.refl _ _) saved
    · rw [lookup_deleteQueue, if_neg own]
    · rw [isDurable_deleteQueue, Function.update_of_ne own]

def declares : HostOp → List Bytes
  | .declareQueue queueName _ _ _ _ => [queueName]
  | .declareQueueWithDlq queueName _ _ _ _ _ => [queueName]
  | _ => []

theorem Housed.apply (housed : Housed names h) {op : HostOp}
    (named : ∀ queueName ∈ declares op, queueName ∈ names) :
    Housed names (op.apply codec matchHeaders h) := by
  have ok : WellFormed (op.apply codec matchHeaders h) := housed.ok.apply op
  have placed : Placed Own (op.apply codec matchHeaders h) := by
    refine housed.placed.apply Own.home fun queue store _ stored name differs other found => ?_
    by_cases member : name ∈ names
    · rw [housed.followed member stored differs] at found
      exact housed.placed name other found
    · rw [lookup_follow, Option.map_eq_some_iff] at found
      obtain ⟨before, known, -⟩ := found
      exact absurd (housed.named name (Option.isSome_of_eq_some known)) member
  by_cases messages : Frame.onMessages op = true
  · exact housed.of_frame (Frame.apply h messages) placed (apply_openable h messages)
  cases op with
  | declareExchange name type durable autoDelete args =>
    exact housed.of_still (.declareExchange h name type durable autoDelete args) ok
  | deleteExchange name => exact housed.of_still ⟨rfl, rfl, rfl, rfl⟩ ok
  | declareQueue name durable exclusive autoDelete args =>
    rw [HostOp.apply, declareQueue_eq] at ok ⊢
    exact (housed.addStore codec (named name List.mem_cons_self) _ durable).of_still
      (.bind _ [] name name ∅) ok
  | declareQueueWithDlq name durable exclusive autoDelete args config =>
    rw [HostOp.apply, declareQueueWithDlq_eq]
    exact housed.addStore codec (named name List.mem_cons_self) _ durable
  | deleteQueue name => exact housed.deleteQueue name placed
  | bind exchange queue key args => exact housed.of_still (.bind h exchange queue key args) ok
  | unbind exchange queue => exact housed.of_still (.unbind h exchange queue) ok
  | _ => exact absurd rfl messages

end Names

end HzMq.Durability
