import HzMq.Delivery.ManualAck
import HzMq.Persistence.Compaction
import HzMq.Server.VirtualHost.Bindings
import HzMq.Server.VirtualHost.Files

/-!
# Queues that share a file

The name of a queue goes into the path of its file as it is. Two queues keep
apart as long as their paths do; two names of one path share a file.
-/

namespace HzMq.Topology

open FileStream FramedLog VirtualHost QueueMessage MessagePtr Persistence Delivery Machine

/-- The operations on one queue, by its name or by a routing key that only the queue of
that name lets through. -/
def namesOnly (queueName : Bytes) : HostOp → Bool
  | .basicPublish queue _ _ => queue = queueName
  | .publishToExchange _ _ bp _ =>
    queueName ≠ [] && bp.map BasicProperties.routingKey = some queueName
  | .basicConsume queue => queue = queueName
  | .basicConsumeAndRemove queue => queue = queueName
  | .basicAck queue _ => queue = queueName
  | .queueRuntimeStats queue => queue = queueName
  | .compactQueue queue => queue = queueName
  | .deleteQueue queue => queue = queueName
  | _ => false

/-- The queue holds what it held, and a recovery of its file would load what it would have
loaded, after any operations on the other queue. -/
def Isolated (codec : Codec) (matchHeaders : StrMap Bytes → StrMap Bytes → Bool)
    (h : VirtualHost) (queueName other : Bytes) : Prop :=
  ∀ ops, (∀ op ∈ ops, namesOnly queueName op = true) →
    let h' := exec (HostOp.apply codec matchHeaders) h ops
    h'.contents other = h.contents other ∧
      (start codec h'.fs h'.baseDir other).1.msgs = (start codec h.fs h.baseDir other).1.msgs

def Off (filePath : Bytes) (key : PathKey) : Bytes → PathKey → Prop :=
  fun other streamKey => other = filePath → streamKey ≠ key

/-- The file is none that the operations on the queue write to on their own. -/
structure Foreign (baseDir queueName : Bytes) (key : PathKey) : Prop where
  file : resolve (path baseDir queueName) ≠ key
  tmp : resolve (path baseDir queueName ++ str ".tmp") ≠ key
  hasName : ∀ n, key ≠ .replaced n

theorem Foreign.home {baseDir queueName : Bytes} {key : PathKey}
    (foreign : Foreign baseDir queueName key) (filePath : Bytes) :
    Off (path baseDir queueName) key filePath (resolve filePath) := by
  rintro rfl
  exact foreign.file

structure Within (queueName : Bytes) (key : PathKey) (h h' : VirtualHost) : Prop where
  baseDir : h'.baseDir = h.baseDir
  contents : ∀ name, name ≠ queueName → h'.contents name = h.contents name
  file : FileSystem.SameAt key h.fs h'.fs

namespace Within

variable {codec : Codec} {matchHeaders : StrMap Bytes → StrMap Bytes → Bool}
  {h h' h'' : VirtualHost} {queueName : Bytes} {key : PathKey}

theorem of_rest (baseDir : h'.baseDir = h.baseDir) (stores : h'.queueMessages = h.queueMessages)
    (fs : h'.fs = h.fs) : Within queueName key h h' :=
  ⟨baseDir, fun name _ => by rw [contents_eq, contents_eq, stores],
    fs ▸ FileSystem.SameAt.refl _ _⟩

theorem refl (h : VirtualHost) : Within queueName key h h := of_rest rfl rfl rfl

theorem trans (first : Within queueName key h h') (second : Within queueName key h' h'') :
    Within queueName key h h'' where
  baseDir := second.baseDir.trans first.baseDir
  contents name other := (second.contents name other).trans (first.contents name other)
  file := first.file.trans second.file

theorem withStore (store : QueueMessage) {fs : FileSystem}
    (file : FileSystem.SameAt key h.fs fs) :
    Within queueName key h (h.withStore queueName store fs) :=
  ⟨rfl, fun name other => by rw [contents_withStore, Function.update_of_ne other], file⟩

theorem isolates {other : Bytes} (within : Within queueName (fileKey h other) h h')
    (distinct : other ≠ queueName) :
    h'.contents other = h.contents other ∧
      (start codec h'.fs h'.baseDir other).1.msgs = (start codec h.fs h.baseDir other).1.msgs := by
  rw [within.contents other distinct, start_msgs, start_msgs, within.baseDir]
  exact ⟨rfl, by rw [← fileKey, within.file.openable, within.file.content]⟩

theorem assignId (h : VirtualHost) (bp : Option BasicProperties) :
    Within queueName key h (h.assignId bp).2 := by
  unfold VirtualHost.assignId
  split
  · exact refl h
  · split
    · exact of_rest rfl rfl rfl
    · exact refl h

theorem basicPublish_refused {name : Bytes} (set : queueName ≠ []) (other : name ≠ queueName)
    {bp : Option BasicProperties} (routed : bp.map BasicProperties.routingKey = some queueName)
    (body : Bytes) : Within queueName key h (h.basicPublish codec name bp body).2.2 := by
  unfold VirtualHost.basicPublish
  cases stored : h.queueMessages.lookup name with
  | none => exact refl h
  | some store =>
    have named : Within queueName key h (h.assignId bp).2 := assignId h bp
    have sameKey := assignId_key h bp
    rw [routed, Option.map_eq_some_iff] at sameKey
    obtain ⟨props, assigned, keyed⟩ := sameKey
    simp only [assigned, Option.getD_some]
    rw [if_pos (by rw [keyed]; exact ⟨set, Ne.symm other⟩)]
    exact named

theorem basicPublish_key (h : VirtualHost) (name : Bytes) (set : queueName ≠ [])
    {bp : Option BasicProperties} (routed : bp.map BasicProperties.routingKey = some queueName)
    (body : Bytes) :
    (h.basicPublish codec name bp body).2.1.map BasicProperties.routingKey = some queueName := by
  unfold VirtualHost.basicPublish
  cases stored : h.queueMessages.lookup name with
  | none => exact routed
  | some store =>
    have sameKey := assignId_key h bp
    rw [routed, Option.map_eq_some_iff] at sameKey
    obtain ⟨props, assigned, keyed⟩ := sameKey
    simp only [assigned, Option.getD_some, keyed]
    split
    · simp [keyed]
    · next taken =>
      have own : queueName = name := by simpa [set] using taken
      simp [own]

variable (ok : WellFormed h) (placed : Placed (Off (path h.baseDir queueName) key) h)

include ok placed

theorem elsewhere {store : QueueMessage} (stored : h.queueMessages.lookup queueName = some store) :
    store.file.isOpen = true → key ≠ store.file.key := fun isOpen =>
  (placed queueName store stored isOpen (ok.paths queueName store stored)).symm

theorem deliver {store : QueueMessage} (stored : h.queueMessages.lookup queueName = some store)
    (bp : Option BasicProperties) (body : Bytes) :
    Within queueName key h (h.deliver codec queueName store bp body).2 :=
  withStore _ (insert_sameAt codec (elsewhere ok placed stored) bp body _)

theorem takeFront :
    Within queueName key h (h.takeFront codec queueName).2 := by
  unfold VirtualHost.takeFront
  split
  · exact refl h
  · next store stored =>
    split
    · exact refl h
    · next msg _ => exact withStore _ (remove_sameAt codec (elsewhere ok placed stored) msg.id)

theorem basicAck (msgId : Bytes) :
    Within queueName key h (h.basicAck codec queueName msgId) := by
  unfold VirtualHost.basicAck
  split
  · exact refl h
  · next store stored => exact withStore _ (remove_sameAt codec (elsewhere ok placed stored) msgId)

omit placed in
theorem compactQueue (foreign : Foreign h.baseDir queueName key) :
    Within queueName key h (h.compactQueue codec queueName) := by
  unfold VirtualHost.compactQueue
  split
  · exact refl h
  · next store stored =>
    have filePath := ok.paths queueName store stored
    have moved : Within queueName key h (h.follow (store.follow h.fs)) :=
      ⟨rfl, fun name _ => congrFun (contents_follow h _) name, FileSystem.SameAt.refl h.fs key⟩
    exact moved.trans (withStore _ (compact_sameAt codec store h.fs (filePath ▸ foreign.file.symm)
      (filePath ▸ foreign.tmp.symm) foreign.hasName))

theorem basicPublish (bp : Option BasicProperties) (body : Bytes) :
    Within queueName key h (h.basicPublish codec queueName bp body).2.2 := by
  unfold VirtualHost.basicPublish
  cases stored : h.queueMessages.lookup queueName with
  | none => exact refl h
  | some store =>
    have named : Within queueName key h (h.assignId bp).2 := assignId h bp
    simp only
    split
    · exact named
    · have delivers : Delivers codec Frame := Frame.delivers
      have frame := delivers.assignId h bp
      have places : Delivers codec fun before after =>
          Placed (Off (path h.baseDir queueName) key) before →
            Placed (Off (path h.baseDir queueName) key) after := Placed.delivers
      exact named.trans (deliver (ok.of_frame frame)
        (frame.baseDir.symm ▸ places.assignId h bp placed) (assignId_lookup h bp ▸ stored) _ body)

theorem publishLoop (set : queueName ≠ []) (should : Binding → Bool) (body : Bytes)
    (entries : List (Bytes × Binding)) (published : Bool) {bp : Option BasicProperties}
    (routed : bp.map BasicProperties.routingKey = some queueName) :
    Within queueName key h (h.publishLoop codec should body entries published bp).2.2 := by
  induction entries generalizing published bp h with
  | nil => exact refl h
  | cons entry rest ih =>
    obtain ⟨name, binding⟩ := entry
    rw [VirtualHost.publishLoop]
    split
    · have first : Within queueName key h (h.basicPublish codec name bp body).2.2 := by
        by_cases own : name = queueName
        · exact own ▸ basicPublish ok placed bp body
        · exact basicPublish_refused set own routed body
      refine first.trans (ih ?_ ?_ _ (basicPublish_key h name set routed body))
      · exact ok.of_frame (Frame.delivers.basicPublish h name bp body)
      · exact first.baseDir ▸ Placed.delivers.basicPublish h name bp body placed
    · exact ih ok placed published routed

theorem publishToExchange (set : queueName ≠ []) (visit : Visit Binding) (exchangeName : Bytes)
    {bp : Option BasicProperties} (routed : bp.map BasicProperties.routingKey = some queueName)
    (body : Bytes) : Within queueName key h
      (h.publishToExchange codec matchHeaders visit exchangeName bp body).2.2 := by
  unfold VirtualHost.publishToExchange
  split
  · exact refl h
  · simp only
    split
    · exact refl h
    · exact publishLoop ok placed set _ body _ false routed

theorem apply (foreign : Foreign h.baseDir queueName key) {op : HostOp}
    (only : namesOnly queueName op = true) :
    Within queueName key h (op.apply codec matchHeaders h) := by
  cases op with
  | basicPublish queue bp body =>
    obtain rfl : queue = queueName := of_decide_eq_true only
    exact basicPublish ok placed bp body
  | publishToExchange visit exchange bp body =>
    simp only [namesOnly, Bool.and_eq_true, decide_eq_true_eq] at only
    exact publishToExchange ok placed only.1 visit exchange only.2 body
  | basicConsume queue =>
    obtain rfl : queue = queueName := of_decide_eq_true only
    exact takeFront ok placed
  | basicConsumeAndRemove queue =>
    obtain rfl : queue = queueName := of_decide_eq_true only
    exact takeFront ok placed
  | basicAck queue id =>
    obtain rfl : queue = queueName := of_decide_eq_true only
    exact basicAck ok placed id
  | queueRuntimeStats queue =>
    obtain rfl : queue = queueName := of_decide_eq_true only
    simp only [HostOp.apply, VirtualHost.queueRuntimeStats]
    split
    · exact refl h
    · exact ⟨rfl, fun name other => by rw [contents_withStore, Function.update_of_ne other],
        FileSystem.SameAt.refl h.fs key⟩
  | compactQueue queue =>
    obtain rfl : queue = queueName := of_decide_eq_true only
    exact compactQueue ok foreign
  | deleteQueue queue =>
    obtain rfl : queue = queueName := of_decide_eq_true only
    refine ⟨rfl, fun name other => ?_, FileSystem.SameAt.refl h.fs key⟩
    rw [HostOp.apply, contents_eq, contents_eq, lookup_deleteQueue, if_neg other]
  | _ => cases only

omit ok in
/-- A compaction of the queue itself takes its stream to no file that it did not have. -/
theorem followed (foreign : Foreign h.baseDir queueName key) {store : QueueMessage}
    (filePath : store.filePath = path h.baseDir queueName) :
    Placed (Off (path h.baseDir queueName) key) (h.follow (store.follow h.fs)) := by
  intro name moved found isOpen own
  rw [lookup_follow, Option.map_eq_some_iff] at found
  obtain ⟨before, known, rfl⟩ := found
  rw [Stream.rekey_isOpen] at isOpen
  have off := placed name before known isOpen own
  rw [Stream.rekey_of_isOpen isOpen]
  simp only [QueueMessage.follow, filePath]
  split
  · unfold FileSystem.follow
    split_ifs
    · exact off
    · exact (foreign.hasName _).symm
    · exact foreign.file
    · exact off
  · exact off

theorem placed_apply (foreign : Foreign h.baseDir queueName key) {op : HostOp}
    (only : namesOnly queueName op = true) :
    Placed (Off (path h.baseDir queueName) key) (op.apply codec matchHeaders h) := by
  refine placed.apply foreign.home ?_
  rintro queue store rfl stored name -
  obtain rfl : queue = queueName := of_decide_eq_true only
  exact followed placed foreign (ok.paths queue store stored) name

theorem exec (foreign : Foreign h.baseDir queueName key) (ops : List HostOp)
    (only : ∀ op ∈ ops, namesOnly queueName op = true) :
    Within queueName key h (Machine.exec (HostOp.apply codec matchHeaders) h ops) := by
  induction ops generalizing h with
  | nil => exact refl h
  | cons op ops ih =>
    have first : Within queueName key h (op.apply codec matchHeaders h) :=
      apply ok placed foreign (only op List.mem_cons_self)
    have places : Placed _ (op.apply codec matchHeaders h) :=
      placed_apply ok placed foreign (only op List.mem_cons_self)
    exact first.trans (ih (ok.apply op) (first.baseDir.symm ▸ places) (first.baseDir.symm ▸ foreign)
      fun later member => only later (List.mem_cons_of_mem op member))

end Within

/-- No operation on the first queue gets at the file of the second: it is neither the file nor
the temporary file of the first, and none that the first queue's file is renamed to, which
happens where that is the temporary file of another name. -/
structure Separate (baseDir q1 q2 : Bytes) : Prop where
  file : resolve (path baseDir q1) ≠ resolve (path baseDir q2)
  tmp : resolve (path baseDir q1 ++ str ".tmp") ≠ resolve (path baseDir q2)
  renamed : ∀ name, resolve (path baseDir name ++ str ".tmp") = resolve (path baseDir q1) →
    resolve (path baseDir name) ≠ resolve (path baseDir q2)

namespace Separate

variable {baseDir q1 q2 : Bytes}

theorem of_noZero (noZero1 : 0 ∉ path baseDir q1) (noZero2 : 0 ∉ path baseDir q2)
    (apart : resolve (path baseDir q1) ≠ resolve (path baseDir q2)) : Separate baseDir q1 q2 where
  file := apart
  tmp := tmp_ne_file noZero1 noZero2
  renamed name same shared := by
    refine tmp_ne_file (zero_not_mem_of_tmp_ne ?_) noZero1 same
    rw [same, shared]
    exact apart

theorem foreign (separate : Separate baseDir q1 q2) :
    Foreign baseDir q1 (resolve (path baseDir q2)) :=
  ⟨separate.file, separate.tmp, resolve_ne_replaced _⟩

theorem off {h : VirtualHost} (separate : Separate h.baseDir q1 q2)
    (moored : Placed (Moored h.baseDir) h) :
    Placed (Off (path h.baseDir q1) (resolve (path h.baseDir q2))) h := by
  intro name store stored isOpen own
  have moored := moored name store stored isOpen
  rw [own] at moored
  generalize store.file.key = streamKey at moored
  cases moored with
  | own => exact separate.file
  | replaced n => exact (resolve_ne_replaced _ n).symm
  | renamed _ same => exact separate.renamed _ same

end Separate

section Touched

variable {codec : Codec} {p : MessagePayload} {matchHeaders : StrMap Bytes → StrMap Bytes → Bool}
  {h h' h'' : VirtualHost} {baseDir q1 q2 queueName : Bytes}

theorem frame_fits (codec : Codec) (p : MessagePayload) :
    (frame (codec.serializeToString p)).length ≤ 2 ^ 62 := by
  have := codec.size_lt p
  rw [FramedLog.frame_length]
  omega

def recordDisk (codec : Codec) (baseDir q1 q2 : Bytes) (p : MessagePayload) : FileSystem where
  files key :=
    if key = resolve (path baseDir q1) ∨ key = resolve (path baseDir q2) then
      some (frame (codec.serializeToString p))
    else none
  openable _ := true
  capacity := 2 ^ 62
  capacity_lt := Nat.pow_lt_pow_right Nat.one_lt_two (Nat.lt_succ_self 62)
  bounded := by
    intro key bytes stored
    split at stored
    · exact Option.some.inj stored ▸ frame_fits codec p
    · cases stored

theorem recordDisk_files {key : PathKey}
    (named : key = resolve (path baseDir q1) ∨ key = resolve (path baseDir q2)) :
    (recordDisk codec baseDir q1 q2 p).files key = some (frame (codec.serializeToString p)) :=
  if_pos named

theorem recordDisk_present {key : PathKey}
    (named : key = resolve (path baseDir q1) ∨ key = resolve (path baseDir q2)) :
    ((recordDisk codec baseDir q1 q2 p).files key).isSome :=
  Option.isSome_of_eq_some (recordDisk_files named)

theorem recordDisk_content {key : PathKey}
    (named : key = resolve (path baseDir q1) ∨ key = resolve (path baseDir q2)) :
    (recordDisk codec baseDir q1 q2 p).content key = frame (codec.serializeToString p) :=
  congrArg (Option.getD · []) (recordDisk_files named)

structure Grown (h h' : VirtualHost) : Prop where
  baseDir : h'.baseDir = h.baseDir
  fs : h'.fs = h.fs
  stores : ∀ name store, h.queueMessages.lookup name = some store →
    h'.queueMessages.lookup name = some store

theorem Grown.trans (first : Grown h h') (second : Grown h' h'') : Grown h h'' :=
  ⟨second.baseDir.trans first.baseDir, second.fs.trans first.fs,
    fun name store stored => second.stores name store (first.stores name store stored)⟩

/-- A new queue whose file is there is declared without a change to the disk. -/
theorem declare_present (reached : h.Reachable codec matchHeaders)
    (absent : h.queueMessages.lookup queueName = none)
    (present : (h.fs.files (fileKey h queueName)).isSome)
    (openable : h.fs.openable (fileKey h queueName) = true) (durable : Bool) :
    ∃ h' : VirtualHost, h'.Reachable codec matchHeaders ∧ Grown h h' ∧
      h'.queueMessages.lookup queueName = some
        (if durable then (start codec h.fs h.baseDir queueName).1
          else (QueueMessage.new h.fs h.baseDir queueName).1) ∧
      ∀ other, other ≠ queueName →
        h'.queueMessages.lookup other = h.queueMessages.lookup other := by
  obtain ⟨stores, sameFs, sameDir⟩ :=
    declareQueue_stores h codec absent durable false false ∅
  refine ⟨_, .next (HostOp.declareQueue queueName durable false false ∅) reached,
    ⟨sameDir, sameFs.trans (new_of_present present openable).2.2.2.2, fun name store stored => ?_⟩,
      ?_, fun other differs => by rw [HostOp.apply, stores, AList.lookup_insert_ne differs]⟩
  · have differs : name ≠ queueName := by
      rintro rfl
      rw [absent] at stored
      cases stored
    rw [HostOp.apply, stores, AList.lookup_insert_ne differs, stored]
  · rw [HostOp.apply, stores, AList.lookup_insert]
    rfl

theorem declare_also (reached : h.Reachable codec matchHeaders)
    (present : (h.fs.files (fileKey h queueName)).isSome)
    (openable : h.fs.openable (fileKey h queueName) = true) :
    ∃ h' : VirtualHost, h'.Reachable codec matchHeaders ∧ Grown h h' ∧
      (h'.queueMessages.lookup queueName).isSome := by
  cases stored : h.queueMessages.lookup queueName with
  | some store =>
    exact ⟨h, reached, ⟨rfl, rfl, fun _ _ => id⟩, Option.isSome_of_eq_some stored⟩
  | none =>
    obtain ⟨h', reached', grown, stored', -⟩ := declare_present reached stored present openable true
    exact ⟨h', reached', grown, Option.isSome_of_eq_some stored'⟩

/-- A queue that holds no message is compacted: an empty file takes the place of its own, and
the temporary file is gone. -/
theorem compact_empties (codec : Codec) {store : QueueMessage} {fs : FileSystem}
    (attached : Attached (store, fs)) (noMsgs : store.msgs = [])
    (room : fs.openable (resolve (store.filePath ++ str ".tmp")) = true) {key : PathKey}
    (hit : resolve store.filePath = key ∨ resolve (store.filePath ++ str ".tmp") = key) :
    (store.compact codec fs).2.content key = [] := by
  have writable : Writable codec (store, fs) .compact := ⟨room, by simp [noMsgs]⟩
  obtain ⟨-, -, -, bytes⟩ := attached.compact writable
  rw [content, apply_filePath, noMsgs] at bytes
  by_cases own : resolve store.filePath = key
  · exact own ▸ bytes
  · obtain rfl := hit.resolve_left own
    have opened := Stream.openOut_of_openable {} fs (store.filePath ++ str ".tmp") rfl room
    simp only [QueueMessage.compact, if_pos (show store.file.isOpen = true from attached.isOpen),
      opened, if_true, FileSystem.content]
    rw [FileSystem.files_rename_old _ (Ne.symm own)]
    rfl

theorem loaded_frame (valid : p.valid = validMark) (restored : codec.RoundTrips p) :
    loaded codec (frame (codec.serializeToString p)) ≠ [] := by
  have whole : Whole codec.parseFromString [] := rfl
  obtain ⟨-, read⟩ := whole.append_frame (codec.size_lt_word p) restored
  have kept :
      _ ∈ (QueueMessage.readable codec (frame (codec.serializeToString p))).filter isValid :=
    List.mem_filter.mpr ⟨read, beq_iff_eq.mpr valid⟩
  exact List.ne_nil_of_mem (List.mem_map_of_mem kept)

variable (codec p matchHeaders) in
theorem two_declared {other : Bytes} (distinct : q1 ≠ other)
    (shared : resolve (path baseDir other) = resolve (path baseDir q2)) (durable : Bool) :
    ∃ h : VirtualHost, h.Reachable codec matchHeaders ∧ h.baseDir = baseDir ∧
      h.fs = recordDisk codec baseDir q1 q2 p ∧
      h.queueMessages.lookup q1 = some
        (if durable then (start codec (recordDisk codec baseDir q1 q2 p) baseDir q1).1
          else (QueueMessage.new (recordDisk codec baseDir q1 q2 p) baseDir q1).1) ∧
      h.queueMessages.lookup other = some
        (start codec (recordDisk codec baseDir q1 q2 p) baseDir other).1 := by
  have fresh : (VirtualHost.new [] baseDir ∅ 0 (recordDisk codec baseDir q1 q2 p)).Reachable codec
    matchHeaders := .start ⟨_, _, _, _, _, rfl⟩
  obtain ⟨h1, reached1, ⟨dir1, fs1, -⟩, stored1, others⟩ :=
    declare_present fresh rfl (recordDisk_present (Or.inl rfl)) rfl durable
  have absent : h1.queueMessages.lookup other = none := by
    rw [others other distinct.symm]
    rfl
  have file : fileKey h1 other = resolve (path baseDir q2) := by
    rw [fileKey, dir1]
    exact shared
  obtain ⟨h, reached, ⟨dir, fs, stores⟩, stored, -⟩ := declare_present reached1 absent
    (by rw [fs1, file]; exact recordDisk_present (Or.inr rfl)) (by rw [fs1]; rfl) true
  rw [if_pos rfl, fs1, dir1] at stored
  exact ⟨h, reached, dir.trans dir1, fs.trans fs1, stores q1 _ stored1, stored⟩

variable (matchHeaders)

/-- The first of two queues is compacted, which holds nothing, and with that the record that the
second has loaded is gone. -/
theorem touched_by_compaction (distinct : q1 ≠ q2)
    (hit : resolve (path baseDir q1) = resolve (path baseDir q2) ∨
      resolve (path baseDir q1 ++ str ".tmp") = resolve (path baseDir q2))
    (valid : p.valid = validMark) (restored : codec.RoundTrips p) :
    ∃ h : VirtualHost, h.Reachable codec matchHeaders ∧ h.baseDir = baseDir ∧
      h.queueMgr.exists? q1 = true ∧ h.queueMgr.exists? q2 = true ∧
      ¬ Isolated codec matchHeaders h q1 q2 := by
  obtain ⟨h, reached, inDir, disk, stored1, stored2⟩ :=
    two_declared codec p matchHeaders distinct rfl false
  have known := (Reachable.wellFormed reached).stored
  refine ⟨h, reached, inDir, by rw [known, stored1]; rfl, by rw [known, stored2]; rfl,
    fun isolated => ?_⟩
  have same := (isolated [.compactQueue q1] (by simp [namesOnly])).2
  have present : ((recordDisk codec baseDir q1 q2 p).files (resolve (path baseDir q1))).isSome :=
    recordDisk_present (Or.inl rfl)
  obtain ⟨attached, -, noMsgs, -, sameFs⟩ := new_of_present present rfl
  have pair : QueueMessage.new (recordDisk codec baseDir q1 q2 p) baseDir q1 =
      ((QueueMessage.new (recordDisk codec baseDir q1 q2 p) baseDir q1).1,
        recordDisk codec baseDir q1 q2 p) := Prod.ext rfl sameFs
  rw [pair] at attached
  have emptied := compact_empties codec attached noMsgs rfl (by simpa using hit)
  rw [if_neg Bool.false_ne_true] at stored1
  simp only [exec_cons, exec_nil, HostOp.apply, VirtualHost.compactQueue, stored1,
    VirtualHost.withStore, VirtualHost.follow, disk, inDir, start_msgs, emptied,
    compact_openable, recordDisk_content (Or.inr rfl)] at same
  have allowed : (recordDisk codec baseDir q1 q2 p).openable (resolve (path baseDir q2)) = true :=
    rfl
  have objects := congrArg (List.map MessagePtr.msg) same
  rw [if_pos allowed, if_pos allowed, number_map_msg, number_map_msg] at objects
  exact loaded_frame valid restored objects.symm

theorem start_record {fs : FileSystem}
    (record : fs.files (resolve (path baseDir queueName)) =
      some (frame (codec.serializeToString p)))
    (openable : fs.openable (resolve (path baseDir queueName)) = true)
    (valid : p.valid = validMark) (restores : Restores codec p) :
    ∃ store m, start codec fs baseDir queueName = (store, fs) ∧
      store.filePath = path baseDir queueName ∧ Failed codec (store, fs) [⟨0, p⟩] [] ∧
      store.msgs = [m] ∧ tracked m = true ∧ m.payload = p := by
  have present := Option.isSome_of_eq_some record
  have bytes : fs.content (resolve (path baseDir queueName)) = frame (codec.serializeToString p) :=
    congrArg (Option.getD · []) record
  have logged : Logged codec (fs.content (resolve (path baseDir queueName))) [⟨0, p⟩] [] := by
    refine ⟨?_, by simpa using restores⟩
    rw [bytes, records_cons, records_nil, List.append_nil, List.append_nil]
    rfl
  have failed : Failed codec (start codec fs baseDir queueName) [⟨0, p⟩] [] :=
    start_of_records present openable logged rfl
  have payloads := logged.valid_payloads rfl (fs.content_length_lt _)
  simp only [List.map_singleton, List.filter_singleton, valid, beq_self_eq_true] at payloads
  obtain ⟨loads, -, sameFs⟩ := start_of_present codec present openable
  obtain ⟨msg, single, payload⟩ := List.map_eq_singleton_iff.mp payloads
  have pair : start codec fs baseDir queueName = ((start codec fs baseDir queueName).1, fs) :=
    Prod.ext rfl sameFs
  refine ⟨_, ⟨0, msg⟩, pair, by simp [start], pair ▸ failed, by rw [loads, single]; rfl, ?_,
    payload⟩
  exact logged.tracked_of_loaded rfl (content_length_lt_noOffset fs _)
    (by rw [single]; exact List.mem_singleton_self msg)

theorem compact_record {store : QueueMessage} {fs : FileSystem} (attached : Attached (store, fs))
    (writable : Writable codec (store, fs) .compact) :
    (store.compact codec fs).2.files (resolve store.filePath) =
      some (frames (store.msgs.map fun m => codec.serializeToString m.payload)) := by
  obtain ⟨⟨-, -, -, present⟩, -, -, bytes⟩ := attached.compact writable
  rw [apply_filePath] at present
  rw [records_slotsOf, content, apply_filePath] at bytes
  obtain ⟨file, found⟩ := Option.isSome_iff_exists.mp present
  exact found.trans (congrArg some ((congrArg (Option.getD · []) found).symm.trans bytes))

theorem remove_disk (store : QueueMessage) (fs : FileSystem) (filePath id : Bytes) :
    ({ store with filePath }.remove codec fs id).2 = (store.remove codec fs id).2 := by
  rw [remove_eq, remove_eq]
  cases target store.msgs id <;> rfl

/-- A healthy stream on the file of another queue: a removal marks the record there invalid. -/
theorem removal_elsewhere {store : QueueMessage} {fs : FileSystem} {m : MessagePtr}
    (isOpen : store.file.isOpen = true) (ready : store.file.ready = true)
    (key : store.file.key = resolve (path baseDir queueName))
    (record : fs.files (resolve (path baseDir queueName)) =
      some (frame (codec.serializeToString p)))
    (openable : fs.openable (resolve (path baseDir queueName)) = true)
    (backed : Backed codec [m] (frame (codec.serializeToString p)) [⟨0, p⟩] [])
    (isTracked : tracked m = true) (single : store.msgs = [m]) :
    (start codec (store.remove codec fs []).2 baseDir queueName).1.msgs = [] := by
  have bytes : fs.content (resolve (path baseDir queueName)) = frame (codec.serializeToString p) :=
    congrArg (Option.getD · []) record
  have healthy : Healthy codec ({ store with filePath := path baseDir queueName }, fs) [⟨0, p⟩]
      [] := by
    refine ⟨⟨isOpen, key, openable, Option.isSome_of_eq_some record⟩, ready, ?_⟩
    rw [content, bytes]
    exact single.symm ▸ backed
  have found : target store.msgs [] = some (m, []) := by rw [single]; rfl
  obtain ⟨first, s, last, -, -, -, removed⟩ := healthy.remove_tracked found isTracked
  have yields := removed.attached.restart_yields
    (by rw [apply_filePath]) removed.backed rfl
  rw [apply_remove_msgs codec found, List.filter_nil, List.map_nil, List.map_eq_nil_iff] at yields
  rwa [StoreOp.apply, remove_disk] at yields

variable (codec p) in
structure Strayed (key : PathKey) (h : VirtualHost) (store : QueueMessage) (m : MessagePtr) :
    Prop where
  isOpen : store.file.isOpen = true
  ready : store.file.ready = true
  key_eq : store.file.key = key
  single : store.msgs = [m]
  isTracked : tracked m = true
  backed : Backed codec [m] (frame (codec.serializeToString p)) [⟨0, p⟩] []
  record : h.fs.files key = some (frame (codec.serializeToString p))
  openable : h.fs.openable key = true

/-- A queue that has the file of the second and for its temporary file that of the first is
compacted, which takes the stream of the first to the file of the second. -/
theorem strayed_by_renaming {other : Bytes}
    (tmp : resolve (path baseDir other ++ str ".tmp") = resolve (path baseDir q1))
    (shared : resolve (path baseDir other) = resolve (path baseDir q2))
    (apart : resolve (path baseDir q1) ≠ resolve (path baseDir q2))
    (valid : p.valid = validMark) (restores : Restores codec p) :
    ∃ (h : VirtualHost) (store : QueueMessage) (m : MessagePtr),
      h.Reachable codec matchHeaders ∧ h.baseDir = baseDir ∧
      h.queueMessages.lookup q1 = some store ∧ (h.queueMessages.lookup q2).isSome ∧
      Strayed codec p (resolve (path baseDir q2)) h store m := by
  have distinct : q1 ≠ other := fun same => apart (same ▸ shared)
  obtain ⟨h0, reached0, dir0, disk0, first0, third0⟩ :=
    two_declared codec p matchHeaders distinct shared true
  have present2 : (h0.fs.files (fileKey h0 q2)).isSome := by
    rw [disk0, fileKey, dir0]
    exact recordDisk_present (Or.inr rfl)
  obtain ⟨h1, reached1, ⟨dir1, disk1, stores1⟩, second1⟩ :=
    declare_also reached0 present2 (by rw [disk0]; rfl)
  have file1 : (recordDisk codec baseDir q1 q2 p).files (resolve (path baseDir q1)) = some _ :=
    recordDisk_files (Or.inl rfl)
  have file2 : (recordDisk codec baseDir q1 q2 p).files (resolve (path baseDir other)) = some _ :=
    recordDisk_files (Or.inr shared)
  obtain ⟨s, m, start1, path1, failed1, single1, isTracked, -⟩ :=
    start_record file1 rfl valid restores
  obtain ⟨t, n, start2, path2, failed2, single2, -, payload⟩ :=
    start_record file2 rfl valid restores
  rw [if_pos rfl, start1] at first0
  rw [start2] at third0
  have inDir : h1.baseDir = baseDir := dir1.trans dir0
  have disk : h1.fs = recordDisk codec baseDir q1 q2 p := disk1.trans disk0
  -- `get_stats` heals the stream of the first queue
  obtain ⟨healed, read, healthy, healedPath, healedMsgs⟩ : ∃ healed,
      (s.getStats codec (recordDisk codec baseDir q1 q2 p)).2 = healed ∧
        Healthy codec (healed, recordDisk codec baseDir q1 q2 p) [⟨0, p⟩] [] ∧
          healed.filePath = path baseDir q1 ∧ healed.msgs = [m] :=
    ⟨_, rfl, failed1.attached.heal failed1.backed, by simp [path1], by simp [single1]⟩
  have key : healed.file.key = resolve (path baseDir q1) := healedPath ▸ healthy.attached.key
  have stats : HostOp.apply codec matchHeaders h1 (.queueRuntimeStats q1) =
      h1.withStore q1 healed (recordDisk codec baseDir q1 q2 p) := by
    simp only [HostOp.apply, VirtualHost.queueRuntimeStats, stores1 q1 s first0, disk, read]
  -- the compaction puts the record into the file of the second queue
  have one : frames ([n].map fun m => codec.serializeToString m.payload) =
      frame (codec.serializeToString p) := by
    rw [List.map_singleton, payload]
    exact List.append_nil _
  have writable : Writable codec (t, recordDisk codec baseDir q1 q2 p) .compact :=
    ⟨rfl, by rw [single2, one]; exact frame_fits codec p⟩
  have record := compact_record failed2.attached writable
  rw [single2, one, path2] at record
  have moved : t.follow (recordDisk codec baseDir q1 q2 p) healed.file.key =
      resolve (path baseDir other) := by
    have opens : (t.file.isOpen && (recordDisk codec baseDir q1 q2 p).openable
      (resolve (t.filePath ++ str ".tmp"))) = true := by rw [failed2.attached.isOpen]; rfl
    rw [QueueMessage.follow, if_pos opens, path2, tmp, shared, key, FileSystem.follow,
      if_neg apart, if_neg apart, if_pos rfl]
  have compacted : HostOp.apply codec matchHeaders
      (h1.withStore q1 healed (recordDisk codec baseDir q1 q2 p)) (.compactQueue other) =
        ((h1.withStore q1 healed (recordDisk codec baseDir q1 q2 p)).follow
          (t.follow (recordDisk codec baseDir q1 q2 p))).withStore other
            (t.compact codec (recordDisk codec baseDir q1 q2 p)).1
            (t.compact codec (recordDisk codec baseDir q1 q2 p)).2 := by
    simp only [HostOp.apply, VirtualHost.compactQueue, lookup_withStore, if_neg distinct.symm,
      stores1 other t third0]
    rfl
  have reached2 : VirtualHost.Reachable codec matchHeaders
      (h1.withStore q1 healed (recordDisk codec baseDir q1 q2 p)) :=
    stats ▸ Machine.Reachable.next (.queueRuntimeStats q1) reached1
  have reached3 := Machine.Reachable.next (.compactQueue other) reached2
  rw [compacted] at reached3
  refine ⟨_, { healed with file := { healed.file with key := resolve (path baseDir other) } }, m,
    reached3, inDir, ?_, ?_, ?_⟩
  · rw [lookup_withStore, if_neg distinct, lookup_follow, lookup_withStore, if_pos rfl, ← moved,
      ← Stream.rekey_of_isOpen healthy.attached.isOpen]
    rfl
  · by_cases same : q2 = other
    · rw [lookup_withStore, if_pos same]
      rfl
    · rw [lookup_withStore, if_neg same, lookup_follow, Option.isSome_map, lookup_withStore]
      split
      · rfl
      · exact second1
  · refine ⟨healthy.attached.isOpen, healthy.ready, shared, ?_, isTracked, ?_, shared ▸ record, ?_⟩
    · exact healedMsgs
    · have backed := healthy.backed
      rw [content, healedPath, healedMsgs] at backed
      rwa [show (recordDisk codec baseDir q1 q2 p).content (resolve (path baseDir q1)) = _ from
        recordDisk_content (Or.inl rfl)] at backed
    · exact congrFun (compact_openable codec t (recordDisk codec baseDir q1 q2 p)) _

/-- The first queue gives up its message, and with it the record of the second. -/
theorem touched_by_removal {h : VirtualHost} {store : QueueMessage} {m : MessagePtr}
    (stored : h.queueMessages.lookup q1 = some store)
    (strayed : Strayed codec p (fileKey h q2) h store m)
    (valid : p.valid = validMark) (restored : codec.RoundTrips p) :
    ¬ Isolated codec matchHeaders h q1 q2 := by
  intro isolated
  have same := (isolated [.basicAck q1 []] (by simp [namesOnly])).2
  have bytes : h.fs.content (fileKey h q2) = frame (codec.serializeToString p) :=
    congrArg (Option.getD · []) strayed.record
  have removed := removal_elsewhere strayed.isOpen strayed.ready strayed.key_eq strayed.record
    strayed.openable strayed.backed strayed.isTracked strayed.single
  simp only [exec_cons, exec_nil, HostOp.apply, VirtualHost.basicAck, stored,
    VirtualHost.withStore, removed] at same
  rw [start_msgs, ← fileKey, if_pos strayed.openable, bytes] at same
  have objects := congrArg (List.map MessagePtr.msg) same
  rw [number_map_msg] at objects
  exact loaded_frame valid restored objects.symm

end Touched

/-- Two queues of a host never touch each other exactly when no operation on the first gets at
the file of the second. -/
theorem queues_isolated_iff (codec : Codec)
    (matchHeaders : StrMap Bytes → StrMap Bytes → Bool)
    (readable : ∃ p : MessagePayload, p.valid = validMark ∧ Restores codec p)
    (baseDir : Bytes) {q1 q2 : Bytes} (distinct : q1 ≠ q2) :
    (∀ h : VirtualHost, h.Reachable codec matchHeaders → h.baseDir = baseDir →
        h.queueMgr.exists? q1 = true → h.queueMgr.exists? q2 = true →
          Isolated codec matchHeaders h q1 q2) ↔ Separate baseDir q1 q2 := by
  constructor
  · intro isolated
    obtain ⟨p, valid, restores⟩ := readable
    have hit (touched : resolve (path baseDir q1) = resolve (path baseDir q2) ∨
        resolve (path baseDir q1 ++ str ".tmp") = resolve (path baseDir q2)) : False := by
      obtain ⟨h, reached, inDir, first, second, reaches⟩ :=
        touched_by_compaction matchHeaders distinct touched valid restores.1
      exact reaches (isolated h reached inDir first second)
    refine ⟨fun shared => hit (Or.inl shared), fun shared => hit (Or.inr shared),
      fun name tmp shared => ?_⟩
    obtain ⟨h, store, m, reached, rfl, stored1, stored2, strayed⟩ := strayed_by_renaming
      matchHeaders tmp shared (fun same => hit (Or.inl same)) valid restores
    have known := (Reachable.wellFormed reached).stored
    exact touched_by_removal matchHeaders stored1 strayed valid restores.1 (isolated h reached rfl
      (by rw [known, stored1]; rfl) (by rw [known, stored2]))
  · rintro separate h reached rfl - - ops only
    have within : Within q1 (fileKey h q2) h (exec (HostOp.apply codec matchHeaders) h ops) :=
      Within.exec (Reachable.wellFormed reached) (separate.off reached.moored) separate.foreign
        ops only
    exact within.isolates (Ne.symm distinct)

def twoQueues (q1 q2 : Bytes) : VirtualHost :=
  exec (HostOp.apply Wire.codec fun _ _ => false) .blank
    [.declareQueue q1 true false false ∅, .declareQueue q2 true false false ∅,
      .queueRuntimeStats q1, .queueRuntimeStats q2]

theorem twoQueues_reachable (q1 q2 : Bytes) :
    (twoQueues q1 q2).Reachable Wire.codec fun _ _ => false :=
  .exec (.start blank_initial) _

theorem queues_isolated_example :
    Isolated Wire.codec (fun _ _ => false) (twoQueues (str "a") (str "b")) (str "a") (str "b") :=
  (queues_isolated_iff Wire.codec _ ⟨{ valid := validMark }, rfl, by decide⟩ (str "d")
    (by decide)).mpr (.of_noZero (by decide) (by decide) (by decide)) _ (twoQueues_reachable _ _)
      (by decide +kernel) (by decide +kernel) (by decide +kernel)

/-- A publication to one of two queues that share a file is loaded by the other. -/
theorem queues_share_file :
    (twoQueues (str "q") (str "./q")).Reachable Wire.codec (fun _ _ => false) ∧
      (twoQueues (str "q") (str "./q")).queueMgr.exists? (str "q") = true ∧
      (twoQueues (str "q") (str "./q")).queueMgr.exists? (str "./q") = true ∧
      ¬ Isolated Wire.codec (fun _ _ => false) (twoQueues (str "q") (str "./q")) (str "q")
        (str "./q") := by
  refine ⟨twoQueues_reachable _ _, by decide +kernel, by decide +kernel, ?_⟩
  intro isolated
  have loaded := (isolated [.basicPublish (str "q") none (str "x")] (by decide)).2
  revert loaded
  decide +kernel

end HzMq.Topology
