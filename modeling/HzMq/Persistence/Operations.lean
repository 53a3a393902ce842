import HzMq.Library.Run
import HzMq.Persistence.Backed

/-!
# Operations on one store

A store is a `queue_message` together with the file system. On a store that is
attached to its file each operation keeps the deque backed by the log: a
healthy stream carries inserts and removals to the file, a failed one carries
nothing.
-/

namespace HzMq.Persistence

open FileStream FramedLog QueueMessage Machine

abbrev Store := QueueMessage × FileSystem

inductive StoreOp
  | insert (bp : Option BasicProperties) (body : Bytes) (durable : Bool)
  | remove (id : Bytes)
  | getStats
  | compact
  deriving DecidableEq

def StoreOp.apply (codec : Codec) (store : Store) : StoreOp → Store
  | .insert bp body durable => (store.1.insert codec store.2 bp body durable).2
  | .remove id => store.1.remove codec store.2 id
  | .getStats => ((store.1.getStats codec store.2).2, store.2)
  | .compact => store.1.compact codec store.2

@[simp] theorem apply_filePath (codec : Codec) (store : Store) (op : StoreOp) :
    (op.apply codec store).1.filePath = store.1.filePath := by
  cases op with
  | insert bp body durable => rfl
  | remove id => exact remove_filePath codec store.1 store.2 id
  | getStats => exact getStats_filePath codec store.1 store.2
  | compact =>
    simp only [StoreOp.apply, QueueMessage.compact]
    repeat' split
    all_goals rfl

@[simp] theorem exec_filePath (codec : Codec) (store : Store) (ops : List StoreOp) :
    (exec (StoreOp.apply codec) store ops).1.filePath = store.1.filePath := by
  induction ops generalizing store with
  | nil => rfl
  | cons op ops ih => rw [exec_cons, ih, apply_filePath]

theorem compact_pushed (codec : Codec) (store : Store) :
    (StoreOp.apply codec store .compact).1.pushed = store.1.pushed := by
  simp only [StoreOp.apply, QueueMessage.compact]
  repeat' split
  all_goals rfl

def content (store : Store) : Bytes := store.2.content (resolve store.1.filePath)

structure Attached (store : Store) : Prop where
  isOpen : store.1.file.isOpen = true
  key : store.1.file.key = resolve store.1.filePath
  openable : store.2.openable (resolve store.1.filePath) = true
  present : (store.2.files (resolve store.1.filePath)).isSome

theorem Attached.of_confined {store next : Store} (attached : Attached store)
    (confined : Stream.Confined store.1.file store.2 next.1.file next.2)
    (filePath : next.1.filePath = store.1.filePath) : Attached next where
  isOpen := confined.isOpen.trans attached.isOpen
  key := by rw [confined.key, attached.key, filePath]
  openable := by rw [filePath, confined.openable, attached.openable]
  present := by
    rw [filePath, ← attached.key]
    exact confined.present (attached.key ▸ attached.present)

def marked (bp : Option BasicProperties) (body : Bytes) : MessagePayload :=
  (makeMessage bp body).payload.setValid validMark

@[simp] theorem marked_valid (bp : Option BasicProperties) (body : Bytes) :
    (marked bp body).valid = validMark := rfl

/-- Neither the disk nor the wire format gets in the way of an operation: what is
written fits on the device and can be parsed back. -/
def Writable (codec : Codec) (store : Store) : StoreOp → Prop
  | .insert bp body true =>
      Restores codec (marked bp body) ∧
        (content store).length + (frame (codec.serializeToString (marked bp body))).length ≤
          store.2.capacity
  | .compact =>
      store.2.openable (resolve (store.1.filePath ++ str ".tmp")) = true ∧
        (frames (store.1.msgs.map fun m => codec.serializeToString m.payload)).length ≤
          store.2.capacity
  | _ => True

instance (codec : Codec) (store : Store) (op : StoreOp) : Decidable (Writable codec store op) :=
  match op with
  | .insert _ _ true => inferInstanceAs (Decidable ((_ ∧ _) ∧ _))
  | .insert _ _ false => isTrue trivial
  | .remove _ => isTrue trivial
  | .getStats => isTrue trivial
  | .compact => inferInstanceAs (Decidable (_ ∧ _))

section Codec

variable {codec : Codec} {store : Store} {slots : List Slot} {tail : Bytes}

structure Healthy (codec : Codec) (store : Store) (slots : List Slot) (tail : Bytes) : Prop where
  attached : Attached store
  ready : store.1.file.ready = true
  backed : Backed codec store.1.msgs (content store) slots tail

/-- The state in which `recovery` leaves a store: the same with a failed stream. -/
structure Failed (codec : Codec) (store : Store) (slots : List Slot) (tail : Bytes) : Prop where
  attached : Attached store
  failbit : store.1.file.failbit = true
  backed : Backed codec store.1.msgs (content store) slots tail

section Insert

variable (bp : Option BasicProperties) (body : Bytes)

theorem Attached.insert (attached : Attached store) (durable : Bool) :
    Attached (StoreOp.apply codec store (.insert bp body durable)) :=
  attached.of_confined (insert_confined codec store.1 store.2 bp body durable) rfl

def written (codec : Codec) (store : Store) (bp : Option BasicProperties) (body : Bytes) :
    MessagePtr :=
  ⟨store.1.pushed, { payload := marked bp body, offset := (content store).length
                     length := (frame (codec.serializeToString (marked bp body))).length }⟩

theorem written_tracked : tracked (written codec store bp body) = true := by
  have positioned : (content store).length ≠ noOffset :=
    Nat.ne_of_lt (content_length_lt_noOffset store.2 _)
  simp [tracked, written, MessagePtr.payload, positioned]

theorem Healthy.apply_insert (healthy : Healthy codec store slots tail)
    (writable : Writable codec store (.insert bp body true)) :
    (StoreOp.apply codec store (.insert bp body true)).1.file.ready = true ∧
      (StoreOp.apply codec store (.insert bp body true)).1.msgs =
        store.1.msgs ++ [written codec store bp body] ∧
      content (StoreOp.apply codec store (.insert bp body true)) =
        content store ++ frame (codec.serializeToString (marked bp body)) := by
  obtain ⟨-, message, ready, bytes⟩ := writePersistent_ready codec (makeMessage bp body)
    healthy.ready (by rw [healthy.attached.key]; exact writable.2)
  rw [healthy.attached.key] at message bytes
  exact ⟨ready, congrArg (fun msg => store.1.msgs ++ [⟨store.1.pushed, msg⟩]) message, bytes⟩

theorem Healthy.insert_durable (healthy : Healthy codec store slots [])
    (writable : Writable codec store (.insert bp body true)) :
    Healthy codec (StoreOp.apply codec store (.insert bp body true))
      (slots ++ [⟨store.1.pushed, marked bp body⟩]) [] := by
  obtain ⟨ready, nextMsgs, nextContent⟩ := healthy.apply_insert bp body writable
  refine ⟨healthy.attached.insert bp body true, ready, ?_⟩
  rw [nextContent, nextMsgs]
  exact healthy.backed.append_record store.1.pushed (marked_valid bp body) writable.1
    (content_length_lt_noOffset store.2 _)

theorem Healthy.insert_volatile (healthy : Healthy codec store slots tail) :
    Healthy codec (StoreOp.apply codec store (.insert bp body false)) slots tail :=
  ⟨healthy.attached.insert bp body false, healthy.ready,
    healthy.backed.append_untracked (m := ⟨store.1.pushed, makeMessage bp body⟩) rfl⟩

/-- On a failed stream a durable insert queues a message that has no record. -/
theorem Failed.insert (failed : Failed codec store slots tail) :
    Failed codec (StoreOp.apply codec store (.insert bp body true)) slots tail ∧
      (writePersistent codec store.1.file store.2 (makeMessage bp body)).1 = false ∧
      ∃ m, (StoreOp.apply codec store (.insert bp body true)).1.msgs = store.1.msgs ++ [m] ∧
        m.addr = store.1.pushed ∧ m.msg.offset = noOffset := by
  obtain ⟨length, result, -⟩ := writePersistent_failed codec store.2
    (makeMessage bp body) failed.attached.isOpen failed.failbit
  have next : StoreOp.apply codec store (.insert bp body true) =
      ({ store.1 with
          msgs := store.1.msgs ++ [⟨store.1.pushed, ⟨marked bp body, noOffset, length⟩⟩]
          pushed := store.1.pushed + 1 }, store.2) := by
    simp only [StoreOp.apply, QueueMessage.insert, persist, if_true, result]
    rfl
  refine ⟨⟨failed.attached.insert bp body true, ?_, ?_⟩, by rw [result], ?_⟩
  · rw [next]
    exact failed.failbit
  · rw [next]
    exact failed.backed.append_untracked (by simp [tracked])
  · rw [next]
    exact ⟨_, rfl, rfl, rfl⟩

end Insert

section Remove

variable {id : Bytes} {m : MessagePtr} {rest : List MessagePtr}

theorem Attached.remove (attached : Attached store) (id : Bytes) :
    Attached (StoreOp.apply codec store (.remove id)) :=
  attached.of_confined (remove_confined codec store.1 store.2 id) (by simp [StoreOp.apply])

theorem apply_remove_miss (absent : target store.1.msgs id = none) :
    StoreOp.apply codec store (.remove id) = store :=
  remove_of_none codec store.1 store.2 absent

theorem apply_remove_msgs (codec : Codec) (found : target store.1.msgs id = some (m, rest)) :
    (StoreOp.apply codec store (.remove id)).1.msgs = rest := by
  simp only [StoreOp.apply, remove_of_target codec store.1 store.2 found]

theorem Healthy.remove_tracked (healthy : Healthy codec store slots tail)
    (found : target store.1.msgs id = some (m, rest)) (isTracked : tracked m = true) :
    ∃ first s last, slots = first ++ s :: last ∧ s.owner = m.addr ∧ s.payload = m.payload ∧
      Healthy codec (StoreOp.apply codec store (.remove id))
        (first ++ ⟨s.owner, m.payload.setValid invalidMark⟩ :: last) tail := by
  obtain ⟨before, after, msgsEq, rfl, -, -⟩ := target_split found
  have backed := healthy.backed
  rw [msgsEq] at backed
  obtain ⟨first, s, last, slotsEq, owner, payload, contentEq, offset, written, next⟩ :=
    backed.invalidate isTracked
  have isValid : m.payload.valid = validMark := by
    simp only [tracked, Bool.and_eq_true, beq_iff_eq] at isTracked
    exact isTracked.1
  obtain ⟨ready, bytes⟩ := invalidatePersistent_record codec m.msg healthy.ready
    (by rw [healthy.attached.key]; exact contentEq) offset written (by
      rw [codec.length_setValid]
      change (codec.serializeToString (m.payload.setValid validMark)).length = _
      rw [MessagePayload.setValid_of_valid isValid, Slot.record, payload])
  rw [healthy.attached.key] at bytes
  have removed : StoreOp.apply codec store (.remove id) =
      ({ store.1 with
          msgs := before ++ after
          file := (invalidatePersistent codec store.1.file store.2 m.msg).1 },
        (invalidatePersistent codec store.1.file store.2 m.msg).2) :=
    remove_of_target codec store.1 store.2 found
  refine ⟨first, s, last, slotsEq, owner, payload, healthy.attached.remove id, ?_, ?_⟩
  · rw [removed]
    exact ready
  · have nextContent : content (StoreOp.apply codec store (.remove id)) =
        records codec first ++ frame (codec.serializeToString (m.payload.setValid invalidMark)) ++
          (records codec last ++ tail) := by
      rw [removed]
      exact bytes
    rw [nextContent, apply_remove_msgs codec found]
    exact next

theorem remove_silent (found : target store.1.msgs id = some (m, rest))
    (silent : invalidatePersistent codec store.1.file store.2 m.msg = (store.1.file, store.2)) :
    StoreOp.apply codec store (.remove id) = ({ store.1 with msgs := rest }, store.2) := by
  simp only [StoreOp.apply, remove_of_target codec store.1 store.2 found, silent]

theorem Healthy.remove_unwritten (healthy : Healthy codec store slots tail)
    (found : target store.1.msgs id = some (m, rest)) (unwritten : m.msg.length = 0)
    (untracked : tracked m = false) :
    Healthy codec (StoreOp.apply codec store (.remove id)) slots tail := by
  obtain ⟨before, after, msgsEq, rfl, -, -⟩ := target_split found
  have backed := healthy.backed
  rw [msgsEq] at backed
  have next := remove_silent found
    (invalidatePersistent_unwritten codec store.1.file store.2 unwritten)
  refine ⟨healthy.attached.remove id, ?_, ?_⟩
  · rw [next]
    exact healthy.ready
  · rw [next]
    exact backed.drop_untracked untracked

theorem Failed.remove_untracked (failed : Failed codec store slots tail)
    (found : target store.1.msgs id = some (m, rest)) (untracked : tracked m = false) :
    Failed codec (StoreOp.apply codec store (.remove id)) slots tail := by
  obtain ⟨before, after, msgsEq, rfl, -, -⟩ := target_split found
  have backed := failed.backed
  rw [msgsEq] at backed
  have next := remove_silent found (invalidatePersistent_failed codec store.2 m.msg failed.failbit)
  refine ⟨failed.attached.remove id, ?_, ?_⟩
  · rw [next]
    exact failed.failbit
  · rw [next]
    exact backed.drop_untracked untracked

end Remove

section Stats

theorem Attached.getStats (attached : Attached store) :
    Attached (StoreOp.apply codec store .getStats) :=
  attached.of_confined (getStats_confined codec store.1 store.2) (by simp [StoreOp.apply])

theorem Attached.heal (attached : Attached store)
    (backed : Backed codec store.1.msgs (content store) slots tail) :
    Healthy codec (StoreOp.apply codec store .getStats) slots tail := by
  refine ⟨attached.getStats, getStats_ready codec store.1 store.2 attached.isOpen, ?_⟩
  simpa [StoreOp.apply, content] using backed

end Stats

section Start

variable (codec) (fs : FileSystem) (baseDir queueName : Bytes)

def start : Store :=
  ((new fs baseDir queueName).1.recovery codec (new fs baseDir queueName).2,
    (new fs baseDir queueName).2)

variable {fs baseDir queueName}

theorem new_of_absent (absent : fs.files (resolve (path baseDir queueName)) = none)
    (openable : fs.openable (resolve (path baseDir queueName)) = true) :
    Healthy codec (new fs baseDir queueName) [] [] := by
  rw [new_absent absent openable]
  refine ⟨⟨rfl, rfl, by simpa using openable, by simp [FileSystem.files_put_self]⟩, rfl, ?_⟩
  simpa [content] using Backed.empty

theorem new_of_present (present : (fs.files (resolve (path baseDir queueName))).isSome)
    (openable : fs.openable (resolve (path baseDir queueName)) = true) :
    Attached (new fs baseDir queueName) ∧ (new fs baseDir queueName).1.file.ready = true ∧
      (new fs baseDir queueName).1.msgs = [] ∧ (new fs baseDir queueName).1.pushed = 0 ∧
      (new fs baseDir queueName).2 = fs := by
  rw [new_present present openable]
  exact ⟨⟨rfl, rfl, openable, present⟩, rfl, rfl, rfl, rfl⟩

theorem start_of_absent (absent : fs.files (resolve (path baseDir queueName)) = none)
    (openable : fs.openable (resolve (path baseDir queueName)) = true) :
    start codec fs baseDir queueName =
      start codec (fs.put (resolve (path baseDir queueName)) [] (Nat.zero_le _)) baseDir
        queueName := by
  rw [start, start, new_absent absent openable, new_present (by simp [FileSystem.files_put_self])
    (by simpa using openable)]

/-- A new object queues what it loads from its file and leaves the disk as it is. -/
theorem start_of_present (present : (fs.files (resolve (path baseDir queueName))).isSome)
    (openable : fs.openable (resolve (path baseDir queueName)) = true) :
    (start codec fs baseDir queueName).1.msgs =
        MessagePtr.number 0 (loaded codec (fs.content (resolve (path baseDir queueName)))) ∧
      (start codec fs baseDir queueName).1.pushed =
        (loaded codec (fs.content (resolve (path baseDir queueName)))).length ∧
      (start codec fs baseDir queueName).2 = fs := by
  obtain ⟨attached, ready, noMsgs, noPushed, sameFs⟩ := new_of_present present openable
  have sameKey := attached.key
  rw [new_filePath] at sameKey
  obtain ⟨msgsEq, pushedEq⟩ := recovery_msgs codec _ fs ready
  rw [noMsgs, noPushed, sameKey, List.nil_append] at msgsEq
  rw [noPushed, sameKey, Nat.zero_add] at pushedEq
  rw [start, sameFs]
  exact ⟨msgsEq, pushedEq, rfl⟩

variable (fs baseDir queueName) in
/-- Whether the file is there or not: an absent one is created empty. -/
theorem start_msgs :
    (start codec fs baseDir queueName).1.msgs =
      if fs.openable (resolve (path baseDir queueName)) then
        MessagePtr.number 0 (loaded codec (fs.content (resolve (path baseDir queueName))))
      else [] := by
  cases openable : fs.openable (resolve (path baseDir queueName)) with
  | false =>
    have closed : (new fs baseDir queueName).1.file.isOpen = false ∧
        (new fs baseDir queueName).1.msgs = [] := by
      simp [new, Stream.openInOut, Stream.openOut, Stream.clear, Stream.close, openable]
    simp [start, recovery, closed]
  | true =>
    cases stored : fs.files (resolve (path baseDir queueName)) with
    | none =>
      rw [start_of_absent codec stored openable, (start_of_present codec
        (by simp [FileSystem.files_put_self]) (by simpa using openable)).1]
      simp [FileSystem.content, stored, FileSystem.files_put_self]
    | some bytes =>
      rw [(start_of_present codec (Option.isSome_of_eq_some stored) openable).1, if_pos rfl]

variable {codec}

/-- Reading a file of records: the valid ones are queued in order, and the stream
is left failed because the last read ran into the end of the file. -/
theorem start_of_records (present : (fs.files (resolve (path baseDir queueName))).isSome)
    (openable : fs.openable (resolve (path baseDir queueName)) = true)
    (logged : Logged codec (fs.content (resolve (path baseDir queueName))) slots tail)
    (stop : unframe? tail = none) :
    Failed codec (start codec fs baseDir queueName) (relabel 0 slots) tail := by
  obtain ⟨attached, ready, -, -, sameFs⟩ := new_of_present present openable
  have sameKey := attached.key
  rw [new_filePath] at sameKey
  have failed := recovery_failbit codec _ fs ready (by
    rw [sameKey, logged.scan_eq stop]
    exact stop)
  have recovered := logged.recovered stop (content_length_lt_noOffset fs _) 0
  rw [← (start_of_present codec present openable).1] at recovered
  rw [start, sameFs] at recovered ⊢
  refine ⟨?_, failed, ?_⟩
  · exact attached.of_confined
      (sameFs.symm ▸ recovery_confined codec (new fs baseDir queueName).1 fs) (by simp)
  · simpa only [content, recovery_filePath, new_filePath] using recovered

/-- A new object on the store's file queues the tracked messages of the deque. -/
theorem Attached.restart_yields (attached : Attached store)
    (filePath : store.1.filePath = path baseDir queueName)
    (backed : Backed codec store.1.msgs (content store) slots tail) (stop : unframe? tail = none) :
    (start codec store.2 baseDir queueName).1.msgs.map MessagePtr.msg =
      (store.1.msgs.filter tracked).map MessagePtr.msg := by
  simp only [content, filePath] at backed
  have msgs := (start_of_present codec (filePath ▸ attached.present)
    (filePath ▸ attached.openable)).1
  rw [msgs, MessagePtr.number_map_msg, backed.loaded_eq stop (store.2.content_length_lt _),
    backed.tracked_eq, List.map_map]
  rfl

end Start

end Codec

end HzMq.Persistence
