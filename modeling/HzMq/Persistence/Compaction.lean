import HzMq.Persistence.Session
import HzMq.Server.QueueMessage.CompactLoop

/-!
# Compaction

`compact` rewrites the file as the deque stands: every message gets a record,
the ones that were never written included, and every offset and length is
re-based. Two runs are compared, with and without compactions. They agree on
the deque up to the places in the file, and they agree on what the file yields
as long as no removal takes a message whose record compaction made up: such a
record has an empty `valid` field, and its invalidation is three bytes longer.
-/

namespace HzMq.Persistence

open FileStream FramedLog QueueMessage Machine

section Compact

variable {codec : Codec} {store : Store} {slots : List Slot} {tail baseDir queueName : Bytes}

def slotsOf (msgs : List MessagePtr) : List Slot := msgs.map fun m => ⟨m.addr, m.payload⟩

theorem records_slotsOf (msgs : List MessagePtr) :
    records codec (slotsOf msgs) =
      frames (msgs.map fun m => codec.serializeToString m.payload) := by
  rw [records, slotsOf, List.map_map]
  rfl

theorem rebased_eq (offset : Nat) (msgs : List MessagePtr) :
    rebased codec offset msgs =
      (layout (Slot.record codec) offset (slotsOf msgs)).map pointer := by
  induction msgs generalizing offset with
  | nil => rfl
  | cons m ms ih =>
    rw [rebased, ih]
    rfl

theorem Attached.compact (attached : Attached store) (writable : Writable codec store .compact) :
    Attached (StoreOp.apply codec store .compact) ∧
      (StoreOp.apply codec store .compact).1.file.ready = true ∧
      (StoreOp.apply codec store .compact).1.msgs = rebased codec 0 store.1.msgs ∧
      content (StoreOp.apply codec store .compact) = records codec (slotsOf store.1.msgs) := by
  obtain ⟨allowed, room⟩ := writable
  obtain ⟨q, fs⟩ := store
  have isOpen : q.file.isOpen = true := attached.isOpen
  have opened := Stream.openOut_of_openable {} fs (q.filePath ++ str ".tmp") rfl allowed
  generalize tmpKey : resolve (q.filePath ++ str ".tmp") = key at opened
  obtain ⟨moved, bytes⟩ := compactLoop_ready codec { isOpen := true, key }
    (fs.put key [] (Nat.zero_le _)) rfl (by simp) q.msgs (by simpa using room)
  have confined := compactLoop_confined codec { isOpen := true, key }
    (fs.put key [] (Nat.zero_le _)) (some 0) q.msgs
  have tmpPresent := confined.present (by simp [FileSystem.files_put_self])
  have sameOpenable := confined.openable
  simp only [FileSystem.content_put_self, List.nil_append] at bytes
  simp only [FileSystem.openable_put] at sameOpenable
  have compacted : StoreOp.apply codec (q, fs) .compact =
      let fs' := (compactLoop codec { isOpen := true, key } (fs.put key [] (Nat.zero_le _)) (some 0)
        q.msgs).2.2.rename key (resolve q.filePath)
      ({ q with msgs := rebased codec 0 q.msgs
                file := q.file.close.openInOut fs' q.filePath }, fs') := by
    simp only [StoreOp.apply, QueueMessage.compact, if_pos isOpen, opened, if_true, tmpKey]
    rw [moved]
  generalize (compactLoop codec { isOpen := true, key } (fs.put key [] (Nat.zero_le _)) (some 0)
    q.msgs).2.2 = written at *
  have present : ((written.rename key (resolve q.filePath)).files (resolve q.filePath)).isSome := by
    rw [FileSystem.files_rename_new]
    exact tmpPresent
  have openable :
      (written.rename key (resolve q.filePath)).openable (resolve q.filePath) = true := by
    rw [FileSystem.openable_rename, sameOpenable]
    exact attached.openable
  have reopened := Stream.openInOut_of_exists q.file.close (written.rename key (resolve q.filePath))
    q.filePath (by simp [Stream.close, isOpen]) openable present
  simp only [reopened] at compacted
  rw [compacted]
  refine ⟨⟨rfl, rfl, openable, present⟩, rfl, rfl, ?_⟩
  rw [records_slotsOf]
  simp only [content, FileSystem.content, FileSystem.files_rename_new] at bytes ⊢
  exact bytes

/-- Compaction backs the deque of any attached store, by a record for every message. -/
theorem Attached.compact_healthy (attached : Attached store)
    (writable : Writable codec store .compact)
    (restores : ∀ m ∈ store.1.msgs, Restores codec m.payload) :
    Healthy codec (StoreOp.apply codec store .compact) (slotsOf store.1.msgs) [] := by
  obtain ⟨attached, ready, msgs, bytes⟩ := attached.compact writable
  have bound : (content (StoreOp.apply codec store .compact)).length < noOffset :=
    content_length_lt_noOffset _ _
  refine ⟨attached, ready, ⟨by rw [bytes, List.append_nil], ?_⟩, ?_⟩
  · intro s member
    obtain ⟨m, queued, rfl⟩ := List.mem_map.mp member
    exact restores m queued
  · rw [msgs, rebased_eq, ← placed, List.filter_map]
    congr 1
    apply List.filter_congr
    intro e member
    have bounds := placed_bounds member
    rw [bytes] at bound
    have positioned : e.offset ≠ noOffset := by omega
    simp [tracked, pointer, MessagePtr.payload, live, positioned]

theorem Attached.compact_tracked (attached : Attached store)
    (writable : Writable codec store .compact)
    (allTracked : ∀ m ∈ store.1.msgs, tracked m = true) :
    ∀ m ∈ (StoreOp.apply codec store .compact).1.msgs, tracked m = true := by
  obtain ⟨-, -, msgs, bytes⟩ := attached.compact writable
  have bound : (content (StoreOp.apply codec store .compact)).length < noOffset :=
    content_length_lt_noOffset _ _
  rw [msgs, rebased_eq, ← placed]
  intro m member
  obtain ⟨e, inPlaced, rfl⟩ := List.mem_map.mp member
  have bounds := placed_bounds inPlaced
  rw [bytes] at bound
  have positioned : e.offset ≠ noOffset := by omega
  have value := List.mem_map_of_mem (f := Entry.value) inPlaced
  rw [placed, layout_values] at value
  obtain ⟨x, queued, same⟩ := List.mem_map.mp value
  have isTracked := allTracked x queued
  simp only [tracked, Bool.and_eq_true, beq_iff_eq] at isTracked
  simpa [tracked, pointer, MessagePtr.payload, positioned, ← same] using isTracked.1

theorem Healthy.compact (healthy : Healthy codec store slots tail)
    (writable : Writable codec store .compact)
    (restores : ∀ m ∈ store.1.msgs, Restores codec m.payload) :
    Healthy codec (StoreOp.apply codec store .compact) (slotsOf store.1.msgs) [] :=
  healthy.attached.compact_healthy writable restores

end Compact

def unplaced (m : MessagePtr) : MessagePtr := ⟨m.addr, { payload := m.msg.payload }⟩

@[simp] theorem unplaced_id (m : MessagePtr) : (unplaced m).id = m.id := rfl

/-- Which message a removal takes does not depend on places in the file. -/
theorem target_unplaced (msgs : List MessagePtr) (id : Bytes) :
    target (msgs.map unplaced) id =
      (target msgs id).map fun found => (unplaced found.1, found.2.map unplaced) := by
  cases msgs with
  | nil => rfl
  | cons head rest =>
    by_cases empty : id = []
    · simp [target, empty]
    · simp only [target, List.map_cons, if_neg empty]
      rw [← List.map_cons, List.find?_map, List.eraseP_map]
      simp only [Function.comp_def, unplaced_id, Option.map_map]

structure Agree (first second : Store) : Prop where
  msgs : first.1.msgs.map unplaced = second.1.msgs.map unplaced
  pushed : first.1.pushed = second.1.pushed

section Agree

variable {codec : Codec} {first second : Store}

theorem insert_unplaced (store : Store) (isOpen : store.1.file.isOpen = true)
    (bp : Option BasicProperties) (body : Bytes) (durable : Bool) :
    (StoreOp.apply codec store (.insert bp body durable)).1.msgs.map unplaced =
      store.1.msgs.map unplaced ++ [⟨store.1.pushed,
        { payload := if durable then marked bp body else (makeMessage bp body).payload }⟩] := by
  cases durable with
  | false => simp [StoreOp.apply, QueueMessage.insert, persist, unplaced]
  | true =>
    simp [StoreOp.apply, QueueMessage.insert, persist, writePersistent, isOpen, unplaced, marked]

theorem Agree.insert (codec : Codec) (agree : Agree first second)
    (firstOpen : first.1.file.isOpen = true)
    (secondOpen : second.1.file.isOpen = true) (bp : Option BasicProperties) (body : Bytes)
    (durable : Bool) :
    Agree (StoreOp.apply codec first (.insert bp body durable))
      (StoreOp.apply codec second (.insert bp body durable)) where
  msgs := by
    rw [insert_unplaced first firstOpen, insert_unplaced second secondOpen, agree.msgs,
      agree.pushed]
  pushed := congrArg (· + 1) agree.pushed

theorem remove_unplaced (store : Store) (id : Bytes) :
    (StoreOp.apply codec store (.remove id)).1.msgs.map unplaced =
      match target (store.1.msgs.map unplaced) id with
      | none => store.1.msgs.map unplaced
      | some (_, rest) => rest := by
  rw [target_unplaced]
  cases found : target store.1.msgs id with
  | none => rw [apply_remove_miss found]; rfl
  | some pair => rw [apply_remove_msgs codec found]; rfl

theorem Agree.remove (agree : Agree first second) (id : Bytes) :
    Agree (StoreOp.apply codec first (.remove id)) (StoreOp.apply codec second (.remove id)) where
  msgs := by rw [remove_unplaced, remove_unplaced, agree.msgs]
  pushed := by simpa [StoreOp.apply] using agree.pushed

theorem Agree.getStats (agree : Agree first second) :
    Agree (StoreOp.apply codec first .getStats) (StoreOp.apply codec second .getStats) where
  msgs := by simpa [StoreOp.apply] using agree.msgs
  pushed := by simpa [StoreOp.apply] using agree.pushed

theorem rebased_unplaced (offset : Nat) (msgs : List MessagePtr) :
    (rebased codec offset msgs).map unplaced = msgs.map unplaced := by
  induction msgs generalizing offset with
  | nil => rfl
  | cons m ms ih =>
    rw [rebased, List.map_cons, List.map_cons, ih]
    rfl

end Agree

/-- Compaction has not made up a record for the message that is removed. -/
def OwnRecord (store : Store) : StoreOp → Prop
  | .remove id => ∀ found ∈ target store.1.msgs id,
      found.1.payload.valid = validMark ∨ found.1.msg.length = 0
  | _ => True

instance (store : Store) (op : StoreOp) : Decidable (OwnRecord store op) :=
  match op with
  | .insert _ _ _ => isTrue trivial
  | .remove _ => inferInstanceAs (Decidable (∀ found ∈ (_ : Option _), _))
  | .getStats => isTrue trivial
  | .compact => isTrue trivial

/-- What a run keeps with or without compactions: the log backs the deque, the
messages marked valid are the ones that are backed, and all can be written. -/
structure Compactable (codec : Codec) (baseDir queueName : Bytes) (store : Store) : Prop where
  filePath : store.1.filePath = path baseDir queueName
  healthy : ∃ slots, Healthy codec store slots []
  validTracked : ∀ m ∈ store.1.msgs, m.payload.valid = validMark → tracked m = true
  restores : ∀ m ∈ store.1.msgs, Restores codec m.payload

section Compactable

variable {codec : Codec} {baseDir queueName : Bytes} {store : Store}

theorem Compactable.inserted (run : Compactable codec baseDir queueName store)
    {bp : Option BasicProperties} {body : Bytes} {durable : Bool} {m : MessagePtr}
    (healthy : ∃ slots,
      Healthy codec (StoreOp.apply codec store (.insert bp body durable)) slots [])
    (msgs : (StoreOp.apply codec store (.insert bp body durable)).1.msgs = store.1.msgs ++ [m])
    (validTracked : m.payload.valid = validMark → tracked m = true)
    (restores : Restores codec m.payload) :
    Compactable codec baseDir queueName (StoreOp.apply codec store (.insert bp body durable)) := by
  refine ⟨run.filePath, healthy, ?_, ?_⟩
  · intro x member
    rw [msgs] at member
    rcases List.mem_append.mp member with old | new
    · exact run.validTracked x old
    · rw [List.mem_singleton.mp new]
      exact validTracked
  · intro x member
    rw [msgs] at member
    rcases List.mem_append.mp member with old | new
    · exact run.restores x old
    · rw [List.mem_singleton.mp new]
      exact restores

theorem Compactable.insert (run : Compactable codec baseDir queueName store)
    {bp : Option BasicProperties} {body : Bytes} {durable : Bool}
    (writable : Writable codec store (.insert bp body durable))
    (restores : Restores codec (makeMessage bp body).payload) :
    Compactable codec baseDir queueName (StoreOp.apply codec store (.insert bp body durable)) := by
  obtain ⟨slots, healthy⟩ := run.healthy
  cases durable with
  | true =>
    obtain ⟨-, msgs, -⟩ := healthy.apply_insert bp body writable
    exact run.inserted ⟨_, healthy.insert_durable bp body writable⟩ msgs
      (fun _ => written_tracked bp body) writable.1
  | false =>
    have msgs : (StoreOp.apply codec store (.insert bp body false)).1.msgs =
        store.1.msgs ++ [⟨store.1.pushed, makeMessage bp body⟩] := rfl
    exact run.inserted ⟨slots, healthy.insert_volatile bp body⟩ msgs
      (fun valid => absurd valid.symm validMark_ne_nil) restores

theorem Compactable.remove (run : Compactable codec baseDir queueName store) {id : Bytes}
    (own : OwnRecord store (.remove id)) :
    Compactable codec baseDir queueName (StoreOp.apply codec store (.remove id)) := by
  cases found : target store.1.msgs id with
  | none =>
    rw [apply_remove_miss found]
    exact run
  | some pair =>
    obtain ⟨m, rest⟩ := pair
    obtain ⟨slots, healthy⟩ := run.healthy
    have inDeque := fun x => mem_of_target (x := x) found
    have msgs := apply_remove_msgs codec found
    have next : ∃ slots, Healthy codec (StoreOp.apply codec store (.remove id)) slots [] := by
      cases isTracked : tracked m with
      | true =>
        obtain ⟨_, _, _, _, _, _, next⟩ := healthy.remove_tracked found isTracked
        exact ⟨_, next⟩
      | false =>
        have unwritten : m.msg.length = 0 := by
          refine (own (m, rest) found).resolve_left ?_
          intro valid
          have contrary := run.validTracked m ((inDeque m).mpr (Or.inl rfl)) valid
          rw [isTracked] at contrary
          cases contrary
        exact ⟨slots, healthy.remove_unwritten found unwritten isTracked⟩
    refine ⟨by simp [run.filePath], next, ?_, ?_⟩
    · intro x member
      rw [msgs] at member
      exact run.validTracked x ((inDeque x).mpr (Or.inr member))
    · intro x member
      rw [msgs] at member
      exact run.restores x ((inDeque x).mpr (Or.inr member))

theorem Compactable.getStats (run : Compactable codec baseDir queueName store) :
    Compactable codec baseDir queueName (StoreOp.apply codec store .getStats) := by
  obtain ⟨slots, healthy⟩ := run.healthy
  refine ⟨by simp [run.filePath], ⟨slots, healthy.attached.heal healthy.backed⟩, ?_, ?_⟩
  · simpa [StoreOp.apply] using run.validTracked
  · simpa [StoreOp.apply] using run.restores

theorem Compactable.compact (run : Compactable codec baseDir queueName store)
    (writable : Writable codec store .compact) :
    Compactable codec baseDir queueName (StoreOp.apply codec store .compact) := by
  obtain ⟨slots, healthy⟩ := run.healthy
  obtain ⟨-, -, msgs, bytes⟩ := healthy.attached.compact writable
  have bound : (content (StoreOp.apply codec store .compact)).length < noOffset :=
    content_length_lt_noOffset _ _
  refine ⟨by simp [run.filePath], ⟨_, healthy.compact writable run.restores⟩, ?_, ?_⟩
  · intro m member valid
    rw [msgs, rebased_eq] at member
    obtain ⟨e, inPlaced, rfl⟩ := List.mem_map.mp member
    have bounds := placed_bounds inPlaced
    rw [bytes] at bound
    have positioned : e.offset ≠ noOffset := by omega
    simpa [tracked, pointer, MessagePtr.payload, positioned] using valid
  · intro m member
    rw [msgs] at member
    have kept := List.mem_map_of_mem (f := unplaced) member
    rw [rebased_unplaced] at kept
    obtain ⟨x, queued, same⟩ := List.mem_map.mp kept
    have payload : x.payload = m.payload := congrArg (fun x => x.msg.payload) same
    rw [← payload]
    exact run.restores x queued

/-- What the file yields is the part of the deque that is marked valid. -/
theorem Compactable.recovers (run : Compactable codec baseDir queueName store) :
    (start codec store.2 baseDir queueName).1.msgs.map MessagePtr.payload =
      (store.1.msgs.map MessagePtr.payload).filter fun p => p.valid == validMark := by
  obtain ⟨slots, attached, -, backed⟩ := run.healthy
  have yields := attached.restart_yields run.filePath backed rfl
  have payloads := congrArg (List.map Message.payload) yields
  rw [List.map_map, List.map_map] at payloads
  refine payloads.trans ?_
  rw [List.filter_map]
  congr 1
  apply List.filter_congr
  intro m member
  rw [Bool.eq_iff_iff, Function.comp_apply, beq_iff_eq]
  refine ⟨?_, run.validTracked m member⟩
  intro isTracked
  simp only [tracked, Bool.and_eq_true, beq_iff_eq] at isTracked
  exact isTracked.1

end Compactable

theorem InSession.ownRecord {codec : Codec} {store : Store} {log : List (Nat × MessagePayload)}
    (session : InSession codec store log) (op : StoreOp) : OwnRecord store op := by
  cases op with
  | remove id =>
    intro found taken
    have member := (mem_of_target (x := found.1) taken).mpr (Or.inl rfl)
    cases isTracked : tracked found.1 with
    | true =>
      simp only [tracked, Bool.and_eq_true, beq_iff_eq] at isTracked
      exact Or.inl isTracked.1
    | false => exact Or.inr (session.untracked found.1 member isTracked).1
  | _ => trivial

/-- Two runs from related stores, the second without the compactions. -/
theorem compaction_runs {codec : Codec} {baseDir queueName : Bytes} (ops : List StoreOp)
    {first second : Store} {log : List (Nat × MessagePayload)} (agree : Agree first second)
    (firstRun : Compactable codec baseDir queueName first)
    (secondRun : Compactable codec baseDir queueName second)
    (session : InSession codec second log)
    (firstWritable : Along (StoreOp.apply codec) (Writable codec) first ops)
    (secondWritable : Along (StoreOp.apply codec) (Writable codec) second
      (ops.filter fun op => !isCompact op))
    (restores : ∀ bp body durable, StoreOp.insert bp body durable ∈ ops →
      Restores codec (makeMessage bp body).payload)
    (own : Along (StoreOp.apply codec) OwnRecord first ops) :
    Agree (exec (StoreOp.apply codec) first ops)
        (exec (StoreOp.apply codec) second (ops.filter fun op => !isCompact op)) ∧
      Compactable codec baseDir queueName (exec (StoreOp.apply codec) first ops) ∧
      Compactable codec baseDir queueName
        (exec (StoreOp.apply codec) second (ops.filter fun op => !isCompact op)) := by
  induction ops generalizing first second log with
  | nil => exact ⟨agree, firstRun, secondRun⟩
  | cons op ops ih =>
    have later : ∀ bp body durable, StoreOp.insert bp body durable ∈ ops →
        Restores codec (makeMessage bp body).payload := fun bp body durable member =>
      restores bp body durable (List.mem_cons_of_mem _ member)
    obtain ⟨firstNow, firstLater⟩ := firstWritable
    obtain ⟨ownNow, ownLater⟩ := own
    obtain ⟨_, firstHealthy⟩ := firstRun.healthy
    cases op with
    | compact =>
      -- the second run does not take this step
      obtain ⟨-, -, msgs, -⟩ := firstHealthy.attached.compact firstNow
      refine ih ⟨?_, ?_⟩ (firstRun.compact firstNow) secondRun session firstLater secondWritable
        later ownLater
      · rw [msgs, rebased_unplaced, agree.msgs]
      · rw [compact_pushed]
        exact agree.pushed
    | insert bp body durable =>
      obtain ⟨secondNow, secondLater⟩ := secondWritable
      have plain := restores bp body durable (by simp)
      have agreeNext := Agree.insert codec agree firstHealthy.attached.isOpen
        session.healthy.attached.isOpen bp body durable
      cases durable with
      | true =>
        exact ih agreeNext (firstRun.insert firstNow plain) (secondRun.insert secondNow plain)
          (session.insert_durable bp body secondNow) firstLater secondLater later ownLater
      | false =>
        exact ih agreeNext (firstRun.insert firstNow plain) (secondRun.insert secondNow plain)
          (session.insert_volatile bp body) firstLater secondLater later ownLater
    | remove id =>
      exact ih (agree.remove id) (firstRun.remove ownNow)
        (secondRun.remove (session.ownRecord (.remove id))) (session.remove id) firstLater
        secondWritable.2 later ownLater
    | getStats =>
      exact ih agree.getStats firstRun.getStats secondRun.getStats session.getStats firstLater
        secondWritable.2 later ownLater

section Transparent

variable (codec : Codec) (fs : FileSystem) (baseDir queueName : Bytes)

/-- Compactions anywhere in a run change neither the deque nor what the file
yields, as long as every removal finds the message's own record. -/
theorem compact_transparent
    (absent : fs.files (resolve (path baseDir queueName)) = none)
    (openable : fs.openable (resolve (path baseDir queueName)) = true)
    (ops : List StoreOp)
    (writable : Along (StoreOp.apply codec) (Writable codec) (new fs baseDir queueName) ops)
    (writablePlain : Along (StoreOp.apply codec) (Writable codec) (new fs baseDir queueName)
      (ops.filter fun op => !isCompact op))
    (restores : ∀ bp body durable, StoreOp.insert bp body durable ∈ ops →
      Restores codec (makeMessage bp body).payload)
    (own : Along (StoreOp.apply codec) OwnRecord (new fs baseDir queueName) ops) :
    let compacted := exec (StoreOp.apply codec) (new fs baseDir queueName) ops
    let plain := exec (StoreOp.apply codec) (new fs baseDir queueName)
      (ops.filter fun op => !isCompact op)
    compacted.1.getAllMessages.map unplaced = plain.1.getAllMessages.map unplaced ∧
      compacted.1.front.map unplaced = plain.1.front.map unplaced ∧
      (start codec compacted.2 baseDir queueName).1.msgs.map MessagePtr.payload =
        (start codec plain.2 baseDir queueName).1.msgs.map MessagePtr.payload := by
  intro compacted plain
  obtain ⟨session, -⟩ := InSession.fresh codec fs baseDir queueName absent openable
  have noMsgs : (new fs baseDir queueName).1.msgs = [] := by
    rw [new_absent absent openable]
  have fresh : Compactable codec baseDir queueName (new fs baseDir queueName) :=
    ⟨new_filePath, ⟨_, session.healthy⟩, by simp [noMsgs], by simp [noMsgs]⟩
  obtain ⟨agree, firstRun, secondRun⟩ := compaction_runs ops ⟨rfl, rfl⟩ fresh fresh session
    writable writablePlain restores own
  have payloads :
      compacted.1.msgs.map MessagePtr.payload = plain.1.msgs.map MessagePtr.payload := by
    have same := congrArg (List.map MessagePtr.payload) agree.msgs
    rw [List.map_map, List.map_map] at same
    exact same
  refine ⟨agree.msgs, ?_, ?_⟩
  · rw [front, front, ← List.head?_map, ← List.head?_map]
    exact congrArg List.head? agree.msgs
  · rw [firstRun.recovers, secondRun.recovers, payloads]

end Transparent

/-- A durable message survives a compaction between its insertion and a removal. -/
theorem compact_transparent_example :
    let ops : List StoreOp :=
      [.insert (some { id := str "a" }) (str "x") true, .insert none (str "y") false,
        .insert (some { id := str "b" }) (str "z") true, .compact, .remove (str "a")]
    let compacted := exec (StoreOp.apply Wire.codec)
      (new (.blank 4096 (by decide)) (str "d") (str "q")) ops
    let plain := exec (StoreOp.apply Wire.codec) (new (.blank 4096 (by decide)) (str "d") (str "q"))
      (ops.filter fun op => !isCompact op)
    (start Wire.codec compacted.2 (str "d") (str "q")).1.msgs.map MessagePtr.payload =
      (start Wire.codec plain.2 (str "d") (str "q")).1.msgs.map MessagePtr.payload :=
  (compact_transparent Wire.codec (.blank 4096 (by decide)) (str "d") (str "q") rfl rfl _
    (by decide) (by decide) (by
      intro bp body durable member
      simp only [List.mem_cons, StoreOp.insert.injEq, List.not_mem_nil, reduceCtorEq, or_false]
        at member
      rcases member with ⟨rfl, rfl, -⟩ | ⟨rfl, rfl, -⟩ | ⟨rfl, rfl, -⟩ <;> decide)
    (by decide)).2.2

/-- Compaction writes the volatile message in front; its removal then runs over the
head of the durable message behind it, which the file no longer yields. -/
theorem compact_loses_record :
    let ops : List StoreOp :=
      [.insert (some { id := str "a" }) (str "x") false,
        .insert (some { id := str "b" }) (str "y") true, .compact, .remove (str "a")]
    let fresh := new (.blank 4096 (by decide)) (str "d") (str "q")
    let plainOps := ops.filter fun op => !isCompact op
    let compacted := exec (StoreOp.apply Wire.codec) fresh ops
    let plain := exec (StoreOp.apply Wire.codec) fresh plainOps
    Along (StoreOp.apply Wire.codec) (Writable Wire.codec) fresh ops ∧
      Along (StoreOp.apply Wire.codec) (Writable Wire.codec) fresh plainOps ∧
      (start Wire.codec plain.2 (str "d") (str "q")).1.msgs.map MessagePtr.body = [str "y"] ∧
      (start Wire.codec compacted.2 (str "d") (str "q")).1.msgs = [] := by
  decide +kernel

end HzMq.Persistence
