import HzMq.Common.Wire
import HzMq.Persistence.Session

/-!
# A message whose record was not written

`insert` keeps a message that `write_persistent` refused, with an offset and a
length all the same. A failed stream gives the position -1, and four bytes behind
it is byte 3 of the file. As long as the stream stays failed its removal reaches
nothing; `get_stats` brings the stream back.
-/

namespace HzMq.Persistence

open FileStream FramedLog QueueMessage Machine

def Begun (codec : Codec) (store : Store) : Prop :=
  ∃ fs baseDir queueName,
    store = new fs baseDir queueName ∨ store = start codec fs baseDir queueName

def OnFile (store : Store) : Prop :=
  store.1.file.isOpen = true → store.1.file.key = resolve store.1.filePath

def refusedMessage (codec : Codec) (store : Store) (bp : Option BasicProperties) (body : Bytes) :
    MessagePtr :=
  ⟨store.1.pushed, (writePersistent codec store.1.file store.2 (makeMessage bp body)).2.1⟩

def recordPayload (codec : Codec) (bytes : Bytes) (m : MessagePtr) : Option MessagePayload :=
  (unframe? (bytes.drop m.msg.offset)).bind fun r => codec.parseFromString r.1

/-- A removal that changes no byte of the file, and so no record of the messages that stay. -/
structure Harmless (codec : Codec) (store : Store) (id : Bytes) : Prop where
  bytes : content (StoreOp.apply codec store (.remove id)) = content store
  records : ∀ x ∈ (StoreOp.apply codec store (.remove id)).1.msgs,
    recordPayload codec (content (StoreOp.apply codec store (.remove id))) x =
      recordPayload codec (content store) x

def straySpot (store : Store) : Nat :=
  if store.1.file.failbit then 3 else (content store).length + 4

def AlreadyThere (codec : Codec) (store later : Store) (bp : Option BasicProperties)
    (body : Bytes) : Prop :=
  overwrite (content later) (straySpot store)
      ((codec.serializeToString ((makeMessage bp body).payload.setValid invalidMark)).take
        (later.2.capacity - straySpot store)) = content later

section OnFile

variable {codec : Codec} {store : Store}

variable (codec store) in
theorem apply_confined (op : StoreOp) (other : isCompact op = false) :
    Stream.Confined store.1.file store.2 (StoreOp.apply codec store op).1.file
      (StoreOp.apply codec store op).2 := by
  cases op with
  | insert bp body durable => exact insert_confined codec store.1 store.2 bp body durable
  | remove id => exact remove_confined codec store.1 store.2 id
  | getStats => exact getStats_confined codec store.1 store.2
  | compact => cases other

theorem exec_confined {ops : List StoreOp} (noCompact : ∀ op ∈ ops, isCompact op = false)
    (store : Store) :
    Stream.Confined store.1.file store.2 (exec (StoreOp.apply codec) store ops).1.file
      (exec (StoreOp.apply codec) store ops).2 := by
  induction ops generalizing store with
  | nil => exact Stream.Confined.refl store.1.file store.2
  | cons op ops ih =>
    obtain ⟨first, others⟩ := List.forall_mem_cons.mp noCompact
    exact (apply_confined codec store op first).trans (ih others _)

theorem OnFile.new (fs : FileSystem) (baseDir queueName : Bytes) :
    OnFile (new fs baseDir queueName) := by
  intro isOpen
  simp only [QueueMessage.new] at isOpen ⊢
  split at isOpen
  next first =>
    rw [if_pos first]
    exact Stream.openInOut_key {} fs _ rfl first
  next first =>
    rw [if_neg first]
    exact Stream.openInOut_key _ _ _ (Stream.close_isOpen _) isOpen

theorem OnFile.apply (onFile : OnFile store) (op : StoreOp) :
    OnFile (StoreOp.apply codec store op) := by
  cases compacts : isCompact op with
  | false =>
    have confined := apply_confined codec store op compacts
    intro isOpen
    rw [confined.key, apply_filePath]
    exact onFile (confined.isOpen.symm.trans isOpen)
  | true =>
    cases op with
    | compact =>
      simp only [StoreOp.apply, QueueMessage.compact]
      split
      · split
        · intro isOpen
          exact Stream.openInOut_key _ _ _ (Stream.close_isOpen _) isOpen
        · exact onFile
      · exact onFile
    | _ => cases compacts

theorem OnFile.of_reachable (reached : Reachable (Begun codec) (StoreOp.apply codec) store) :
    OnFile store := by
  refine reached.invariant ?_ fun s op onFile => onFile.apply op
  rintro s ⟨fs, baseDir, queueName, rfl | rfl⟩
  · exact OnFile.new fs baseDir queueName
  · intro isOpen
    simp only [start, recovery_isOpen, recovery_key, recovery_filePath] at isOpen ⊢
    exact OnFile.new fs baseDir queueName isOpen

/-- Only `get_stats` brings a stream back. -/
theorem apply_not_ready {op : StoreOp} (other : isCompact op = false) (noStats : op ≠ .getStats)
    (notReady : store.1.file.ready = false) :
    (StoreOp.apply codec store op).1.file.ready = false := by
  cases op with
  | insert bp body durable =>
    refine Bool.eq_false_iff.mpr ?_
    intro ready
    have before := ready_of_persist_ready codec store.1.file store.2 _ durable ready
    rw [notReady] at before
    cases before
  | remove id =>
    cases found : target store.1.msgs id with
    | none =>
      rw [apply_remove_miss found]
      exact notReady
    | some taken =>
      refine Bool.eq_false_iff.mpr ?_
      intro ready
      simp only [StoreOp.apply, remove_of_target codec store.1 store.2 found] at ready
      have before := ready_of_invalidatePersistent_ready codec store.1.file store.2 _ ready
      rw [notReady] at before
      cases before
  | getStats => exact absurd rfl noStats
  | compact => cases other

theorem exec_not_ready {ops : List StoreOp} (noCompact : ∀ op ∈ ops, isCompact op = false)
    (noStats : .getStats ∉ ops) (notReady : store.1.file.ready = false) :
    (exec (StoreOp.apply codec) store ops).1.file.ready = false := by
  induction ops generalizing store with
  | nil => exact notReady
  | cons op ops ih =>
    obtain ⟨first, others⟩ := List.forall_mem_cons.mp noCompact
    obtain ⟨notStats, later⟩ := not_or.mp (mt List.mem_cons.mpr noStats)
    exact ih others later (apply_not_ready first (Ne.symm notStats) notReady)

end OnFile

section Refused

variable {codec : Codec} {store later : Store} {bp : Option BasicProperties} {body : Bytes}

/-- The removal does to the file what the invalidation does, and nothing else happens to the
records. -/
theorem harmless_iff (later : Store) {id : Bytes} {m : MessagePtr} {rest : List MessagePtr}
    (found : target later.1.msgs id = some (m, rest)) :
    Harmless codec later id ↔
      (invalidatePersistent codec later.1.file later.2 m.msg).2.content
        (resolve later.1.filePath) = content later := by
  have after : content (StoreOp.apply codec later (.remove id)) =
      (invalidatePersistent codec later.1.file later.2 m.msg).2.content
        (resolve later.1.filePath) := by
    simp only [content, StoreOp.apply, remove_of_target codec later.1 later.2 found]
  constructor
  · intro harmless
    rw [← after, harmless.bytes]
  · intro same
    rw [← after] at same
    exact ⟨same, fun x _ => by rw [same]⟩

/-- A closed stream gives the message no length, so that its removal skips the file. -/
theorem refusedMessage_closed (closed : store.1.file.isOpen = false) :
    (refusedMessage codec store bp body).msg.length = 0 := by
  rw [refusedMessage, writePersistent_closed codec (makeMessage bp body) store.2 closed]
  rfl

variable (codec bp body) in
theorem refusedMessage_open (onFile : OnFile store) (isOpen : store.1.file.isOpen = true) :
    (refusedMessage codec store bp body).msg.length ≠ 0 ∧
      ((refusedMessage codec store bp body).msg.offset + 4) % 2 ^ 64 = straySpot store ∧
      (refusedMessage codec store bp body).payload.setValid invalidMark =
        (makeMessage bp body).payload.setValid invalidMark := by
  have bound := store.2.content_length_le (resolve store.1.filePath)
  have limit := store.2.capacity_lt
  simp only [refusedMessage, MessagePtr.payload,
    writePersistent_placed codec (makeMessage bp body) store.2 isOpen, straySpot, onFile isOpen,
    content]
  refine ⟨by simp [recordOf], ?_, rfl⟩
  cases store.1.file.failbit with
  | false =>
    simp only [Bool.false_eq_true, if_false]
    omega
  | true => simp [noOffset]

theorem apply_insert_refused (refused : (writePersistent codec store.1.file store.2
    (makeMessage bp body)).1 = false) :
    (StoreOp.apply codec store (.insert bp body true)).1.file.ready = false :=
  writePersistent_refused codec (makeMessage bp body) store.2 refused

/-- What the removal of the refused message does to the file, wherever its stream is later. -/
theorem refused_harmless_iff (onFile : OnFile store)
    (confined : Stream.Confined store.1.file store.2 later.1.file later.2)
    (samePath : later.1.filePath = store.1.filePath) {id : Bytes} {rest : List MessagePtr}
    (found : target later.1.msgs id = some (refusedMessage codec store bp body, rest)) :
    Harmless codec later id ↔
      store.1.file.isOpen = false ∨ later.1.file.ready = false ∨
        AlreadyThere codec store later bp body := by
  rw [harmless_iff later found]
  cases isOpen : store.1.file.isOpen with
  | false =>
    rw [invalidatePersistent_unwritten codec _ _ (refusedMessage_closed isOpen)]
    simp [content]
  | true =>
    cases ready : later.1.file.ready with
    | false =>
      rw [invalidatePersistent_not_ready codec _ _ ready]
      simp [content]
    | true =>
      obtain ⟨written, spot, payload⟩ := refusedMessage_open codec bp body onFile isOpen
      have key : later.1.file.key = resolve later.1.filePath := by
        rw [confined.key, onFile isOpen, samePath]
      have overwritten := invalidatePersistent_content codec
        (refusedMessage codec store bp body).msg later.2 ready written
      rw [spot, key] at overwritten
      rw [overwritten]
      simp only [Bool.true_eq_false, false_or, AlreadyThere, ← payload]
      rfl

end Refused

/-- The removal of a message whose record was refused does no harm if the stream was closed then
or `get_stats` was not called since; and exactly when the stream was closed then, or cannot write
now, or has nothing to change. -/
theorem refused_removal_harmless {codec : Codec} {store : Store}
    (reached : Reachable (Begun codec) (StoreOp.apply codec) store)
    {bp : Option BasicProperties} {body : Bytes}
    (refused : (writePersistent codec store.1.file store.2 (makeMessage bp body)).1 = false)
    {ops : List StoreOp} (noCompact : ∀ op ∈ ops, isCompact op = false) {id : Bytes}
    {rest : List MessagePtr}
    (found : target (exec (StoreOp.apply codec) store (.insert bp body true :: ops)).1.msgs id =
      some (refusedMessage codec store bp body, rest)) :
    let later := exec (StoreOp.apply codec) store (.insert bp body true :: ops)
    (store.1.file.isOpen = false ∨ .getStats ∉ ops → Harmless codec later id) ∧
      (Harmless codec later id ↔
        store.1.file.isOpen = false ∨ later.1.file.ready = false ∨
          AlreadyThere codec store later bp body) := by
  intro later
  have confined : Stream.Confined store.1.file store.2 later.1.file later.2 :=
    exec_confined (List.forall_mem_cons.mpr ⟨rfl, noCompact⟩) store
  have exact' := refused_harmless_iff (OnFile.of_reachable reached) confined
    (exec_filePath codec store _) found
  refine ⟨fun condition => exact'.mpr ?_, exact'⟩
  rcases condition with closed | noStats
  · exact Or.inl closed
  · have stillFailed : (exec (StoreOp.apply codec)
        (StoreOp.apply codec store (.insert bp body true)) ops).1.file.ready = false :=
      exec_not_ready noCompact noStats (apply_insert_refused refused)
    exact Or.inr (Or.inl stillFailed)

/-- Without `get_stats` the stream stays failed: `b` is refused like `a`, and removing `a` writes
nothing. -/
theorem refused_removal_harmless_example :
    let store := start Wire.codec (FileSystem.blank 4096 (by decide)) (str "d") (str "q")
    Harmless Wire.codec
      (exec (StoreOp.apply Wire.codec) store
        [.insert (some { id := str "a" }) (str "x") true,
          .insert (some { id := str "b" }) (str "y") true]) (str "a") := by
  intro store
  have found : target (exec (StoreOp.apply Wire.codec) store
      [.insert (some { id := str "a" }) (str "x") true,
        .insert (some { id := str "b" }) (str "y") true]).1.msgs (str "a") =
      some (refusedMessage Wire.codec store (some { id := str "a" }) (str "x"),
        [refusedMessage Wire.codec
          (StoreOp.apply Wire.codec store (.insert (some { id := str "a" }) (str "x") true))
          (some { id := str "b" }) (str "y")]) := by
    decide
  exact (refused_removal_harmless (.start ⟨_, _, _, Or.inr rfl⟩) (by decide) (by decide) found).1
    (Or.inr (by decide))

/-- An object that has read its empty file has a failed stream and refuses `a`. After `get_stats` it
writes `b`, and removing `a` then spoils the record of `b`. -/
theorem refused_removal_spoils_record :
    let store := start Wire.codec (FileSystem.blank 4096 (by decide)) (str "d") (str "q")
    let ops : List StoreOp := [.getStats, .insert (some { id := str "b" }) (str "y") true]
    let later := exec (StoreOp.apply Wire.codec) store
      (.insert (some { id := str "a" }) (str "x") true :: ops)
    let a := refusedMessage Wire.codec store (some { id := str "a" }) (str "x")
    let b := written Wire.codec (exec (StoreOp.apply Wire.codec) store
      [.insert (some { id := str "a" }) (str "x") true, .getStats])
        (some { id := str "b" }) (str "y")
    Reachable (Begun Wire.codec) (StoreOp.apply Wire.codec) store ∧
      (writePersistent Wire.codec store.1.file store.2
        (makeMessage (some { id := str "a" }) (str "x"))).1 = false ∧
      (∀ op ∈ ops, isCompact op = false) ∧ target later.1.msgs (str "a") = some (a, [b]) ∧
      recordPayload Wire.codec (content later) b =
        some (marked (some { id := str "b" }) (str "y")) ∧
      recordPayload Wire.codec
        (content (StoreOp.apply Wire.codec later (.remove (str "a")))) b = none ∧
      ¬ Harmless Wire.codec later (str "a") :=
  ⟨.start ⟨_, _, _, Or.inr rfl⟩, by decide, by decide, by decide, by decide, by decide,
    fun harmless => absurd harmless.bytes (by decide)⟩

end HzMq.Persistence
