import HzMq.Persistence.CrashRecovery
import HzMq.Persistence.Synced
import HzMq.Server.VirtualHost.Files

/-!
# A store in step with its file, whose process dies

An operation that is cut off leaves the files of other queues as they are. From the
store's own file the next process gets the messages that were there before the
operation, or those that are there after it.
-/

namespace HzMq.Persistence

open FileStream FramedLog QueueMessage

section Elsewhere

variable (codec : Codec) (n : Nat) (file : Stream) (fs : FileSystem) (msg : Message)

theorem writePersistentPart_confined :
    ∃ file', Stream.Confined file fs file' (writePersistentPart codec n file fs msg) := by
  unfold writePersistentPart
  split
  · exact ⟨_, (Stream.Confined.moved (Stream.seekpEnd_key file fs)
      (Stream.seekpEnd_isOpen file fs)).trans ((Stream.writeUpTo_confined _ _ _ _).trans
        (Stream.writeUpTo_confined _ _ _ _))⟩
  · exact ⟨file, .refl file fs⟩

theorem invalidatePersistentPart_confined :
    ∃ file', Stream.Confined file fs file' (invalidatePersistentPart codec n file fs msg) := by
  unfold invalidatePersistentPart
  split
  · exact ⟨file, .refl file fs⟩
  · split
    · exact ⟨_, (Stream.Confined.moved (Stream.seekp_key file _)
        (Stream.seekp_isOpen file _)).trans (Stream.writeUpTo_confined _ _ _ _)⟩
    · exact ⟨file, .refl file fs⟩

variable {codec n file fs msg}

theorem StoreOp.crash_sameAt {q : QueueMessage} {key : PathKey}
    (other : q.file.isOpen = true → key ≠ q.file.key)
    (otherTmp : key ≠ resolve (q.filePath ++ str ".tmp")) (op : StoreOp) :
    FileSystem.SameAt key fs (op.crash codec n (q, fs)) := by
  cases op with
  | insert bp body durable =>
    cases durable with
    | false => exact .refl _ _
    | true =>
      obtain ⟨file', confined⟩ :=
        writePersistentPart_confined codec n q.file fs (makeMessage bp body)
      have within : Stream.Confined q.file fs ({ q with file := file' } : QueueMessage).file
        (writePersistentPart codec n q.file fs (makeMessage bp body)) := confined
      refine sameAt_of_confined within (fun closed => ?_) other
      simp [StoreOp.crash, writePersistentPart, closed]
  | remove id =>
    cases found : target q.msgs id with
    | none =>
      simp only [StoreOp.crash, found]
      exact .refl _ _
    | some pair =>
      simp only [StoreOp.crash, found]
      obtain ⟨file', confined⟩ := invalidatePersistentPart_confined codec n q.file fs pair.1.msg
      have within : Stream.Confined q.file fs ({ q with file := file' } : QueueMessage).file
        (invalidatePersistentPart codec n q.file fs pair.1.msg) := confined
      refine sameAt_of_confined within (fun closed => ?_) other
      simp [invalidatePersistentPart, closed]
  | getStats => exact .refl _ _
  | compact =>
    obtain ⟨files, openable⟩ := Stream.openOut_others {} fs (q.filePath ++ str ".tmp") otherTmp
    have opened : FileSystem.SameAt key fs (Stream.openOut {} fs (q.filePath ++ str ".tmp")).2 :=
      ⟨files, congrFun openable key⟩
    simp only [StoreOp.crash, compactPart]
    split
    · split
      next isOpen =>
        have tmpKey := Stream.openOut_key {} fs (q.filePath ++ str ".tmp") rfl isOpen
        have copied := compactLoopWithin_confined codec n
          (Stream.openOut {} fs (q.filePath ++ str ".tmp")).1
          (Stream.openOut {} fs (q.filePath ++ str ".tmp")).2 (some 0) q.msgs
        exact opened.trans (copied.sameAt (tmpKey ▸ otherTmp))
      next => exact opened
    · exact .refl _ _

theorem StoreOp.crash_bare {q : QueueMessage} (bare : ∀ m ∈ q.msgs, m.msg.length = 0)
    {op : StoreOp} (volatile : ∀ bp body, op ≠ .insert bp body true) (copies : op ≠ .compact) :
    op.crash codec n (q, fs) = fs := by
  cases op with
  | insert bp body durable =>
    cases durable with
    | false => rfl
    | true => exact absurd rfl (volatile bp body)
  | remove id =>
    cases found : target q.msgs id with
    | none => simp only [StoreOp.crash, found]
    | some pair =>
      have unwritten := bare pair.1 ((mem_of_target found).mpr (Or.inl rfl))
      simp only [StoreOp.crash, found, invalidatePersistentPart, if_pos unwritten]
  | getStats => rfl
  | compact => exact absurd rfl copies

end Elsewhere

section Synced

variable {codec : Codec} {n : Nat} {baseDir queueName : Bytes} {store : Store}

theorem Synced.recorded (synced : Synced codec baseDir queueName store) :
    ∃ t, Recorded codec baseDir queueName store t := by
  obtain ⟨filePath, allTracked, slots, backed⟩ := synced
  exact ⟨_, filePath, allTracked, slots, [], rfl, backed, rfl⟩

theorem Synced.whole (synced : Synced codec baseDir queueName store) :
    Whole codec.parseFromString (content store) := by
  obtain ⟨-, slots, backed⟩ := synced.attached
  rw [Whole, backed.toLogged.scan_eq rfl]

theorem Synced.crashed (synced : Synced codec baseDir queueName store)
    (oneByte : codec.MarksOneByte) (noZero : 0 ∉ path baseDir queueName) {op : StoreOp}
    (safe : op = .compact ∨ op.Safe codec store) :
    (start codec (op.crash codec n store) baseDir queueName).1.msgs.map MessagePtr.payload =
      (if op.done codec store n then op.apply codec store else store).1.msgs.map
        MessagePtr.payload := by
  obtain ⟨t, recorded⟩ := synced.recorded
  have next : Recorded codec baseDir queueName
      (start codec (op.crash codec n store) baseDir queueName)
      (if op.done codec store n then (t.act op.reads).2 else t) :=
    recorded.crashed oneByte noZero safe
  have kept := next.kept
  cases done : op.done codec store n with
  | false =>
    rw [done] at kept
    exact kept.trans recorded.kept.symm
  | true =>
    rw [done] at kept
    refine kept.trans (Eq.symm ?_)
    cases op with
    | insert bp body durable => exact (recorded.insert (safe.resolve_left StoreOp.noConfusion)).kept
    | remove id => exact (recorded.remove (safe.resolve_left StoreOp.noConfusion)).kept
    | getStats => cases done
    | compact => cases done

end Synced

end HzMq.Persistence
