import HzMq.Persistence.Compaction
import HzMq.Persistence.Restart

/-!
# A store in step with its file

A stream that is healthy after a write has taken all of it, so that nothing needs to
be known of the room on the disk. What is said of a store in step with its file is
about this one file, whatever else the disk holds. Compaction keeps it so.
-/

namespace HzMq.Persistence

open FileStream FramedLog QueueMessage Machine

section Healthy

variable {codec : Codec} {store : Store}

theorem room_of_write_ready {file : Stream} {fs : FileSystem} {bytes : Bytes}
    (ready : (file.write fs bytes).1.ready = true) :
    bytes.length ≤ fs.capacity - file.pos ∧
      (file.write fs bytes).1.pos = file.pos + bytes.length := by
  have before := Stream.ready_of_write_ready file fs bytes ready
  obtain ⟨-, taken, -⟩ := Stream.ready_iff.mp ready
  simp only [Stream.write, if_pos before, decide_eq_false_iff_not, List.length_take] at taken ⊢
  omega

theorem writable_of_ready (attached : Attached store) {bp : Option BasicProperties} {body : Bytes}
    (ready : (StoreOp.apply codec store (.insert bp body true)).1.file.ready = true)
    (restores : Restores codec (marked bp body)) :
    Writable codec store (.insert bp body true) := by
  refine ⟨restores, ?_⟩
  have after : (writePersistent codec store.1.file store.2
      (makeMessage bp body)).2.2.1.ready = true := ready
  have before : store.1.file.ready = true :=
    ready_of_persist_ready codec store.1.file store.2 (makeMessage bp body) true ready
  have small := codec.size_lt_word (marked bp body)
  rw [marked] at small
  simp only [writePersistent, if_pos attached.isOpen, Nat.mod_eq_of_lt small,
    Stream.seekpEnd_of_ready _ _ before] at after
  have data := (room_of_write_ready after).1
  obtain ⟨header, moved⟩ := room_of_write_ready (Stream.ready_of_write_ready _ _ _ after)
  rw [moved] at data
  simp only [le32_length, Stream.write_capacity, attached.key] at data header
  have inside := store.2.content_length_le (resolve store.1.filePath)
  rw [frame_length, content, marked]
  omega

end Healthy

def Intact (codec : Codec) (bytes : Bytes) : Prop := ∃ slots, Logged codec bytes slots []

theorem intact_nil (codec : Codec) : Intact codec [] := ⟨[], Backed.empty.toLogged⟩

namespace Synced

variable {codec : Codec} {baseDir queueName : Bytes} {store : Store}

theorem intact (synced : Synced codec baseDir queueName store) : Intact codec (content store) := by
  obtain ⟨-, slots, backed⟩ := synced.attached
  exact ⟨slots, backed.toLogged⟩

theorem restores (synced : Synced codec baseDir queueName store) {m : MessagePtr}
    (queued : m ∈ store.1.msgs) : Restores codec m.payload := by
  obtain ⟨-, slots, backed⟩ := synced.attached
  exact backed.restores_of_tracked queued (synced.allTracked m queued)

theorem insert_of_ready (synced : Synced codec baseDir queueName store)
    {bp : Option BasicProperties} {body : Bytes}
    (ready : (StoreOp.apply codec store (.insert bp body true)).1.file.ready = true)
    (restores : Restores codec (inserted codec store.1 store.2 bp body true).payload) :
    Synced codec baseDir queueName (StoreOp.apply codec store (.insert bp body true)) := by
  obtain ⟨attached, -⟩ := synced.attached
  have payload : (inserted codec store.1 store.2 bp body true).payload = marked bp body :=
    congrArg Message.payload
      (writePersistent_placed codec (makeMessage bp body) store.2 attached.isOpen)
  exact synced.insert (writable_of_ready attached ready (payload ▸ restores))
    (ready_of_persist_ready codec store.1.file store.2 (makeMessage bp body) true ready)

theorem remove_of_ready (synced : Synced codec baseDir queueName store) {id : Bytes}
    (ready : (StoreOp.apply codec store (.remove id)).1.msgs ≠ store.1.msgs →
      (StoreOp.apply codec store (.remove id)).1.file.ready = true) :
    Synced codec baseDir queueName (StoreOp.apply codec store (.remove id)) := by
  refine synced.remove ?_
  cases found : target store.1.msgs id with
  | none => exact Or.inl rfl
  | some pair =>
    obtain ⟨m, rest⟩ := pair
    have removed := remove_of_target codec store.1 store.2 found
    simp only [StoreOp.apply, removed] at ready
    refine Or.inr (ready_of_invalidatePersistent_ready codec store.1.file store.2 m.msg
      (ready fun same => ?_))
    obtain ⟨before, after, split, rfl, -, -⟩ := target_split found
    have lengths := congrArg List.length (same.trans split)
    simp at lengths

theorem compact (synced : Synced codec baseDir queueName store)
    (writable : Writable codec store .compact) :
    Synced codec baseDir queueName (StoreOp.apply codec store .compact) := by
  obtain ⟨attached, -⟩ := synced.attached
  have healthy := attached.compact_healthy writable fun _ => synced.restores
  exact ⟨by simp [synced.filePath], attached.compact_tracked writable synced.allTracked, _,
    Or.inl healthy⟩

theorem of_sameAt {q : QueueMessage} {fs fs' : FileSystem}
    (synced : Synced codec baseDir queueName (q, fs))
    (same : FileSystem.SameAt (resolve q.filePath) fs fs') :
    Synced codec baseDir queueName (q, fs') := by
  have attached (before : Attached (q, fs)) : Attached (q, fs') :=
    ⟨before.isOpen, before.key, same.openable.trans before.openable,
      same.files ▸ before.present⟩
  have bytes : content (q, fs') = content (q, fs) := same.content
  refine ⟨synced.filePath, synced.allTracked, ?_⟩
  obtain ⟨slots, healthy | failed⟩ := synced.backed
  · exact ⟨slots, Or.inl ⟨attached healthy.attached, healthy.ready, bytes ▸ healthy.backed⟩⟩
  · exact ⟨slots, Or.inr ⟨attached failed.attached, failed.failbit, bytes ▸ failed.backed⟩⟩

theorem of_intact {fs : FileSystem}
    (openable : fs.openable (resolve (path baseDir queueName)) = true)
    (intact : Intact codec (fs.content (resolve (path baseDir queueName)))) :
    Synced codec baseDir queueName (start codec fs baseDir queueName) := by
  obtain ⟨slots, logged⟩ := intact
  cases stored : fs.files (resolve (path baseDir queueName)) with
  | none =>
    rw [start_of_absent codec stored openable]
    exact of_records (by simp [FileSystem.files_put_self]) (by simpa using openable)
      (by simpa using Backed.empty.toLogged)
  | some bytes => exact of_records (Option.isSome_of_eq_some stored) openable logged

end Synced

end HzMq.Persistence
