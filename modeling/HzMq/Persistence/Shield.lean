import HzMq.Server.QueueMessage.FileEffects

/-!
# Records in the front part of a file

A record that a reader gets to depends on the bytes up to its own end only. The
operations of a store append at the end of the file, or write in place at the
offset of the removed message, so a front part stays as long as no such offset
points into it and the file is not replaced by a compaction.
-/

namespace HzMq.Persistence

open FileStream FramedLog QueueMessage

structure Shields (key : PathKey) (front : Bytes) (fs : FileSystem) : Prop where
  openable : fs.openable key = true
  starts : front <+: fs.content key

section Loaded

variable {codec : Codec}

theorem loaded_of_front {content content' : Bytes} {msg : Message}
    (member : msg ∈ loaded codec content) (bound : content.length < 2 ^ 64)
    (front : content.take (msg.offset + msg.length) <+: content') :
    msg ∈ loaded codec content' := by
  simp only [loaded, List.mem_map, List.mem_filter] at member ⊢
  obtain ⟨e, ⟨read, valid⟩, rfl⟩ := member
  have inside := (scan_bounds codec.parseFromString _ 0 content read).2
  have place : e.offset % 2 ^ 64 = e.offset := Nat.mod_eq_of_lt (by omega)
  refine ⟨e, ⟨?_, valid⟩, rfl⟩
  change content.take (e.offset % 2 ^ 64 + (4 + e.size)) <+: content' at front
  rw [place] at front
  exact scan_mem_of_prefix codec.parseFromString read front (Nat.lt_succ_self _)

theorem front_ne_nil {content : Bytes} {msg : Message} (member : msg ∈ loaded codec content) :
    content.take (msg.offset + msg.length) ≠ [] := by
  simp only [loaded, List.mem_map, List.mem_filter] at member
  obtain ⟨e, ⟨read, -⟩, rfl⟩ := member
  have inside := (scan_bounds codec.parseFromString _ 0 content read).2
  intro empty
  have size := congrArg List.length empty
  simp only [messageOf, List.length_take, List.length_nil] at size
  omega

end Loaded

namespace Shields

variable {key : PathKey} {front : Bytes} {fs : FileSystem}

theorem present (shields : Shields key front fs) (some' : front ≠ []) :
    (fs.files key).isSome := by
  obtain ⟨openable, starts⟩ := shields
  cases stored : fs.files key with
  | some bytes => rfl
  | none =>
    rw [FileSystem.content, stored, Option.getD_none, List.prefix_nil] at starts
    exact absurd starts some'

theorem of_same {fs' : FileSystem} (shields : Shields key front fs)
    (same : FileSystem.SameAt key fs fs') : Shields key front fs' where
  openable := same.openable.trans shields.openable
  starts := by
    rw [same.content]
    exact shields.starts

theorem write (shields : Shields key front fs) {file : Stream} (bytes : Bytes)
    (behind : file.key = key → file.ready = true → front.length ≤ file.pos) :
    Shields key front (file.write fs bytes).2 := by
  by_cases here : file.key = key
  · subst here
    cases ready : file.ready with
    | false =>
      rw [Stream.write_of_not_ready file fs bytes ready]
      exact shields
    | true =>
      refine ⟨by simpa using shields.openable, ?_⟩
      have kept : front <+: (fs.content file.key).take file.pos :=
        List.prefix_take_iff.mpr ⟨shields.starts, behind rfl ready⟩
      simp only [Stream.write, ready, if_true, FileSystem.content_put_self, overwrite,
        List.append_assoc]
      exact kept.trans (List.prefix_append _ _)
  · exact shields.of_same ((Stream.Confined.write file fs bytes).sameAt (Ne.symm here))

variable (codec : Codec)

theorem writePersistent (shields : Shields key front fs) (file : Stream) (msg : Message) :
    Shields key front (writePersistent codec file fs msg).2.2.2 := by
  unfold QueueMessage.writePersistent
  split
  · have atEnd : (file.seekpEnd fs).key = key → (file.seekpEnd fs).ready = true →
        front.length ≤ (file.seekpEnd fs).pos := by
      intro here ready
      rw [Stream.seekpEnd_key] at here
      have readyBefore : file.ready = true := by
        by_contra notReady
        rw [Stream.seekpEnd_not_ready file fs (Bool.eq_false_iff.mpr notReady)] at ready
        cases ready
      rw [Stream.seekpEnd_of_ready file fs readyBefore, here]
      exact shields.starts.length_le
    refine (shields.write _ atEnd).write _ ?_
    intro here ready
    exact Nat.le_trans (atEnd (by simpa using here) (Stream.ready_of_write_ready _ _ _ ready))
      (Stream.pos_le_write _ _ _)
  · exact shields

theorem insert (shields : Shields key front fs) (q : QueueMessage) (bp : Option BasicProperties)
    (body : Bytes) (durable : Bool) :
    Shields key front (q.insert codec fs bp body durable).2.2 := by
  change Shields key front (persist codec q.file fs (makeMessage bp body) durable).2.2.2
  unfold persist
  split
  · exact shields.writePersistent codec q.file _
  · exact shields

theorem invalidatePersistent (shields : Shields key front fs) {file : Stream} {msg : Message}
    (misses : file.key = key → file.ready = true → msg.length ≠ 0 →
      front.length ≤ (msg.offset + 4) % 2 ^ 64) :
    Shields key front (invalidatePersistent codec file fs msg).2 := by
  unfold QueueMessage.invalidatePersistent
  split
  · exact shields
  next written =>
    split
    · refine shields.write _ ?_
      intro here ready
      rw [Stream.seekp_key] at here
      have readyBefore : file.ready = true := by
        by_contra notReady
        rw [Stream.seekp_not_ready file (Bool.eq_false_iff.mpr notReady)] at ready
        cases ready
      have place := misses here readyBefore written
      unfold Stream.seekp at ready ⊢
      simp only [(Stream.ready_iff.mp readyBefore).2.1, Bool.false_eq_true, if_false] at ready ⊢
      split at ready
      next inRange =>
        rw [if_pos inRange]
        exact place
      · simp [Stream.ready, Stream.good] at ready
    · exact shields

theorem remove (shields : Shields key front fs) {q : QueueMessage} {id : Bytes}
    (misses : ∀ m rest, target q.msgs id = some (m, rest) → q.file.key = key →
      q.file.ready = true → m.msg.length ≠ 0 → front.length ≤ (m.msg.offset + 4) % 2 ^ 64) :
    Shields key front (q.remove codec fs id).2 := by
  rw [remove_eq]
  split
  · exact shields
  · next found => exact shields.invalidatePersistent codec (misses _ _ found)

theorem compact (shields : Shields key front fs) {q : QueueMessage}
    (otherFile : resolve q.filePath ≠ key) (otherTmp : resolve (q.filePath ++ str ".tmp") ≠ key)
    (hasName : ∀ n, key ≠ .replaced n) : Shields key front (q.compact codec fs).2 :=
  shields.of_same (compact_sameAt codec q fs (Ne.symm otherFile) (Ne.symm otherTmp) hasName)

/-- A new object does not empty a file that exists. -/
theorem new (shields : Shields key front fs) (some' : front ≠ []) (baseDir queueName : Bytes) :
    Shields key front (QueueMessage.new fs baseDir queueName).2 := by
  simp only [QueueMessage.new]
  split
  · exact shields
  next notOpened =>
    by_cases here : key = resolve (path baseDir queueName)
    · subst here
      rw [Stream.openInOut_of_exists {} fs _ rfl shields.openable (shields.present some')]
        at notOpened
      exact absurd rfl notOpened
    · obtain ⟨files, openable⟩ := Stream.openOut_others
        (Stream.openInOut {} fs (path baseDir queueName)).clear fs (path baseDir queueName) here
      exact shields.of_same ⟨files, congrFun openable key⟩

end Shields

end HzMq.Persistence
