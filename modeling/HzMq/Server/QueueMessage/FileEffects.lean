import HzMq.Server.QueueMessage.Recovery

/-!
# What the operations do to the file

On a healthy stream a durable insert appends one frame and an invalidation
rewrites one frame in place. On a failed stream neither reaches the file: the
message that `write_persistent` returns then carries the position -1.
-/

namespace HzMq

open FileStream FramedLog

namespace QueueMessage

variable (codec : Codec)

/-- The offset stored for a record that never got a position. -/
def noOffset : Nat := 2 ^ 64 - 1

theorem content_length_lt_noOffset (fs : FileSystem) (key : PathKey) :
    (fs.content key).length < noOffset :=
  Nat.lt_of_le_of_lt (fs.content_length_le key) (Nat.lt_trans fs.capacity_lt (by decide))

section Confined

variable (file : Stream) (fs : FileSystem)

theorem writePersistent_confined (msg : Message) :
    Stream.Confined file fs (writePersistent codec file fs msg).2.2.1
      (writePersistent codec file fs msg).2.2.2 := by
  unfold writePersistent
  split
  · exact (Stream.Confined.moved (Stream.seekpEnd_key file fs)
      (Stream.seekpEnd_isOpen file fs)).trans
        ((Stream.Confined.write _ _ _).trans (Stream.Confined.write _ _ _))
  · exact Stream.Confined.refl file fs

theorem persist_confined (msg : Message) (durable : Bool) :
    Stream.Confined file fs (persist codec file fs msg durable).2.2.1
      (persist codec file fs msg durable).2.2.2 := by
  unfold persist
  split
  · exact writePersistent_confined codec file fs msg
  · exact Stream.Confined.refl file fs

theorem invalidatePersistent_confined (msg : Message) :
    Stream.Confined file fs (invalidatePersistent codec file fs msg).1
      (invalidatePersistent codec file fs msg).2 := by
  unfold invalidatePersistent
  split
  · exact Stream.Confined.refl file fs
  · split
    · exact (Stream.Confined.moved (Stream.seekp_key file _) (Stream.seekp_isOpen file _)).trans
        (Stream.Confined.write _ _ _)
    · exact Stream.Confined.refl file fs

theorem ready_of_persist_ready (msg : Message) (durable : Bool)
    (ready : (persist codec file fs msg durable).2.2.1.ready = true) : file.ready = true := by
  unfold persist writePersistent at ready
  split at ready
  · split at ready
    · have sought := Stream.ready_of_write_ready _ _ _ (Stream.ready_of_write_ready _ _ _ ready)
      by_contra notReady
      rw [Stream.seekpEnd_not_ready file fs (Bool.eq_false_iff.mpr notReady)] at sought
      cases sought
    · exact ready
  · exact ready

theorem ready_of_invalidatePersistent_ready (msg : Message)
    (ready : (invalidatePersistent codec file fs msg).1.ready = true) : file.ready = true := by
  unfold invalidatePersistent at ready
  split at ready
  · exact ready
  · split at ready
    · have sought := Stream.ready_of_write_ready _ _ _ ready
      by_contra notReady
      rw [Stream.seekp_not_ready file (Bool.eq_false_iff.mpr notReady)] at sought
      cases sought
    · exact ready

end Confined

section Write

variable {file : Stream} {fs : FileSystem} (msg : Message)

theorem write_frame (ready : file.ready = true) (atEnd : file.pos = (fs.content file.key).length)
    (bytes : Bytes) (room : (fs.content file.key).length + (frame bytes).length ≤ fs.capacity) :
    ((file.write fs (le32 bytes.length)).1.write (file.write fs (le32 bytes.length)).2 bytes).1 =
        { file with pos := (fs.content file.key ++ frame bytes).length } ∧
      ((file.write fs (le32 bytes.length)).1.write (file.write fs (le32 bytes.length)).2
        bytes).2.content file.key = fs.content file.key ++ frame bytes := by
  simp only [frame_length] at room
  obtain ⟨stream₁, content₁⟩ :=
    Stream.write_of_fits file fs (le32 bytes.length) ready (by simp only [le32_length]; omega)
  have capacity₁ := Stream.write_capacity file fs (le32 bytes.length)
  rw [atEnd, overwrite_end] at content₁
  rw [stream₁]
  generalize (file.write fs (le32 bytes.length)).2 = fs₁ at *
  have moved : file.pos + (le32 bytes.length).length = (fs₁.content file.key).length := by
    rw [content₁, atEnd, List.length_append]
  obtain ⟨stream₂, content₂⟩ := Stream.write_of_fits
    { file with pos := file.pos + (le32 bytes.length).length } fs₁ bytes ready
    (by simp only [le32_length, capacity₁]; omega)
  simp only [moved, overwrite_end] at stream₂ content₂ ⊢
  rw [stream₂, content₂, content₁]
  simp [frame, Nat.add_assoc]

def recordOf (msg : Message) : Bytes :=
  frame (codec.serializeToString (msg.payload.setValid validMark))

/-- Written or not, on an open stream the message gets the place where the file ends, or the
position -1 of a failed stream. -/
theorem writePersistent_placed (fs : FileSystem) (isOpen : file.isOpen = true) :
    (writePersistent codec file fs msg).2.1 =
      { payload := msg.payload.setValid validMark
        offset := if file.failbit then noOffset else (fs.content file.key).length
        length := (recordOf codec msg).length } := by
  have small := codec.size_lt_word (msg.payload.setValid validMark)
  have bound := fs.content_length_lt file.key
  simp only [writePersistent, if_pos isOpen, Nat.mod_eq_of_lt small, recordOf, frame_length]
  cases failed : file.failbit with
  | false => simp only [Stream.seekpEnd, failed, Stream.tellp, offsetOfPos, Bool.false_eq_true,
      if_false, Nat.mod_eq_of_lt bound]
  | true => simp only [Stream.seekpEnd, failed, Stream.tellp, offsetOfPos, if_true, noOffset]

theorem writePersistent_message (isOpen : file.isOpen = true) (sound : file.failbit = false) :
    (writePersistent codec file fs msg).2.1 =
      { payload := msg.payload.setValid validMark
        offset := (fs.content file.key).length
        length := (recordOf codec msg).length } := by
  rw [writePersistent_placed codec msg fs isOpen, sound]
  rfl

theorem writePersistent_closed (fs : FileSystem) (closed : file.isOpen = false) :
    writePersistent codec file fs msg = (false, msg, file, fs) := by
  simp [writePersistent, closed]

/-- A stream that refused a record is not healthy afterwards. -/
theorem writePersistent_refused (fs : FileSystem)
    (refused : (writePersistent codec file fs msg).1 = false) :
    (writePersistent codec file fs msg).2.2.1.ready = false := by
  cases isOpen : file.isOpen with
  | false => simp [writePersistent_closed codec msg fs isOpen, Stream.ready, isOpen]
  | true =>
    simp only [writePersistent, if_pos isOpen] at refused ⊢
    rw [Stream.ready, refused, Bool.and_false]

theorem writePersistent_ready (ready : file.ready = true)
    (room : (fs.content file.key).length + (recordOf codec msg).length ≤ fs.capacity) :
    (writePersistent codec file fs msg).1 = true ∧
      (writePersistent codec file fs msg).2.1 =
        { payload := msg.payload.setValid validMark
          offset := (fs.content file.key).length
          length := (recordOf codec msg).length } ∧
      (writePersistent codec file fs msg).2.2.1.ready = true ∧
      (writePersistent codec file fs msg).2.2.2.content file.key =
        fs.content file.key ++ recordOf codec msg := by
  obtain ⟨isOpen, failbit, eofbit⟩ := Stream.ready_iff.mp ready
  have small := codec.size_lt_word (msg.payload.setValid validMark)
  have ready₀ : Stream.ready { file with pos := (fs.content file.key).length } = true := ready
  obtain ⟨stream, bytes⟩ := write_frame ready₀ rfl
    (codec.serializeToString (msg.payload.setValid validMark)) room
  have wrote : (writePersistent codec file fs msg).1 = true ∧
      (writePersistent codec file fs msg).2.2.1.ready = true ∧
      (writePersistent codec file fs msg).2.2.2.content file.key =
        fs.content file.key ++ recordOf codec msg := by
    unfold writePersistent
    simp only [if_pos isOpen, Nat.mod_eq_of_lt small, Stream.seekpEnd_of_ready _ _ ready, stream,
      bytes]
    exact ⟨by simp [Stream.good, failbit, eofbit], ready, rfl⟩
  exact ⟨wrote.1, writePersistent_message codec msg isOpen failbit, wrote.2⟩

theorem writePersistent_not_ready (notReady : file.ready = false) :
    (writePersistent codec file fs msg).2.2.2 = fs := by
  have sought := Stream.seekpEnd_not_ready file fs notReady
  unfold writePersistent
  split
  · simp only [Stream.write_of_not_ready _ _ _ sought]
    rw [Stream.write_of_failed _ _ _ rfl]
  · rfl

/-- A failed stream takes nothing; the message is marked valid all the same. -/
theorem writePersistent_failed (fs : FileSystem) (msg : Message) (isOpen : file.isOpen = true)
    (failed : file.failbit = true) :
    ∃ length, writePersistent codec file fs msg =
      (false, { payload := msg.payload.setValid validMark, offset := noOffset, length }, file, fs) ∧
        0 < length := by
  have sought : file.seekpEnd fs = file := by simp [Stream.seekpEnd, failed]
  refine ⟨4 + (codec.serializeToString (msg.payload.setValid validMark)).length % 2 ^ 32, ?_,
    by omega⟩
  simp [writePersistent, isOpen, sought, Stream.write_of_failed _ _ _ failed, Stream.tellp, failed,
    offsetOfPos, noOffset, Stream.good]

end Write

section Invalidate

variable {file : Stream} {fs : FileSystem} (msg : Message)

theorem invalidatePersistent_unwritten (file : Stream) (fs : FileSystem) {msg : Message}
    (unwritten : msg.length = 0) :
    invalidatePersistent codec file fs msg = (file, fs) := by
  simp [invalidatePersistent, unwritten]

theorem invalidatePersistent_failed (fs : FileSystem) (msg : Message)
    (failed : file.failbit = true) :
    invalidatePersistent codec file fs msg = (file, fs) := by
  unfold invalidatePersistent
  split
  · rfl
  · split
    · simp [Stream.seekp, failed, Stream.write_of_failed _ _ _ failed]
    · rfl

theorem invalidatePersistent_not_ready (fs : FileSystem) (notReady : file.ready = false) :
    (invalidatePersistent codec file fs msg).2 = fs := by
  unfold invalidatePersistent
  split
  · rfl
  · split
    · rw [Stream.write_of_not_ready _ _ _ (Stream.seekp_not_ready file notReady)]
    · rfl

/-- Four bytes behind the remembered offset, wherever that is, a healthy stream writes the payload
as far as there is room. A place that no device reaches makes the stream fail. -/
theorem invalidatePersistent_content (fs : FileSystem) (ready : file.ready = true)
    (written : msg.length ≠ 0) :
    (invalidatePersistent codec file fs msg).2.content file.key =
      overwrite (fs.content file.key) ((msg.offset + 4) % 2 ^ 64)
        ((codec.serializeToString (msg.payload.setValid invalidMark)).take
          (fs.capacity - (msg.offset + 4) % 2 ^ 64)) := by
  have isOpen : file.isOpen = true := (Stream.ready_iff.mp ready).1
  have small := codec.size_lt_word (msg.payload.setValid invalidMark)
  have limit := fs.capacity_lt
  simp only [invalidatePersistent, if_neg written, if_pos isOpen, Nat.mod_eq_of_lt small,
    List.take_length]
  generalize (msg.offset + 4) % 2 ^ 64 = spot
  by_cases inside : spot < 2 ^ 63
  · rw [Stream.seekp_of_ready _ ready inside]
    exact Stream.write_content { file with pos := spot } fs _ ready
  · have beyond : fs.capacity - spot = 0 := by omega
    rw [Stream.write_of_not_ready _ _ _ (Stream.seekp_beyond file inside), beyond, List.take_zero,
      overwrite_nil]

theorem invalidatePersistent_record (ready : file.ready = true) {before old after : Bytes}
    (split : fs.content file.key = before ++ frame old ++ after)
    (place : msg.offset = before.length) (written : msg.length ≠ 0)
    (same : (codec.serializeToString (msg.payload.setValid invalidMark)).length = old.length) :
    (invalidatePersistent codec file fs msg).1.ready = true ∧
      (invalidatePersistent codec file fs msg).2.content file.key =
        before ++ frame (codec.serializeToString (msg.payload.setValid invalidMark)) ++ after := by
  obtain ⟨isOpen, failbit, eofbit⟩ := Stream.ready_iff.mp ready
  have small := codec.size_lt_word (msg.payload.setValid invalidMark)
  have bound := fs.content_length_le file.key
  have limit := fs.capacity_lt
  have sizes := congrArg List.length split
  simp only [List.length_append, frame_length] at sizes
  unfold invalidatePersistent
  simp only [if_neg written, if_pos isOpen, Nat.mod_eq_of_lt small, List.take_length]
  generalize codec.serializeToString (msg.payload.setValid invalidMark) = bytes at *
  have target : (msg.offset + 4) % 2 ^ 64 = (before ++ le32 old.length).length := by
    rw [place, Nat.mod_eq_of_lt (by omega)]
    simp
  have inside : (before ++ le32 old.length).length < 2 ^ 63 := by
    simp only [List.length_append, le32_length]
    omega
  rw [target, Stream.seekp_of_ready _ ready inside]
  have readyThere : Stream.ready { file with pos := (before ++ le32 old.length).length } = true :=
    ready
  obtain ⟨stream, content⟩ := Stream.write_of_fits _ fs bytes readyThere (by
    simp only [List.length_append, le32_length]
    omega)
  have layout : fs.content file.key = (before ++ le32 old.length) ++ old ++ after := by
    rw [split, frame]
    simp
  simp only [layout, overwrite_middle _ _ _ _ same] at content
  constructor
  · rw [stream]
    exact ready
  · rw [content, frame, same]
    simp

end Invalidate

section Stats

variable (q : QueueMessage) (fs : FileSystem)

@[simp] theorem getStats_msgs : (q.getStats codec fs).2.msgs = q.msgs := by
  unfold getStats
  split <;> rfl

@[simp] theorem getStats_pushed : (q.getStats codec fs).2.pushed = q.pushed := by
  unfold getStats
  split <;> rfl

@[simp] theorem getStats_filePath : (q.getStats codec fs).2.filePath = q.filePath := by
  unfold getStats
  split <;> rfl

theorem getStats_counts (isOpen : q.file.isOpen = true) :
    (q.getStats codec fs).1.total = (readable codec (fs.content q.file.key)).length ∧
      (q.getStats codec fs).1.invalid =
        (readable codec (fs.content q.file.key)).countP fun e => !isValid e := by
  have ready : q.file.clear.seekgBeg.ready = true := by
    simp [Stream.ready_iff, Stream.clear, Stream.seekgBeg, isOpen]
  have scanned := statsLoop_eq_scan codec fs ((fs.content q.file.key).length + 1) ready 0 0
    (show ((fs.content q.file.key).drop 0).length < _ by simp)
  rw [Nat.zero_add, Nat.zero_add] at scanned
  unfold getStats
  rw [if_pos isOpen]
  exact ⟨congrArg Prod.fst scanned, congrArg Prod.snd scanned⟩

theorem getStats_confined : Stream.Confined q.file fs (q.getStats codec fs).2.file fs := by
  unfold getStats
  split
  · obtain ⟨key, isOpen⟩ := statsLoop_key codec fs
      ((fs.content q.file.clear.seekgBeg.key).length + 1) q.file.clear.seekgBeg 0 0
    exact Stream.Confined.moved key isOpen
  · exact Stream.Confined.refl q.file fs

/-- Whatever state the stream was in, `get_stats` leaves an open one healthy. -/
theorem getStats_ready (isOpen : q.file.isOpen = true) :
    (q.getStats codec fs).2.file.ready = true := by
  have kept := (getStats_confined codec q fs).isOpen
  rw [isOpen] at kept
  unfold getStats at kept ⊢
  rw [if_pos isOpen] at kept ⊢
  simp only [Stream.clear, Stream.seekgEnd, Stream.ready_iff] at kept ⊢
  exact ⟨kept, rfl, rfl⟩

end Stats

section Remove

variable (q : QueueMessage) (fs : FileSystem)

theorem insert_confined (bp : Option BasicProperties) (body : Bytes) (durable : Bool) :
    Stream.Confined q.file fs (q.insert codec fs bp body durable).2.1.file
      (q.insert codec fs bp body durable).2.2 :=
  persist_confined codec q.file fs (makeMessage bp body) durable

theorem remove_confined (id : Bytes) :
    Stream.Confined q.file fs (q.remove codec fs id).1.file (q.remove codec fs id).2 := by
  rw [remove_eq]
  split
  · exact Stream.Confined.refl q.file fs
  · exact invalidatePersistent_confined codec q.file fs _

theorem recovery_confined : Stream.Confined q.file fs (q.recovery codec fs).file fs :=
  Stream.Confined.moved (recovery_key codec q fs) (recovery_isOpen codec q fs)

end Remove

section Compact

theorem compactLoop_confined (tmp : Stream) (fs : FileSystem) (pos : Option Nat)
    (msgs : List MessagePtr) :
    Stream.Confined tmp fs (compactLoop codec tmp fs pos msgs).2.1
      (compactLoop codec tmp fs pos msgs).2.2 := by
  induction msgs generalizing tmp fs pos with
  | nil => exact Stream.Confined.refl tmp fs
  | cons m ms ih =>
    exact ((Stream.Confined.write _ _ _).trans (Stream.Confined.write _ _ _)).trans (ih _ _ _)

theorem compact_sameAt (q : QueueMessage) (fs : FileSystem) {key : PathKey}
    (otherFile : key ≠ resolve q.filePath) (otherTmp : key ≠ resolve (q.filePath ++ str ".tmp"))
    (hasName : ∀ n, key ≠ .replaced n) : FileSystem.SameAt key fs (q.compact codec fs).2 := by
  obtain ⟨files, openable⟩ := Stream.openOut_others {} fs (q.filePath ++ str ".tmp") otherTmp
  have opened : FileSystem.SameAt key fs (Stream.openOut {} fs (q.filePath ++ str ".tmp")).2 :=
    ⟨files, congrFun openable key⟩
  simp only [compact]
  split
  · split
    next isOpen =>
      have tmpKey := Stream.openOut_key {} fs (q.filePath ++ str ".tmp") rfl isOpen
      have copied := compactLoop_confined codec (Stream.openOut {} fs (q.filePath ++ str ".tmp")).1
        (Stream.openOut {} fs (q.filePath ++ str ".tmp")).2 (some 0) q.msgs
      exact (opened.trans (copied.sameAt (tmpKey ▸ otherTmp))).trans
        ⟨FileSystem.files_rename_of_ne _ otherTmp otherFile hasName,
          congrFun (FileSystem.openable_rename _ _ _) key⟩
    · exact opened
  · exact FileSystem.SameAt.refl fs key

theorem compact_openable (q : QueueMessage) (fs : FileSystem) :
    (q.compact codec fs).2.openable = fs.openable := by
  have opened : (Stream.openOut {} fs (q.filePath ++ str ".tmp")).2.openable = fs.openable := by
    unfold Stream.openOut
    split <;> rfl
  simp only [QueueMessage.compact]
  split
  · split
    · exact (FileSystem.openable_rename _ _ _).trans
        ((compactLoop_confined codec _ _ (some 0) q.msgs).openable.trans opened)
    · exact opened
  · rfl

theorem zero_not_mem_of_tmp_ne {filePath : Bytes}
    (own : resolve (filePath ++ str ".tmp") ≠ resolve filePath) : 0 ∉ filePath :=
  fun zero => own (resolve_append zero _)

theorem tmp_ne_file {filePath baseDir queueName : Bytes} (noZero : 0 ∉ filePath)
    (noZero' : 0 ∉ path baseDir queueName) :
    resolve (filePath ++ str ".tmp") ≠ resolve (path baseDir queueName) := by
  have tmpEnd : filePath ++ str ".tmp" = (filePath ++ str ".tm") ++ [112] := by
    rw [List.append_assoc]
    rfl
  have fileEnd : path baseDir queueName =
      (baseDir ++ str "/" ++ queueName ++ str ".mq") ++ [100] := by
    rw [path, List.append_assoc _ (str ".mq")]
    rfl
  have zeroless : (0 : UInt8) ∉ str ".tmp" := by decide
  intro same
  have last := resolve_last (c := 112) (tmpEnd ▸ fun zero => (List.mem_append.mp zero).elim noZero
    zeroless) (by decide) (by decide)
  rw [← tmpEnd, same, fileEnd, resolve_last (fileEnd ▸ noZero') (by decide) (by decide)] at last
  cases last

end Compact

section New

variable {fs : FileSystem} {baseDir queueName : Bytes}

@[simp] theorem new_filePath : (new fs baseDir queueName).1.filePath = path baseDir queueName := by
  simp only [new]
  split <;> rfl

theorem new_numbered : (new fs baseDir queueName).1.Numbered := by
  simp only [new]
  split <;> exact ⟨by simp, by simp⟩

/-- A fresh object on an absent file: the file is created empty, the stream is healthy. -/
theorem new_absent (absent : fs.files (resolve (path baseDir queueName)) = none)
    (openable : fs.openable (resolve (path baseDir queueName)) = true) :
    new fs baseDir queueName =
      ({ filePath := path baseDir queueName
         file := { isOpen := true, key := resolve (path baseDir queueName) } },
        fs.put (resolve (path baseDir queueName)) [] (Nat.zero_le _)) := by
  have first : Stream.openInOut {} fs (path baseDir queueName) = { failbit := true } :=
    Stream.openInOut_of_absent {} fs _ absent
  have created := Stream.openOut_of_openable (Stream.clear { failbit := true }) fs
    (path baseDir queueName) rfl openable
  simp only [new, first, Bool.false_eq_true, if_false, created]
  rw [Stream.openInOut_of_exists _ _ _ (by simp [Stream.close]) (by simpa using openable)
    (by simp [FileSystem.files_put_self])]

theorem new_present (present : (fs.files (resolve (path baseDir queueName))).isSome)
    (openable : fs.openable (resolve (path baseDir queueName)) = true) :
    new fs baseDir queueName =
      ({ filePath := path baseDir queueName
         file := { isOpen := true, key := resolve (path baseDir queueName) } }, fs) := by
  simp [new, Stream.openInOut_of_exists {} fs _ rfl openable present]

theorem new_fs (openable : fs.openable (resolve (path baseDir queueName)) = true) :
    (new fs baseDir queueName).2.openable = fs.openable ∧
      (∀ key, key ≠ resolve (path baseDir queueName) →
        FileSystem.SameAt key fs (new fs baseDir queueName).2) ∧
      (new fs baseDir queueName).2.content (resolve (path baseDir queueName)) =
        fs.content (resolve (path baseDir queueName)) := by
  cases stored : fs.files (resolve (path baseDir queueName)) with
  | none =>
    rw [new_absent stored openable]
    refine ⟨rfl, fun key differs => ⟨?_, rfl⟩, ?_⟩
    · exact FileSystem.files_put_of_ne fs _ [] (Nat.zero_le _) differs
    · rw [FileSystem.content_put_self, FileSystem.content, stored]
      rfl
  | some bytes =>
    rw [new_present (Option.isSome_of_eq_some stored) openable]
    exact ⟨rfl, fun key _ => FileSystem.SameAt.refl fs key, rfl⟩

theorem new_msgs : (new fs baseDir queueName).1.msgs = [] := by
  simp only [new]
  split <;> rfl

end New

end QueueMessage

end HzMq
