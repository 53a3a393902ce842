import HzMq.Persistence.Compaction

/-!
# A process that dies while it writes

What an operation writes gets to the disk from the front: when the process dies the
first bytes are there and the others are not. An insert leaves a piece of a record
behind the others, a removal has turned its record over or has not, and a compaction
has not touched the file as long as the new one is not renamed.
-/

namespace HzMq.Persistence

open FileStream FramedLog QueueMessage Machine

section Model

variable (codec : Codec) (n : Nat)

/-- `write_persistent`, of whose bytes the first `n` are written. -/
def writePersistentPart (file : Stream) (fs : FileSystem) (msg : Message) : FileSystem :=
  if file.isOpen then
    let payload := msg.payload.setValid validMark
    let data := codec.serializeToString payload
    let len := data.length % 2 ^ 32
    let file := file.seekpEnd fs
    let room := file.pos + n
    let (file, fs) := file.writeUpTo room fs (le32 len)
    let (_, fs) := file.writeUpTo room fs data
    fs
  else fs

def invalidatePersistentPart (file : Stream) (fs : FileSystem) (msg : Message) : FileSystem :=
  if msg.length = 0 then fs
  else if file.isOpen then
    let data := codec.serializeToString (msg.payload.setValid invalidMark)
    let len := data.length % 2 ^ 32
    let file := file.seekp ((msg.offset + 4) % 2 ^ 64)
    (file.writeUpTo (file.pos + n) fs (data.take len)).2
  else fs

/-- `compact`, of whose bytes the first `n` are written; the file is not renamed yet. -/
def compactPart (store : Store) : FileSystem :=
  if store.1.file.isOpen then
    let (tmp, fs) := Stream.openOut {} store.2 (store.1.filePath ++ str ".tmp")
    if tmp.isOpen then (compactLoopWithin codec n tmp fs (some 0) store.1.msgs).2.2 else fs
  else store.2

def StoreOp.crash (store : Store) : StoreOp → FileSystem
  | .insert bp body durable =>
    if durable then writePersistentPart codec n store.1.file store.2 (makeMessage bp body)
    else store.2
  | .remove id =>
    match target store.1.msgs id with
    | none => store.2
    | some (m, _) => invalidatePersistentPart codec n store.1.file store.2 m.msg
  | .getStats => store.2
  | .compact => compactPart codec n store

end Model

section Part

theorem compactLoopWithin_confined (codec : Codec) (room : Nat) (tmp : Stream) (fs : FileSystem)
    (pos : Option Nat) (msgs : List MessagePtr) :
    Stream.Confined tmp fs (compactLoopWithin codec room tmp fs pos msgs).2.1
      (compactLoopWithin codec room tmp fs pos msgs).2.2 := by
  induction msgs generalizing tmp fs pos with
  | nil => exact .refl tmp fs
  | cons m ms ih =>
    exact ((Stream.writeUpTo_confined _ _ _ _).trans (Stream.writeUpTo_confined _ _ _ _)).trans
      (ih _ _ _)

variable {codec : Codec} (n : Nat) {file : Stream} {fs : FileSystem} {msg : Message}

variable (msg) in
theorem writePersistentPart_ready (ready : file.ready = true)
    (room : (fs.content file.key).length + (recordOf codec msg).length ≤ fs.capacity) :
    (∃ file', Stream.Confined file fs file' (writePersistentPart codec n file fs msg)) ∧
      (writePersistentPart codec n file fs msg).content file.key =
        fs.content file.key ++ (recordOf codec msg).take n := by
  obtain ⟨isOpen, -, -⟩ := Stream.ready_iff.mp ready
  have small := codec.size_lt_word (msg.payload.setValid validMark)
  have inside := fs.content_length_le file.key
  simp only [writePersistentPart, if_pos isOpen, Nat.mod_eq_of_lt small,
    Stream.seekpEnd_of_ready _ _ ready]
  generalize atEnd : (fs.content file.key).length = pos at *
  have start : Stream.Cut (min (pos + n) fs.capacity) pos { file with pos } fs := by
    have reached : pos ≤ min (pos + n) fs.capacity := Nat.le_min.mpr ⟨Nat.le_add_right _ _, inside⟩
    refine ⟨by rw [Nat.min_eq_left reached]; exact atEnd, ?_⟩
    rw [if_pos reached]
    exact ⟨ready, rfl⟩
  have moved : Stream.Confined file fs { file with pos } fs := .moved rfl rfl
  obtain ⟨-, confined, bytes⟩ :=
    cut_frame rfl start (codec.serializeToString (msg.payload.setValid validMark))
  refine ⟨⟨_, moved.trans confined⟩, bytes.trans ?_⟩
  change (fs.content file.key ++ recordOf codec msg).take (min (pos + n) fs.capacity) = _
  rw [List.take_append, List.take_of_length_le (by omega), atEnd]
  congr 1
  rcases Nat.le_total n (recordOf codec msg).length with some' | all
  · congr 1
    omega
  · rw [List.take_of_length_le all, List.take_of_length_le (by omega)]

theorem invalidatePersistentPart_record (ready : file.ready = true) {before old after : Bytes}
    (split : fs.content file.key = before ++ frame old ++ after)
    (place : msg.offset = before.length) (written : msg.length ≠ 0)
    (same : (codec.serializeToString (msg.payload.setValid invalidMark)).length = old.length) :
    (∃ file', Stream.Confined file fs file' (invalidatePersistentPart codec n file fs msg)) ∧
      (invalidatePersistentPart codec n file fs msg).content file.key =
        before ++ (le32 old.length ++
          ((codec.serializeToString (msg.payload.setValid invalidMark)).take n ++ old.drop n)) ++
            after := by
  obtain ⟨isOpen, -, -⟩ := Stream.ready_iff.mp ready
  have small := codec.size_lt_word (msg.payload.setValid invalidMark)
  have bound := fs.content_length_le file.key
  have limit := fs.capacity_lt
  have sizes := congrArg List.length split
  simp only [List.length_append, frame_length] at sizes
  simp only [invalidatePersistentPart, if_neg written, if_pos isOpen, Nat.mod_eq_of_lt small,
    List.take_length]
  generalize codec.serializeToString (msg.payload.setValid invalidMark) = bytes at *
  have spot : (msg.offset + 4) % 2 ^ 64 = (before ++ le32 old.length).length := by
    rw [place, Nat.mod_eq_of_lt (by omega)]
    simp
  have inside : (before ++ le32 old.length).length < 2 ^ 63 := by
    simp only [List.length_append, le32_length]
    omega
  rw [spot, Stream.seekp_of_ready _ ready inside]
  have there : Stream.ready { file with pos := (before ++ le32 old.length).length } = true := ready
  have layout : fs.content file.key = (before ++ le32 old.length) ++ old ++ after := by
    rw [split, frame]
    simp
  have moved : Stream.Confined file fs { file with pos := (before ++ le32 old.length).length } fs :=
    .moved rfl rfl
  refine ⟨⟨_, moved.trans (Stream.writeUpTo_confined _ _ _ _)⟩, ?_⟩
  have fits : (before ++ le32 old.length).length + bytes.length ≤ fs.capacity := by
    simp only [List.length_append, le32_length]
    omega
  refine (Stream.writeUpTo_content there n bytes fits).trans ?_
  rw [layout, overwrite_part _ _ _ _ same]
  simp only [List.append_assoc]

end Part

section Whole

variable {codec : Codec} {n : Nat}

theorem writeUpTo_of_le {fs : FileSystem} {room : Nat} (enough : fs.capacity ≤ room) (s : Stream)
    (bytes : Bytes) : s.writeUpTo room fs bytes = s.write fs bytes := by
  simp only [Stream.writeUpTo, Stream.write, Nat.min_eq_right enough]

/-- When nothing is cut off the disk is what the operation makes it. A compaction has its
renaming still to come. -/
theorem crash_whole (store : Store) (enough : store.2.capacity ≤ n) {op : StoreOp}
    (renames : op ≠ .compact) : op.crash codec n store = (op.apply codec store).2 := by
  have roomy (pos : Nat) : store.2.capacity ≤ pos + n := Nat.le_add_left_of_le enough
  cases op with
  | insert bp body durable =>
    cases durable with
    | false => rfl
    | true =>
      simp only [StoreOp.crash, StoreOp.apply, QueueMessage.insert, persist, if_true,
        writePersistentPart, writePersistent, writeUpTo_of_le (roomy _)]
      split
      · rw [writeUpTo_of_le (by rw [Stream.write_capacity]; exact roomy _)]
      · rfl
  | remove id =>
    cases found : target store.1.msgs id with
    | none => simp only [StoreOp.crash, found, apply_remove_miss found]
    | some pair =>
      simp only [StoreOp.crash, found, StoreOp.apply, remove_of_target codec _ _ found,
        invalidatePersistentPart, invalidatePersistent, writeUpTo_of_le (roomy _)]
      split
      · rfl
      · split <;> rfl
  | getStats => rfl
  | compact => exact absurd rfl renames

end Whole

structure Holds (filePath : Bytes) (fs : FileSystem) (bytes : Bytes) : Prop where
  openable : fs.openable (resolve filePath) = true
  stored : fs.files (resolve filePath) = some bytes

section Holds

variable {codec : Codec} {store : Store} {slots : List Slot} {tail : Bytes} {fs : FileSystem}

theorem Attached.holds (attached : Attached store) :
    Holds store.1.filePath store.2 (content store) := by
  obtain ⟨bytes, stored⟩ := Option.isSome_iff_exists.mp attached.present
  exact ⟨attached.openable, by rw [content, FileSystem.content, stored, Option.getD_some]⟩

theorem Attached.holds_of_confined (attached : Attached store) {file : Stream}
    (confined : Stream.Confined store.1.file store.2 file fs) :
    Holds store.1.filePath fs (fs.content (resolve store.1.filePath)) := by
  have there := confined.present (attached.key ▸ attached.present)
  rw [attached.key] at there
  obtain ⟨bytes, stored⟩ := Option.isSome_iff_exists.mp there
  refine ⟨by rw [confined.openable, attached.openable], ?_⟩
  rw [FileSystem.content, stored, Option.getD_some]

theorem Attached.holds_of_sameAt (attached : Attached store)
    (same : FileSystem.SameAt (resolve store.1.filePath) store.2 fs) :
    Holds store.1.filePath fs (content store) :=
  ⟨same.openable.trans attached.openable, same.files.trans attached.holds.stored⟩

theorem Healthy.crash_insert (healthy : Healthy codec store slots tail) (n : Nat)
    {bp : Option BasicProperties} {body : Bytes}
    (fits : (content store).length + (frame (codec.serializeToString (marked bp body))).length ≤
      store.2.capacity) :
    Holds store.1.filePath (StoreOp.crash codec n store (.insert bp body true))
      (content store ++ (frame (codec.serializeToString (marked bp body))).take n) := by
  have key := healthy.attached.key
  obtain ⟨⟨file, confined⟩, bytes⟩ := writePersistentPart_ready n (makeMessage bp body)
    healthy.ready (by rw [key]; exact fits)
  rw [key] at bytes
  exact bytes ▸ healthy.attached.holds_of_confined confined

variable (codec) in
/-- The first `n` bytes of the invalid record are enough to make an invalid record of a valid
one. -/
def turnsOver (n : Nat) (p : MessagePayload) : Bool :=
  (codec.serializeToString (p.setValid invalidMark)).take n ++
    (codec.serializeToString p).drop n == codec.serializeToString (p.setValid invalidMark)

theorem turnsOver_of_le {p : MessagePayload} (valid : p.valid = validMark) {n : Nat}
    (enough : (codec.serializeToString p).length ≤ n) : turnsOver codec n p = true := by
  have sameSize := codec.length_setValid p
  rw [MessagePayload.setValid_of_valid valid] at sameSize
  rw [turnsOver, beq_iff_eq, List.take_of_length_le (sameSize ▸ enough),
    List.drop_eq_nil_of_le enough, List.append_nil]

/-- As one byte makes the difference, there is nothing in between. -/
theorem overwritten_eq (oneByte : codec.MarksOneByte) {p : MessagePayload}
    (valid : p.valid = validMark) (restores : Restores codec p) (n : Nat) :
    (codec.serializeToString (p.setValid invalidMark)).take n ++
        (codec.serializeToString p).drop n =
      codec.serializeToString (if turnsOver codec n p then p.setValid invalidMark else p) := by
  have same := MessagePayload.setValid_of_valid valid
  obtain ⟨front, back, old, new⟩ := oneByte p (same.symm ▸ restores.1)
  rw [same, List.append_assoc] at old
  rw [List.append_assoc] at new
  have either := part_of_one_byte front back 49 48 n
  by_cases turned : turnsOver codec n p = true
  · rw [if_pos turned]
    exact beq_iff_eq.mp turned
  · rw [if_neg turned]
    rw [turnsOver, beq_iff_eq] at turned
    by_cases before : n ≤ front.length
    · rw [if_pos before] at either
      rw [old, new]
      exact either
    · rw [if_neg before] at either
      refine absurd ?_ turned
      rw [old, new]
      exact either

theorem Healthy.crash_remove_record (healthy : Healthy codec store slots tail)
    (oneByte : codec.MarksOneByte) {id : Bytes} {m : MessagePtr} {rest : List MessagePtr}
    (found : target store.1.msgs id = some (m, rest)) (valid : m.payload.valid = validMark)
    (restores : Restores codec m.payload) {before after : Bytes}
    (split : content store = before ++ frame (codec.serializeToString m.payload) ++ after)
    (place : m.msg.offset = before.length) (written : m.msg.length ≠ 0) (n : Nat) :
    Holds store.1.filePath (StoreOp.crash codec n store (.remove id))
      (before ++ frame (codec.serializeToString
        (if turnsOver codec n m.payload then m.payload.setValid invalidMark else m.payload)) ++
          after) := by
  have key := healthy.attached.key
  have sameSize : (codec.serializeToString (m.payload.setValid invalidMark)).length =
      (codec.serializeToString m.payload).length := by
    rw [codec.length_setValid, MessagePayload.setValid_of_valid valid]
  obtain ⟨⟨file, confined⟩, bytes⟩ := invalidatePersistentPart_record n healthy.ready
    (by rw [key]; exact split) place written sameSize
  have crashed : StoreOp.crash codec n store (.remove id) =
      invalidatePersistentPart codec n store.1.file store.2 m.msg := by
    simp only [StoreOp.crash, found]
  have size : (codec.serializeToString m.payload).length = (codec.serializeToString
      (if turnsOver codec n m.payload then m.payload.setValid invalidMark
        else m.payload)).length := by
    split
    · exact sameSize.symm
    · rfl
  have turned : (codec.serializeToString (m.msg.payload.setValid invalidMark)).take n ++
      (codec.serializeToString m.payload).drop n = _ := overwritten_eq oneByte valid restores n
  rw [key, size, turned] at bytes
  rw [crashed, frame, ← bytes]
  exact healthy.attached.holds_of_confined confined

/-- A removal that is cut off has turned the record over or has not touched it. -/
theorem Healthy.crash_remove (healthy : Healthy codec store slots tail)
    (oneByte : codec.MarksOneByte) {id : Bytes} {m : MessagePtr} {rest : List MessagePtr}
    (found : target store.1.msgs id = some (m, rest)) (isTracked : tracked m = true) (n : Nat) :
    Holds store.1.filePath (StoreOp.crash codec n store (.remove id))
      (if turnsOver codec n m.payload then content (StoreOp.apply codec store (.remove id))
        else content store) := by
  obtain ⟨before, after, msgsEq, rfl, -, -⟩ := target_split found
  have backed := healthy.backed
  rw [msgsEq] at backed
  obtain ⟨first, s, last, slotsEq, -, payload, contentEq, offset, written, -⟩ :=
    backed.invalidate isTracked
  have isValid : m.payload.valid = validMark := by
    simp only [tracked, Bool.and_eq_true, beq_iff_eq] at isTracked
    exact isTracked.1
  have restores : Restores codec m.payload := by
    rw [← payload]
    exact healthy.backed.restores s (by rw [slotsEq]; simp)
  rw [Slot.record, payload] at contentEq
  have part := healthy.crash_remove_record oneByte found isValid restores contentEq offset written
  have holds := part n
  by_cases turned : turnsOver codec n m.payload = true
  · rw [if_pos turned] at holds ⊢
    -- the whole removal is the part that is not cut off
    have all : turnsOver codec store.2.capacity m.payload = true := by
      have inside : (content store).length ≤ store.2.capacity := store.2.content_length_le _
      rw [contentEq] at inside
      simp only [List.length_append, frame_length] at inside
      exact turnsOver_of_le isValid (by omega)
    have whole := (part store.2.capacity).stored
    rw [if_pos all, crash_whole store (Nat.le_refl _) (by simp)] at whole
    rw [content, apply_filePath, FileSystem.content, whole]
    exact holds
  · rw [if_neg turned] at holds ⊢
    rwa [contentEq]

theorem Attached.crash_compact (attached : Attached store)
    (elsewhere : resolve store.1.filePath ≠ resolve (store.1.filePath ++ str ".tmp")) (n : Nat) :
    Holds store.1.filePath (StoreOp.crash codec n store .compact) (content store) := by
  refine attached.holds_of_sameAt ?_
  obtain ⟨files, openable⟩ := Stream.openOut_others {} store.2 (store.1.filePath ++ str ".tmp")
    elsewhere
  simp only [StoreOp.crash, compactPart]
  split
  · split
    next isOpen =>
      have tmpKey := Stream.openOut_key {} store.2 (store.1.filePath ++ str ".tmp") rfl isOpen
      have copied := compactLoopWithin_confined codec n
        (Stream.openOut {} store.2 (store.1.filePath ++ str ".tmp")).1
        (Stream.openOut {} store.2 (store.1.filePath ++ str ".tmp")).2 (some 0) store.1.msgs
      have same := copied.sameAt (tmpKey ▸ elsewhere)
      exact .trans ⟨files, congrFun openable _⟩ same
    · exact ⟨files, congrFun openable _⟩
  · exact .refl _ _

end Holds

end HzMq.Persistence
