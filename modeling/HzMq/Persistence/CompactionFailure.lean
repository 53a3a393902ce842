import HzMq.Common.Wire
import HzMq.Persistence.Operations
import HzMq.Server.QueueMessage.CompactLoop

/-!
# Compaction on a full disk

`compact` checks that the temporary file was opened, and nothing after that. When
a write to it fails, the loop goes on giving out positions, and the file that was
cut off replaces the only copy of the records.
-/

namespace HzMq.Persistence

open FileStream FramedLog QueueMessage Machine

section Model

variable (codec : Codec) (room : Nat)

/-- `compact` when the temporary file takes no more than `room` bytes, so that the first write
that does not fit fails, and with it all that follow. -/
def compactWithin (store : Store) : Store :=
  if store.1.file.isOpen then
    let tmpPath := store.1.filePath ++ str ".tmp"
    let (tmp, fs) := Stream.openOut {} store.2 tmpPath
    if tmp.isOpen then
      let (msgs, _, fs) := compactLoopWithin codec room tmp fs (some 0) store.1.msgs
      let fs := fs.rename (resolve tmpPath) (resolve store.1.filePath)
      ({ store.1 with
          msgs
          file := store.1.file.close.openInOut fs store.1.filePath }, fs)
    else (store.1, fs)
  else store

theorem compactWithin_capacity (store : Store) :
    compactWithin codec store.2.capacity store = StoreOp.apply codec store .compact := by
  have same : (Stream.openOut {} store.2 (store.1.filePath ++ str ".tmp")).2.capacity =
      store.2.capacity := Stream.openOut_capacity _ _ _
  simp only [compactWithin, StoreOp.apply, QueueMessage.compact, compactLoopWithin_capacity same]

variable {room}

/-- What is left behind when the temporary file could be opened. -/
theorem compactWithin_spec {store : Store} (isOpen : store.1.file.isOpen = true)
    (openable : store.2.openable (resolve (store.1.filePath ++ str ".tmp")) = true) {limit : Nat}
    (within : min room store.2.capacity = limit) :
    (compactWithin codec room store).1.msgs =
        (layout (payloadBytes codec) 0 store.1.msgs).map (cutOff limit) ∧
      content (compactWithin codec room store) =
        (frames (store.1.msgs.map (payloadBytes codec))).take limit := by
  have opened := Stream.openOut_of_openable {} store.2 (store.1.filePath ++ str ".tmp") rfl openable
  simp only [compactWithin, if_pos isOpen, opened, if_true]
  generalize resolve (store.1.filePath ++ str ".tmp") = key
  have start : Stream.Cut limit 0 { isOpen := true, key } (store.2.put key [] (Nat.zero_le _)) :=
    ⟨by simp, by simp [Stream.ready_iff]⟩
  have sameLimit : min room (store.2.put key [] (Nat.zero_le _)).capacity = limit := within
  obtain ⟨moved, -, bytes⟩ := compactLoopWithin_cut codec sameLimit start store.1.msgs
  refine ⟨moved, ?_⟩
  simp only [FileSystem.content_put_self, List.nil_append] at bytes
  simp only [content, FileSystem.content, FileSystem.files_rename_new] at bytes ⊢
  exact bytes

variable {codec}

theorem compactWithin_skipped {store : Store}
    (skipped : store.1.file.isOpen = false ∨
      store.2.openable (resolve (store.1.filePath ++ str ".tmp")) = false) :
    compactWithin codec room store = store := by
  unfold compactWithin
  split
  next isOpen =>
    have notOpenable := skipped.resolve_left (by simp [isOpen])
    simp [Stream.openOut, notOpenable]
  · rfl

/-- A record that begins or ends behind the limit is not where its message says. -/
theorem recorded_iff {msgs : List MessagePtr} {limit : Nat} {e : Entry MessagePtr}
    (member : e ∈ layout (payloadBytes codec) 0 msgs)
    (limited : limit < noOffset) :
    ((((frames (msgs.map (payloadBytes codec))).take limit).drop (cutOff limit e).msg.offset).take
        (cutOff limit e).msg.length = frame (payloadBytes codec e.value)) ↔
      e.offset + 4 + e.size ≤ limit := by
  have size := layout_size member
  have there := layout_frame List.prefix_rfl member
  constructor
  · intro recorded
    have lengths := congrArg List.length recorded
    simp only [cutOff, List.length_take, List.length_drop, frame_length] at lengths
    split at lengths <;> omega
  · intro fits
    have before : e.offset ≤ limit := by omega
    simp only [cutOff, if_pos before]
    rw [List.drop_take, List.take_take, Nat.min_eq_left (by omega), there]

end Model

structure AllRecorded (codec : Codec) (before after : Store) : Prop where
  payloads : after.1.msgs.map MessagePtr.payload = before.1.msgs.map MessagePtr.payload
  recorded : ∀ m ∈ after.1.msgs,
    ((content after).drop m.msg.offset).take m.msg.length =
      frame (codec.serializeToString m.payload)

/-- All or nothing: every record is in the file, or neither file nor deque has changed. -/
def Atomic (codec : Codec) (before after : Store) : Prop :=
  AllRecorded codec before after ∨
    (content after = content before ∧ after.1.msgs = before.1.msgs)

/-- Compaction is atomic exactly when it is not begun, or all records fit in the temporary file, or
the store already was as a compaction that is cut off leaves it. -/
theorem compact_atomic_iff (codec : Codec) (room : Nat) (store : Store) :
    Atomic codec store (compactWithin codec room store) ↔
      store.1.file.isOpen = false ∨
      store.2.openable (resolve (store.1.filePath ++ str ".tmp")) = false ∨
      (frames (store.1.msgs.map (payloadBytes codec))).length ≤ min room store.2.capacity ∨
      (content store =
          (frames (store.1.msgs.map (payloadBytes codec))).take (min room store.2.capacity) ∧
        store.1.msgs = (layout (payloadBytes codec) 0 store.1.msgs).map
          (cutOff (min room store.2.capacity))) := by
  cases isOpen : store.1.file.isOpen with
  | false => simp [compactWithin_skipped (Or.inl isOpen), Atomic]
  | true =>
    cases openable : store.2.openable (resolve (store.1.filePath ++ str ".tmp")) with
    | false => simp [compactWithin_skipped (Or.inr openable), Atomic]
    | true =>
      have limited : min room store.2.capacity < noOffset :=
        Nat.lt_of_le_of_lt (Nat.min_le_right _ _) (Nat.lt_trans store.2.capacity_lt (by decide))
      generalize within : min room store.2.capacity = limit at *
      obtain ⟨moved, bytes⟩ := compactWithin_spec codec isOpen openable within
      have all : AllRecorded codec store (compactWithin codec room store) ↔
          (frames (store.1.msgs.map (payloadBytes codec))).length ≤ limit := by
        rw [← layout_fits_iff]
        constructor
        · intro recorded e member
          have here := recorded.recorded (cutOff limit e) (moved ▸ List.mem_map_of_mem member)
          rw [bytes] at here
          exact (recorded_iff member limited).mp here
        · intro fits
          constructor
          · rw [moved, List.map_map]
            conv_rhs => rw [← layout_values (payloadBytes codec) 0 store.1.msgs, List.map_map]
            rfl
          · intro m queued
            rw [moved] at queued
            obtain ⟨e, member, rfl⟩ := List.mem_map.mp queued
            rw [bytes]
            exact (recorded_iff member limited).mpr (fits e member)
      rw [Atomic, all, bytes, moved]
      simp only [Bool.true_eq_false, false_or]
      exact or_congr_right (and_congr eq_comm eq_comm)

/-- Two messages with a record each, and a temporary file that takes ten bytes: a reader that finds
both messages before the compaction finds none after it. -/
theorem compact_loses_records :
    let store := exec (StoreOp.apply Wire.codec)
      (new (FileSystem.blank 4096 (by decide)) (str "d") (str "q"))
      [.insert (some { id := str "a" }) (str "x") true,
        .insert (some { id := str "b" }) (str "y") true]
    let after := compactWithin Wire.codec 10 store
    (start Wire.codec store.2 (str "d") (str "q")).1.msgs.map MessagePtr.msg =
        store.1.msgs.map MessagePtr.msg ∧
      (start Wire.codec after.2 (str "d") (str "q")).1.msgs = [] ∧
      ¬ Atomic Wire.codec store after := by
  intro store after
  refine ⟨by decide, by decide, ?_⟩
  rintro (recorded | ⟨sameBytes, -⟩)
  · exact absurd recorded.recorded (by decide)
  · exact absurd sameBytes (by decide)

end HzMq.Persistence
