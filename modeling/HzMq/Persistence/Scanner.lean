import HzMq.Common.Wire
import HzMq.Persistence.Operations

/-!
# The two readers of a file

`recovery` and `get_stats` go through the file each with a loop of its own. Both
loops end on any bytes, and both see the longest prefix that consists of complete
records with payloads that parse.
-/

namespace HzMq.Persistence

open FileStream FramedLog QueueMessage

section Rounds

variable (codec : Codec) (fs : FileSystem)

def remaining (file : Stream) : Nat := (fs.content file.key).length - file.pos

theorem recordRound_decreases {τ β : Type} (next : Nat → MessagePayload → Stream → τ → τ)
    (answer : Stream → τ → β) (s s' : Stream × τ)
    (again : recordRound codec fs next answer s = .inl s') :
    remaining fs s'.1 < remaining fs s.1 := by
  obtain ⟨header, data, file, first, second⟩ := recordRound_again again
  obtain ⟨rfl, enough⟩ := Stream.read_eq_some first
  obtain ⟨moved, -⟩ := Stream.read_eq_some second
  rw [moved]
  simp only [remaining, List.length_drop] at enough ⊢
  omega

theorem remaining_lt_fuel (file : Stream) :
    remaining fs file < (fs.content file.key).length + 1 := by
  unfold remaining
  omega

end Rounds

section Readers

variable (codec : Codec) (fs : FileSystem)

def placedMessage (e : Entry (Bytes × MessagePayload)) : Message :=
  { payload := e.value.2, offset := e.offset, length := 4 + e.size }

/-- `recovery` goes through these records and loads the valid ones, each with the place of its
record. -/
structure Recovers (q : QueueMessage) (records : List (Bytes × MessagePayload)) : Prop where
  ends : ∀ result,
    Loop.Ends (recoveryRound codec fs) (q.file.seekgBeg, q.file.seekgBeg.tellg, []) result ↔
      result = recoveryLoop codec fs ((fs.content q.file.seekgBeg.key).length + 1) q.file.seekgBeg
        q.file.seekgBeg.tellg []
  loads : (q.recovery codec fs).msgs.map MessagePtr.msg =
    ((layout Prod.fst 0 records).filter fun e => e.value.2.valid = validMark).map placedMessage
  delimits : ∀ e ∈ layout Prod.fst 0 records,
    ((fs.content q.file.key).drop (placedMessage e).offset).take (placedMessage e).length =
      frame e.value.1

structure Counts (q : QueueMessage) (records : List (Bytes × MessagePayload)) : Prop where
  ends : ∀ result,
    Loop.Ends (statsRound codec fs) (q.file.clear.seekgBeg, 0, 0) result ↔
      result = statsLoop codec fs ((fs.content q.file.clear.seekgBeg.key).length + 1)
        q.file.clear.seekgBeg 0 0
  total : (q.getStats codec fs).1.total = records.length
  invalid : (q.getStats codec fs).1.invalid = records.countP fun r => r.2.valid ≠ validMark
  files : (StoreOp.apply codec (q, fs) .getStats).2 = fs
  msgs : (StoreOp.apply codec (q, fs) .getStats).1.msgs = q.msgs

variable {codec fs} {q : QueueMessage} {records : List (Bytes × MessagePayload)}

theorem recovers_of_scan (ready : q.file.ready = true) (fresh : q.msgs = [])
    (begins : BeginsWith codec.parseFromString (fs.content q.file.key) records)
    (read : readable codec (fs.content q.file.key) =
      (layout Prod.fst 0 records).map fun e => ⟨e.offset, e.size, e.value.2⟩) :
    Recovers codec fs q records where
  ends result := by
    rw [recoveryLoop_eq_run]
    exact Loop.ends_iff_run (fun s => remaining fs s.1) (recordRound_decreases codec fs _ _) _
      (remaining_lt_fuel fs q.file.seekgBeg)
  loads := by
    have placed : ∀ e ∈ layout Prod.fst 0 records, e.offset % 2 ^ 64 = e.offset := by
      intro e member
      have inside := (layout_offset_bounds Prod.fst 0 records member).2
      have short := begins.2.length_le
      have bound := fs.content_length_lt q.file.key
      exact Nat.mod_eq_of_lt (by omega)
    rw [(recovery_msgs codec q fs ready).1, fresh, List.nil_append, MessagePtr.number_map_msg,
      loaded, read, List.filter_map, List.map_map]
    have valid : (isValid ∘ fun e : Entry (Bytes × MessagePayload) =>
        (⟨e.offset, e.size, e.value.2⟩ : Entry MessagePayload)) =
          fun e => decide (e.value.2.valid = validMark) := by
      funext e
      simp [isValid, beq_eq_decide]
    rw [valid]
    refine List.map_congr_left ?_
    intro e member
    simp only [Function.comp_apply, messageOf, placed e (List.mem_of_mem_filter member)]
    rfl
  delimits e member := layout_frame begins.2 member

theorem counts_of_scan (isOpen : q.file.isOpen = true)
    (read : readable codec (fs.content q.file.key) =
      (layout Prod.fst 0 records).map fun e => ⟨e.offset, e.size, e.value.2⟩) :
    Counts codec fs q records := by
  obtain ⟨total, invalid⟩ := getStats_counts codec q fs isOpen
  have values : (readable codec (fs.content q.file.key)).map Entry.value =
      records.map Prod.snd := by
    conv_rhs => rw [← layout_values Prod.fst 0 records]
    rw [read, List.map_map, List.map_map]
    rfl
  refine ⟨?_, ?_, ?_, rfl, getStats_msgs codec q fs⟩
  · intro result
    rw [statsLoop_eq_run]
    exact Loop.ends_iff_run (fun s => remaining fs s.1) (recordRound_decreases codec fs _ _) _
      (remaining_lt_fuel fs q.file.clear.seekgBeg)
  · rw [total]
    simpa using congrArg List.length values
  · have sameCount := congrArg (List.countP fun p : MessagePayload => p.valid ≠ validMark) values
    rw [List.countP_map, List.countP_map] at sameCount
    rw [invalid, ← Function.comp_def (fun p : MessagePayload => decide (p.valid ≠ validMark)),
      ← sameCount]
    refine List.countP_congr ?_
    intro e _
    simp [isValid]

/-- A new object on a file that may be opened has an empty deque and a healthy stream, and the
bytes of the file are as they were. -/
theorem new_opens {fs : FileSystem} {baseDir queueName : Bytes}
    (openable : fs.openable (resolve (path baseDir queueName)) = true) :
    (new fs baseDir queueName).1.msgs = [] ∧ (new fs baseDir queueName).1.file.ready = true ∧
      (new fs baseDir queueName).1.file.key = resolve (path baseDir queueName) ∧
      (new fs baseDir queueName).2.content (resolve (path baseDir queueName)) =
        fs.content (resolve (path baseDir queueName)) := by
  cases stored : fs.files (resolve (path baseDir queueName)) with
  | none =>
    rw [new_absent stored openable]
    simp [Stream.ready_iff, FileSystem.content, stored, FileSystem.files_put_self]
  | some bytes =>
    rw [new_present (by simp [stored]) openable]
    simp [Stream.ready_iff]

end Readers

/-- On any bytes both readers end and see the same records, the longest prefix there is. -/
theorem readers_accept_prefix (codec : Codec) (fs : FileSystem) (baseDir queueName : Bytes)
    (openable : fs.openable (resolve (path baseDir queueName)) = true) {q : QueueMessage}
    (isOpen : q.file.isOpen = true) (onFile : q.file.key = resolve (path baseDir queueName)) :
    ∃ records, LongestPrefix codec.parseFromString
        (fs.content (resolve (path baseDir queueName))) records ∧
      Recovers codec (new fs baseDir queueName).2 (new fs baseDir queueName).1 records ∧
      Counts codec (new fs baseDir queueName).2 q records ∧
      ((new fs baseDir queueName).1.recovery codec (new fs baseDir queueName).2).msgs.length =
        (q.getStats codec (new fs baseDir queueName).2).1.total -
          (q.getStats codec (new fs baseDir queueName).2).1.invalid := by
  obtain ⟨fresh, ready, key, sameContent⟩ := new_opens openable
  obtain ⟨records, longest, read⟩ := exists_longest_scan codec.parseFromString 0
    (Nat.lt_succ_self (fs.content (resolve (path baseDir queueName))).length)
  generalize (new fs baseDir queueName).1 = fresh' at *
  generalize (new fs baseDir queueName).2 = fs' at *
  rw [← sameContent] at longest read
  have recovers : Recovers codec fs' fresh' records :=
    recovers_of_scan ready fresh (key ▸ longest.begins) (key ▸ read)
  have counts : Counts codec fs' q records := counts_of_scan isOpen (onFile ▸ read)
  refine ⟨records, sameContent ▸ longest, recovers, counts, ?_⟩
  have number : (fresh'.recovery codec fs').msgs.length =
      records.countP fun r => r.2.valid = validMark := by
    have lengths := congrArg List.length recovers.loads
    rw [List.length_map, List.length_map, ← List.countP_eq_length_filter] at lengths
    rw [lengths, ← layout_values Prod.fst 0 records, List.countP_map, layout_values]
    rfl
  have split := List.length_eq_countP_add_countP
    (fun r : Bytes × MessagePayload => decide (r.2.valid = validMark)) (l := records)
  simp only [decide_eq_true_eq] at split
  rw [number, counts.total, counts.invalid, split]
  simp

/-- A valid record, an invalid one and two bytes that belong to no record. -/
theorem readers_accept_prefix_example :
    let fs := (FileSystem.blank 4096 (by decide)).put (resolve (path (str "d") (str "q")))
      (frames ([{ body := str "x", valid := validMark },
        { body := str "y", valid := invalidMark }].map Wire.codec.serializeToString) ++ [6, 0])
      (by decide)
    let q := (new fs (str "d") (str "q")).1
    let fs' := (new fs (str "d") (str "q")).2
    ∃ records, LongestPrefix Wire.codec.parseFromString
        (fs.content (resolve (path (str "d") (str "q")))) records ∧
      Recovers Wire.codec fs' q records ∧ Counts Wire.codec fs' q records ∧
      (q.recovery Wire.codec fs').msgs.length =
        (q.getStats Wire.codec fs').1.total - (q.getStats Wire.codec fs').1.invalid :=
  readers_accept_prefix Wire.codec _ (str "d") (str "q") (by decide) (by decide) (by decide)

end HzMq.Persistence
