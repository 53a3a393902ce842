import HzMq.Persistence.Session

/-!
# A torn tail

The file ends in a piece of a record that a crash left behind. The reader stops
in front of it and nobody truncates it, so whatever is appended later stands
behind it and is never read again. The records in front stay readable.
-/

namespace HzMq.Persistence

open FileStream FramedLog QueueMessage Machine

/-- What a later reader is expected to find, with the number of the object: the
valid records, and every message `write_persistent` reported as written, without
those that were removed. -/
def expected (codec : Codec) : Store → List (MessagePayload × Nat) → List StoreOp →
    List (MessagePayload × Nat)
  | _, kept, [] => kept
  | store, kept, op :: ops =>
    expected codec (op.apply codec store)
      (match op with
        | .insert bp body true =>
          if (writePersistent codec store.1.file store.2 (makeMessage bp body)).1 then
            kept ++ [(marked bp body, store.1.pushed)]
          else kept
        | .remove id =>
          match target store.1.msgs id with
          | none => kept
          | some (m, _) => kept.filter fun entry => entry.2 ≠ m.addr
        | _ => kept) ops

/-- Inserts come while the stream is still failed and therefore write nothing;
records are invalidated on a healthy stream, and messages without a record are
removed on a failed one. -/
def TornSafe (store : Store) : StoreOp → Prop
  | .insert _ _ durable => durable = true ∧ store.1.file.failbit = true
  | .remove id => ∀ found ∈ target store.1.msgs id,
      if found.1.msg.offset = noOffset then store.1.file.failbit = true
      else store.1.file.ready = true
  | .getStats => True
  | .compact => False

instance (store : Store) (op : StoreOp) : Decidable (TornSafe store op) :=
  match op with
  | .insert _ _ _ => inferInstanceAs (Decidable (_ ∧ _))
  | .remove _ => inferInstanceAs (Decidable (∀ found ∈ (_ : Option _), _))
  | .getStats => isTrue trivial
  | .compact => isFalse id

/-- The invariant: the records in front of the tail back the deque, the stream is
healthy or failed, and what is expected is what is backed. -/
structure OverTail (codec : Codec) (tail baseDir queueName : Bytes)
    (kept : List (MessagePayload × Nat)) (store : Store) : Prop where
  filePath : store.1.filePath = path baseDir queueName
  backed : ∃ slots, Healthy codec store slots tail ∨ Failed codec store slots tail
  kept_eq : kept = (store.1.msgs.filter tracked).map fun m => (m.payload, m.addr)
  numbered : store.1.Numbered
  positioned : ∀ m ∈ store.1.msgs, tracked m = false → m.msg.offset = noOffset

section OverTail

variable {codec : Codec} {tail baseDir queueName : Bytes} {kept : List (MessagePayload × Nat)}
  {store : Store}

theorem OverTail.attached (overTail : OverTail codec tail baseDir queueName kept store) :
    Attached store ∧ ∃ slots, Backed codec store.1.msgs (content store) slots tail := by
  obtain ⟨slots, healthy | failed⟩ := overTail.backed
  · exact ⟨healthy.attached, slots, healthy.backed⟩
  · exact ⟨failed.attached, slots, failed.backed⟩

theorem OverTail.insert (overTail : OverTail codec tail baseDir queueName kept store)
    (bp : Option BasicProperties) (body : Bytes) (failbit : store.1.file.failbit = true) :
    OverTail codec tail baseDir queueName kept
        (StoreOp.apply codec store (.insert bp body true)) ∧
      (writePersistent codec store.1.file store.2 (makeMessage bp body)).1 = false := by
  obtain ⟨attached, slots, backed⟩ := overTail.attached
  obtain ⟨failed, refused, m, msgs, -, offset⟩ :=
    Failed.insert bp body (⟨attached, failbit, backed⟩ : Failed codec store slots tail)
  have untracked : tracked m = false := by simp [tracked, offset]
  refine ⟨⟨overTail.filePath, ⟨slots, Or.inr failed⟩, ?_,
    overTail.numbered.insert codec store.2 bp body true, ?_⟩, refused⟩
  · simp [msgs, untracked, overTail.kept_eq]
  · intro x member isUntracked
    rw [msgs] at member
    rcases List.mem_append.mp member with old | new
    · exact overTail.positioned x old isUntracked
    · rw [List.mem_singleton.mp new]
      exact offset

theorem OverTail.remove (overTail : OverTail codec tail baseDir queueName kept store) {id : Bytes}
    {m : MessagePtr} {rest : List MessagePtr} (found : target store.1.msgs id = some (m, rest))
    (safe : if m.msg.offset = noOffset then store.1.file.failbit = true
      else store.1.file.ready = true) :
    OverTail codec tail baseDir queueName (kept.filter fun entry => entry.2 ≠ m.addr)
      (StoreOp.apply codec store (.remove id)) := by
  obtain ⟨attached, slots, backed⟩ := overTail.attached
  have inDeque := fun x => mem_of_target (x := x) found
  have msgs := apply_remove_msgs codec found
  refine ⟨by simp [overTail.filePath], ?_, ?_, overTail.numbered.remove codec store.2 id, ?_⟩
  · cases isTracked : tracked m with
    | true =>
      have placedMessage : m.msg.offset ≠ noOffset := by
        simp only [tracked, Bool.and_eq_true, bne_iff_ne] at isTracked
        exact isTracked.2
      rw [if_neg placedMessage] at safe
      obtain ⟨_, _, _, _, _, _, healthy⟩ := Healthy.remove_tracked
        (⟨attached, safe, backed⟩ : Healthy codec store slots tail) found isTracked
      exact ⟨_, Or.inl healthy⟩
    | false =>
      rw [if_pos (overTail.positioned m ((inDeque m).mpr (Or.inl rfl)) isTracked)] at safe
      exact ⟨slots, Or.inr (Failed.remove_untracked
        (⟨attached, safe, backed⟩ : Failed codec store slots tail) found isTracked)⟩
  · rw [msgs, overTail.numbered.rest_eq_filter found, overTail.kept_eq, List.filter_map,
      List.filter_comm]
    rfl
  · intro x member
    rw [msgs] at member
    exact overTail.positioned x ((inDeque x).mpr (Or.inr member))

theorem OverTail.getStats (overTail : OverTail codec tail baseDir queueName kept store) :
    OverTail codec tail baseDir queueName kept (StoreOp.apply codec store .getStats) := by
  obtain ⟨attached, slots, backed⟩ := overTail.attached
  refine ⟨by simp [overTail.filePath], ⟨slots, Or.inl (attached.heal backed)⟩, ?_, ?_, ?_⟩
  · simpa [StoreOp.apply] using overTail.kept_eq
  · simpa [StoreOp.apply, Numbered] using overTail.numbered
  · simpa [StoreOp.apply] using overTail.positioned

/-- What is expected is what the records in front of the tail still yield. -/
theorem OverTail.run (overTail : OverTail codec tail baseDir queueName kept store)
    (ops : List StoreOp) (safe : Along (StoreOp.apply codec) TornSafe store ops) :
    OverTail codec tail baseDir queueName (expected codec store kept ops)
      (exec (StoreOp.apply codec) store ops) := by
  induction ops generalizing store kept with
  | nil => exact overTail
  | cons op ops ih =>
    obtain ⟨now, later⟩ := safe
    cases op with
    | insert bp body durable =>
      obtain ⟨rfl, failbit⟩ := now
      obtain ⟨next, refused⟩ := overTail.insert bp body failbit
      simpa [expected, refused] using ih next later
    | remove id =>
      cases found : target store.1.msgs id with
      | none =>
        rw [apply_remove_miss found] at later
        simpa [expected, found, apply_remove_miss found] using ih overTail later
      | some pair =>
        have next := ih (overTail.remove found (now pair found)) later
        simpa [expected, found] using next
    | getStats => exact ih overTail.getStats later
    | compact => exact absurd now id

/-- Reading the torn file: the valid complete records are queued. -/
theorem OverTail.start {fs : FileSystem} {originals : List MessagePayload}
    (stored : fs.files (resolve (path baseDir queueName)) =
      some (frames (originals.map codec.serializeToString) ++ tail))
    (openable : fs.openable (resolve (path baseDir queueName)) = true)
    (restores : ∀ p ∈ originals, Restores codec p) (stop : unframe? tail = none) :
    OverTail codec tail baseDir queueName
      (originals.filter fun p => p.valid == validMark).zipIdx
      (start codec fs baseDir queueName) := by
  have bytes : fs.content (resolve (path baseDir queueName)) =
      frames (originals.map codec.serializeToString) ++ tail := by
    rw [FileSystem.content, stored, Option.getD_some]
  have payloads : (originals.map fun p => (⟨0, p⟩ : Slot)).map Slot.payload = originals := by
    rw [List.map_map]
    exact List.map_id originals
  have logged : Logged codec (fs.content (resolve (path baseDir queueName)))
      (originals.map fun p => ⟨0, p⟩) tail := by
    constructor
    · rw [bytes, records, List.map_map]
      rfl
    · intro s member
      obtain ⟨p, inOriginals, rfl⟩ := List.mem_map.mp member
      exact restores p inOriginals
  have present : (fs.files (resolve (path baseDir queueName))).isSome :=
    Option.isSome_of_eq_some stored
  have failed := start_of_records present openable logged stop
  obtain ⟨msgs, pushed, -⟩ := start_of_present codec present openable
  have allTracked : ∀ m ∈ (Persistence.start codec fs baseDir queueName).1.msgs,
      tracked m = true := by
    intro m member
    rw [msgs] at member
    exact logged.tracked_of_loaded stop (content_length_lt_noOffset fs _)
      (MessagePtr.mem_number member)
  refine ⟨by simp [Persistence.start], ⟨_, Or.inr failed⟩, ?_, ?_, ?_⟩
  · rw [List.filter_eq_self.mpr allTracked, msgs, MessagePtr.number_payload_addr,
      logged.valid_payloads stop (fs.content_length_lt _), payloads]
  · have nothing : (new fs baseDir queueName).1.Numbered := by
      rw [new_present (by rw [stored]; rfl) openable]
      exact ⟨by simp, by simp⟩
    exact nothing.recovery codec _
  · intro m member isUntracked
    rw [allTracked m member] at isUntracked
    cases isUntracked

end OverTail

/-- As long as nothing is appended behind it, a torn tail hides nothing: a later
reader finds every valid complete record of the original file that was not
removed. -/
theorem torn_tail_keeps_records (codec : Codec) (fs : FileSystem) (baseDir queueName tail : Bytes)
    (originals : List MessagePayload) (restores : ∀ p ∈ originals, Restores codec p)
    (torn : ∃ p, tail <+: frame (codec.serializeToString p) ∧
      tail ≠ frame (codec.serializeToString p))
    (stored : fs.files (resolve (path baseDir queueName)) =
      some (frames (originals.map codec.serializeToString) ++ tail))
    (openable : fs.openable (resolve (path baseDir queueName)) = true)
    (ops : List StoreOp)
    (safe : Along (StoreOp.apply codec) TornSafe (start codec fs baseDir queueName) ops) :
    let store := exec (StoreOp.apply codec) (start codec fs baseDir queueName) ops
    (start codec store.2 baseDir queueName).1.msgs.map MessagePtr.payload =
      (expected codec (start codec fs baseDir queueName)
        (originals.filter fun p => p.valid == validMark).zipIdx ops).map Prod.fst := by
  intro store
  have stop : unframe? tail = none := by
    obtain ⟨p, isPrefix, proper⟩ := torn
    exact Torn.unframe?_eq_none ⟨_, codec.size_lt_word p, isPrefix, proper⟩
  have overTail := (OverTail.start stored openable restores stop).run ops safe
  obtain ⟨attached, slots, backed⟩ := overTail.attached
  have yields := attached.restart_yields overTail.filePath backed stop
  have payloads := congrArg (List.map Message.payload) yields
  rw [List.map_map, List.map_map] at payloads
  rw [overTail.kept_eq, List.map_map]
  exact payloads

/-- Two records and a cut one: what is inserted before `get_stats` is not written,
the removal after it is. -/
theorem torn_tail_keeps_records_example :
    let originals : List MessagePayload :=
      [{ properties? := some { id := str "a" }, body := str "x", valid := validMark },
        { properties? := some { id := str "b" }, body := str "y", valid := validMark }]
    let tail : Bytes := [6, 0, 0, 0, 18]
    let fs := (FileSystem.blank 4096 (by decide)).put (resolve (path (str "d") (str "q")))
      (frames (originals.map Wire.codec.serializeToString) ++ tail) (by decide)
    let first := start Wire.codec fs (str "d") (str "q")
    let ops : List StoreOp :=
      [.insert (some { id := str "c" }) (str "z") true, .getStats, .remove (str "a")]
    (start Wire.codec (exec (StoreOp.apply Wire.codec) first ops).2 (str "d")
        (str "q")).1.msgs.map MessagePtr.payload =
      (expected Wire.codec first
        (originals.filter fun p => p.valid == validMark).zipIdx ops).map Prod.fst :=
  torn_tail_keeps_records Wire.codec _ _ _ [6, 0, 0, 0, 18] _ (by decide)
    ⟨{ body := str "x", valid := validMark }, by decide, by decide⟩ (by decide) (by decide) _
    (by decide)

/-- One byte of a record is left over. A message appended after `get_stats` is
reported as written, and a later reader does not find it. -/
theorem torn_tail_hides_record :
    let fs := (FileSystem.blank 4096 (by decide)).put (resolve (path (str "d") (str "q"))) [6]
      (by decide)
    let first := start Wire.codec fs (str "d") (str "q")
    let ops : List StoreOp := [.getStats, .insert none (str "y") true]
    let store := exec (StoreOp.apply Wire.codec) first ops
    ([6] : Bytes) <+: frame (Wire.codec.serializeToString { body := str "x", valid := validMark }) ∧
      Along (StoreOp.apply Wire.codec) (Writable Wire.codec) first ops ∧
      expected Wire.codec first [] ops = [(marked none (str "y"), 0)] ∧
      (start Wire.codec store.2 (str "d") (str "q")).1.msgs = [] := by
  decide

end HzMq.Persistence
