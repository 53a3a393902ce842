import HzMq.Library.Loop
import HzMq.Server.QueueMessage.Deque

/-!
# Recovery reads the log

The loops of `recovery` and of `get_stats` over the stream are the reader
`FramedLog.scan` over the bytes behind the position. The first leaves the stream
failed exactly as the source does: reaching the end of the file sets the sticky
bits, a payload that does not parse only ends the loop.
-/

namespace HzMq

open FileStream FramedLog

namespace QueueMessage

def messageOf (e : Entry MessagePayload) : Message :=
  { payload := e.value, offset := e.offset % 2 ^ 64, length := 4 + e.size }

def isValid (e : Entry MessagePayload) : Bool := e.value.valid == validMark

variable (codec : Codec)

def readable (content : Bytes) : List (Entry MessagePayload) :=
  (scan codec.parseFromString (content.length + 1) 0 content).1

def loaded (content : Bytes) : List Message :=
  ((readable codec content).filter isValid).map messageOf

variable {codec} in
/-- A message is loaded from a valid record, together with the place of that record. -/
theorem mem_loaded_iff {content : Bytes} (bound : content.length < 2 ^ 64) {m : Message} :
    m ∈ loaded codec content ↔ ∃ e ∈ readable codec content, e.value.valid = validMark ∧
      m = { payload := e.value, offset := e.offset, length := 4 + e.size } := by
  simp only [loaded, List.mem_map, List.mem_filter, isValid, beq_iff_eq, and_assoc]
  refine exists_congr fun e => and_congr_right fun read => and_congr_right ?_
  intro _
  have inside := (scan_bounds codec.parseFromString _ 0 content read).2
  rw [messageOf, Nat.mod_eq_of_lt (by omega)]
  exact eq_comm

section Loop

variable {fs : FileSystem} {file : Stream}

theorem ready_advance (ready : file.ready = true) (pos : Nat) :
    Stream.ready { file with pos := pos } = true := ready

theorem tellg_of_ready (ready : file.ready = true) : file.tellg = some file.pos := by
  have good : file.good = true := by
    simp only [Stream.ready, Bool.and_eq_true] at ready
    exact ready.2
  simp [Stream.tellg, good]

theorem read_record (ready : file.ready = true) {payload rest : Bytes}
    (head : unframe? ((fs.content file.key).drop file.pos) = some (payload, rest)) :
    ∃ header, file.read fs 4 = (some header, { file with pos := file.pos + 4 }) ∧
      ofLe32 header = payload.length ∧
      ({ file with pos := file.pos + 4 } : Stream).read fs payload.length =
        (some payload, { file with pos := file.pos + 4 + payload.length }) := by
  obtain ⟨header, four, size, split⟩ := unframe?_eq_some_iff.mp head
  have behind : (fs.content file.key).drop (file.pos + 4) = payload ++ rest := by
    rw [← List.drop_drop, split, List.append_assoc, ← four, List.drop_left]
  refine ⟨header, ?_, size, ?_⟩
  · rw [Stream.read_of_le _ _ ready (by rw [split]; simp [four]), split, List.append_assoc, ← four,
      List.take_left]
  · rw [Stream.read_of_le _ _ (ready_advance ready _) (by rw [behind]; simp)]
    simp only [behind, List.take_left]

theorem read_no_record (ready : file.ready = true)
    (stop : unframe? ((fs.content file.key).drop file.pos) = none) :
    (∃ after, file.read fs 4 = (none, after) ∧ after.failbit = true) ∨
      ∃ header file' after, file.read fs 4 = (some header, file') ∧
        file'.read fs (ofLe32 header) = (none, after) ∧ after.failbit = true := by
  by_cases short : ((fs.content file.key).drop file.pos).length < 4
  · obtain ⟨nothing, failed⟩ := Stream.read_of_lt file fs ready short
    exact Or.inl ⟨_, Prod.ext nothing rfl, failed⟩
  · unfold unframe? at stop
    rw [if_neg short] at stop
    simp only at stop
    split at stop
    next missing =>
      obtain ⟨nothing, failed⟩ := Stream.read_of_lt _ fs (ready_advance ready (file.pos + 4))
        (by simpa only [List.drop_drop] using missing)
      exact Or.inr ⟨_, _, _, Stream.read_of_le _ _ ready (Nat.not_lt.mp short),
        Prod.ext nothing rfl, failed⟩
    · cases stop

theorem recoveryLoop_frame (ready : file.ready = true) {payload rest : Bytes}
    (head : unframe? ((fs.content file.key).drop file.pos) = some (payload, rest))
    (fuel : Nat) (acc : List Message) :
    recoveryLoop codec fs (fuel + 1) file (some file.pos) acc =
      match codec.parseFromString payload with
      | none => ({ file with pos := file.pos + 4 + payload.length }, acc)
      | some p =>
        recoveryLoop codec fs fuel { file with pos := file.pos + 4 + payload.length }
          (some (file.pos + 4 + payload.length))
          (if p.valid = validMark then acc ++ [messageOf ⟨file.pos, payload.length, p⟩]
            else acc) := by
  obtain ⟨header, first, size, second⟩ := read_record ready head
  rw [recoveryLoop, first]
  simp only [size, second]
  cases codec.parseFromString payload with
  | none => rfl
  | some p =>
    simp only
    rw [tellg_of_ready (ready_advance ready _)]
    rfl

theorem recoveryLoop_end (ready : file.ready = true)
    (stop : unframe? ((fs.content file.key).drop file.pos) = none)
    (fuel : Nat) (pos : Option Nat) (acc : List Message) :
    (recoveryLoop codec fs (fuel + 1) file pos acc).2 = acc ∧
      (recoveryLoop codec fs (fuel + 1) file pos acc).1.failbit = true := by
  rcases read_no_record ready stop with
    ⟨after, first, failed⟩ | ⟨header, file', after, first, second, failed⟩
  · simp only [recoveryLoop, first]
    exact ⟨trivial, failed⟩
  · simp only [recoveryLoop, first, second]
    exact ⟨trivial, failed⟩

theorem drop_of_unframe? {content payload rest : Bytes} {pos : Nat}
    (head : unframe? (content.drop pos) = some (payload, rest)) :
    content.drop (pos + 4 + payload.length) = rest := by
  obtain ⟨header, four, -, split⟩ := unframe?_eq_some_iff.mp head
  rw [Nat.add_assoc, ← List.drop_drop, split]
  exact List.drop_left' (by rw [List.length_append, four])

/-- The loop is the reader; the induction is on the fuel. -/
theorem recoveryLoop_eq_scan (fs : FileSystem) {file : Stream} (fuel : Nat)
    (ready : file.ready = true) (acc : List Message)
    (enough : ((fs.content file.key).drop file.pos).length < fuel) :
    (recoveryLoop codec fs fuel file (some file.pos) acc).2 =
        acc ++ ((scan codec.parseFromString fuel file.pos
          ((fs.content file.key).drop file.pos)).1.filter isValid).map messageOf ∧
      (unframe? (scan codec.parseFromString fuel file.pos
          ((fs.content file.key).drop file.pos)).2 = none →
        (recoveryLoop codec fs fuel file (some file.pos) acc).1.failbit = true) := by
  induction fuel generalizing file acc with
  | zero => omega
  | succ fuel ih =>
    cases head : unframe? ((fs.content file.key).drop file.pos) with
    | none =>
      rw [scan_none _ _ _ head]
      obtain ⟨result, failed⟩ := recoveryLoop_end codec ready head fuel (some file.pos) acc
      exact ⟨by simpa using result, fun _ => failed⟩
    | some pair =>
      obtain ⟨payload, rest⟩ := pair
      rw [recoveryLoop_frame codec ready head]
      cases parsed : codec.parseFromString payload with
      | none =>
        rw [scan_unparsed _ _ _ head parsed]
        exact ⟨by simp, fun stop => by simp [head] at stop⟩
      | some p =>
        rw [scan_succ _ _ _ head parsed]
        have next := drop_of_unframe? head
        have shorter := unframe?_length head
        obtain ⟨result, failed⟩ := ih (ready_advance ready (file.pos + 4 + payload.length))
          (if p.valid = validMark then acc ++ [messageOf ⟨file.pos, payload.length, p⟩] else acc)
          (by simp only [next]; omega)
        simp only [next] at result failed
        refine ⟨?_, failed⟩
        simp only [result, List.filter_cons, isValid]
        by_cases valid : p.valid = validMark <;> simp [valid]

/-- The loop of `get_stats` goes through the same records and counts them. -/
theorem statsLoop_eq_scan (fs : FileSystem) {file : Stream} (fuel : Nat)
    (ready : file.ready = true) (total invalid : Nat)
    (enough : ((fs.content file.key).drop file.pos).length < fuel) :
    (statsLoop codec fs fuel file total invalid).2 =
      (total + (scan codec.parseFromString fuel file.pos
          ((fs.content file.key).drop file.pos)).1.length,
        invalid + (scan codec.parseFromString fuel file.pos
          ((fs.content file.key).drop file.pos)).1.countP fun e => !isValid e) := by
  induction fuel generalizing file total invalid with
  | zero => omega
  | succ fuel ih =>
    cases head : unframe? ((fs.content file.key).drop file.pos) with
    | none =>
      rw [scan_none _ _ _ head]
      rcases read_no_record ready head with
        ⟨after, first, -⟩ | ⟨header, file', after, first, second, -⟩
      · simp [statsLoop, first]
      · simp [statsLoop, first, second]
    | some pair =>
      obtain ⟨payload, rest⟩ := pair
      obtain ⟨header, first, size, second⟩ := read_record ready head
      simp only [statsLoop, first, size, second]
      cases parsed : codec.parseFromString payload with
      | none => simp [scan_unparsed _ _ _ head parsed]
      | some p =>
        rw [scan_succ _ _ _ head parsed]
        have next := drop_of_unframe? head
        have shorter := unframe?_length head
        have counted := ih (ready_advance ready (file.pos + 4 + payload.length)) (total + 1)
          (if p.valid = validMark then invalid else invalid + 1) (by simp only [next]; omega)
        simp only [next] at counted
        simp only [counted, List.length_cons, List.countP_cons, isValid]
        by_cases valid : p.valid = validMark <;> simp [valid, Nat.add_assoc, Nat.add_comm]

end Loop

section Rounds

variable (fs : FileSystem)

/-- One pass through a loop that reads a length, a payload of that length, and parses it. `next` is
what it does with the payload, `answer` what it leaves with. -/
def recordRound {τ β : Type} (next : Nat → MessagePayload → Stream → τ → τ)
    (answer : Stream → τ → β) : Stream × τ → (Stream × τ) ⊕ β
  | (file, state) =>
    match file.read fs 4 with
    | (none, file) => .inr (answer file state)
    | (some header, file) =>
      match file.read fs (ofLe32 header) with
      | (none, file) => .inr (answer file state)
      | (some data, file) =>
        match codec.parseFromString data with
        | none => .inr (answer file state)
        | some payload => .inl (file, next (ofLe32 header) payload file state)

def recoveryRound : Stream × Option Nat × List Message →
    (Stream × Option Nat × List Message) ⊕ (Stream × List Message) :=
  recordRound codec fs
    (fun len payload file (pos, loaded) =>
      let msg : Message := { payload, offset := offsetOfPos pos, length := 4 + len }
      (file.tellg, if payload.valid = validMark then loaded ++ [msg] else loaded))
    fun file (_, loaded) => (file, loaded)

def statsRound : Stream × Nat × Nat → (Stream × Nat × Nat) ⊕ (Stream × Nat × Nat) :=
  recordRound codec fs
    (fun _ payload _ (total, invalid) =>
      (total + 1, if payload.valid = validMark then invalid else invalid + 1))
    Prod.mk

variable {codec fs} in
theorem record_run_succ {τ β : Type} {next : Nat → MessagePayload → Stream → τ → τ}
    {answer : Stream → τ → β} {cut : Stream × τ → β} (fuel : Nat) (file : Stream) (state : τ) :
    Loop.run (recordRound codec fs next answer) cut (fuel + 1) (file, state) =
      match file.read fs 4 with
      | (none, file) => answer file state
      | (some header, file) =>
        match file.read fs (ofLe32 header) with
        | (none, file) => answer file state
        | (some data, file) =>
          match codec.parseFromString data with
          | none => answer file state
          | some payload =>
            Loop.run (recordRound codec fs next answer) cut fuel
              (file, next (ofLe32 header) payload file state) := by
  rw [Loop.run, recordRound]
  rcases file.read fs 4 with ⟨_ | header, file₁⟩
  · rfl
  · simp only
    rcases file₁.read fs (ofLe32 header) with ⟨_ | data, file₂⟩
    · rfl
    · simp only
      cases codec.parseFromString data with
      | none => rfl
      | some payload => rfl

theorem recoveryLoop_eq_run (fuel : Nat) (file : Stream) (pos : Option Nat)
    (loaded : List Message) :
    recoveryLoop codec fs fuel file pos loaded =
      Loop.run (recoveryRound codec fs) (fun s => (s.1, s.2.2)) fuel (file, pos, loaded) := by
  induction fuel generalizing file pos loaded with
  | zero => rfl
  | succ fuel ih =>
    rw [recoveryLoop, recoveryRound, record_run_succ]
    simp only [ih]
    rfl

theorem statsLoop_eq_run (fuel : Nat) (file : Stream) (total invalid : Nat) :
    statsLoop codec fs fuel file total invalid =
      Loop.run (statsRound codec fs) id fuel (file, total, invalid) := by
  induction fuel generalizing file total invalid with
  | zero => rfl
  | succ fuel ih =>
    rw [statsLoop, statsRound, record_run_succ]
    simp only [ih]
    rfl

variable {codec fs} {τ β : Type} {next : Nat → MessagePayload → Stream → τ → τ}
  {answer : Stream → τ → β}

theorem recordRound_again {s s' : Stream × τ}
    (again : recordRound codec fs next answer s = .inl s') :
    ∃ header data file, s.1.read fs 4 = (some header, file) ∧
      file.read fs (ofLe32 header) = (some data, s'.1) := by
  obtain ⟨file, state⟩ := s
  rw [recordRound] at again
  rcases first : file.read fs 4 with ⟨_ | header, file₁⟩ <;> simp only [first] at again
  · cases again
  · rcases second : file₁.read fs (ofLe32 header) with ⟨_ | data, file₂⟩ <;>
      simp only [second] at again
    · cases again
    · cases parsed : codec.parseFromString data with
      | none => simp [parsed] at again
      | some payload =>
        simp only [parsed, Sum.inl.injEq] at again
        exact ⟨header, data, file₁, rfl, by rw [second, ← again]⟩

theorem recordRound_leave {s : Stream × τ} {b : β}
    (leave : recordRound codec fs next answer s = .inr b) :
    ∃ file, b = answer file s.2 ∧ file.key = s.1.key ∧ file.isOpen = s.1.isOpen := by
  obtain ⟨file, state⟩ := s
  have key₁ := Stream.read_key file fs 4
  have open₁ := Stream.read_isOpen file fs 4
  rw [recordRound] at leave
  rcases first : file.read fs 4 with ⟨_ | header, file₁⟩ <;> simp only [first] at leave key₁ open₁
  · exact ⟨file₁, (Sum.inr.inj leave).symm, key₁, open₁⟩
  · have key₂ := Stream.read_key file₁ fs (ofLe32 header)
    have open₂ := Stream.read_isOpen file₁ fs (ofLe32 header)
    rcases second : file₁.read fs (ofLe32 header) with ⟨_ | data, file₂⟩ <;>
      simp only [second] at leave key₂ open₂
    · exact ⟨file₂, (Sum.inr.inj leave).symm, key₂.trans key₁, open₂.trans open₁⟩
    · cases parsed : codec.parseFromString data with
      | none =>
        simp only [parsed] at leave
        exact ⟨file₂, (Sum.inr.inj leave).symm, key₂.trans key₁, open₂.trans open₁⟩
      | some payload => simp [parsed] at leave

theorem record_run_key (stream : β → Stream)
    (answers : ∀ file state, stream (answer file state) = file) {cut : Stream × τ → β}
    (cuts : ∀ s, stream (cut s) = s.1) (fuel : Nat) (s : Stream × τ) :
    (stream (Loop.run (recordRound codec fs next answer) cut fuel s)).key = s.1.key ∧
      (stream (Loop.run (recordRound codec fs next answer) cut fuel s)).isOpen = s.1.isOpen := by
  refine Loop.run_rule (fun t => t.1.key = s.1.key ∧ t.1.isOpen = s.1.isOpen)
    (fun b => (stream b).key = s.1.key ∧ (stream b).isOpen = s.1.isOpen) ?_ ?_ ?_ fuel ⟨rfl, rfl⟩
  · rintro t t' ⟨key, isOpen⟩ again
    obtain ⟨header, data, file, first, second⟩ := recordRound_again again
    obtain ⟨rfl, -⟩ := Stream.read_eq_some first
    obtain ⟨moved, -⟩ := Stream.read_eq_some second
    rw [moved]
    exact ⟨key, isOpen⟩
  · rintro t b ⟨key, isOpen⟩ leave
    obtain ⟨file, rfl, key', isOpen'⟩ := recordRound_leave leave
    rw [answers]
    exact ⟨key'.trans key, isOpen'.trans isOpen⟩
  · rintro t ⟨key, isOpen⟩
    rw [cuts]
    exact ⟨key, isOpen⟩

variable (codec fs) in
theorem recoveryLoop_key (fuel : Nat) (file : Stream) (pos : Option Nat) (acc : List Message) :
    (recoveryLoop codec fs fuel file pos acc).1.key = file.key ∧
      (recoveryLoop codec fs fuel file pos acc).1.isOpen = file.isOpen := by
  rw [recoveryLoop_eq_run]
  refine record_run_key Prod.fst ?_ ?_ fuel (file, pos, acc)
  · exact fun _ _ => rfl
  · exact fun _ => rfl

variable (codec fs) in
theorem statsLoop_key (fuel : Nat) (file : Stream) (total invalid : Nat) :
    (statsLoop codec fs fuel file total invalid).1.key = file.key ∧
      (statsLoop codec fs fuel file total invalid).1.isOpen = file.isOpen := by
  rw [statsLoop_eq_run]
  refine record_run_key Prod.fst ?_ ?_ fuel (file, total, invalid)
  · exact fun _ _ => rfl
  · exact fun _ => rfl

end Rounds

section Recovery

variable (q : QueueMessage) (fs : FileSystem)

theorem recovery_of_ready (ready : q.file.ready = true) :
    ∃ (file read : Stream) (messages : List Message),
      file.ready = true ∧ file.key = q.file.key ∧ file.pos = 0 ∧
      recoveryLoop codec fs ((fs.content q.file.key).length + 1) file (some file.pos) [] =
        (read, messages) ∧
      q.recovery codec fs = { q with
        msgs := q.msgs ++ MessagePtr.number q.pushed messages
        file := read
        pushed := q.pushed + messages.length } := by
  obtain ⟨isOpen, failbit, -⟩ := Stream.ready_iff.mp ready
  have start : q.file.seekgBeg = { q.file with pos := 0, eofbit := false } := by
    simp [Stream.seekgBeg, failbit]
  have ready₀ : Stream.ready { q.file with pos := 0, eofbit := false } = true := by
    simp [Stream.ready_iff, isOpen, failbit]
  rcases loop : recoveryLoop codec fs ((fs.content q.file.key).length + 1)
    { q.file with pos := 0, eofbit := false } (some 0) [] with ⟨read, messages⟩
  refine ⟨_, read, messages, ready₀, rfl, rfl, loop, ?_⟩
  rw [recovery, if_pos isOpen, start]
  simp only [tellg_of_ready ready₀, loop]

theorem recovery_msgs (ready : q.file.ready = true) :
    (q.recovery codec fs).msgs =
        q.msgs ++ MessagePtr.number q.pushed (loaded codec (fs.content q.file.key)) ∧
      (q.recovery codec fs).pushed =
        q.pushed + (loaded codec (fs.content q.file.key)).length := by
  obtain ⟨file, read, messages, ready', key, start, loop, result⟩ :=
    recovery_of_ready codec q fs ready
  have records := (recoveryLoop_eq_scan codec fs ((fs.content q.file.key).length + 1) ready' []
    (by simp [key, start])).1
  rw [key, loop, start, List.drop_zero, List.nil_append] at records
  obtain rfl : messages = loaded codec (fs.content q.file.key) := records
  rw [result]
  exact ⟨rfl, rfl⟩

/-- A file whose unread rest is no complete record leaves the stream failed. -/
theorem recovery_failbit (ready : q.file.ready = true)
    (stop : unframe? (scan codec.parseFromString ((fs.content q.file.key).length + 1) 0
      (fs.content q.file.key)).2 = none) :
    (q.recovery codec fs).file.failbit = true := by
  obtain ⟨file, read, messages, ready', key, start, loop, result⟩ :=
    recovery_of_ready codec q fs ready
  have records := (recoveryLoop_eq_scan codec fs ((fs.content q.file.key).length + 1) ready' []
    (by simp [key, start])).2
  rw [key, loop, start, List.drop_zero] at records
  rw [result]
  exact records stop

theorem recovery_appends :
    ∃ ms, (q.recovery codec fs).msgs = q.msgs ++ MessagePtr.number q.pushed ms ∧
      (q.recovery codec fs).pushed = q.pushed + ms.length := by
  unfold recovery
  split
  · exact ⟨_, rfl, rfl⟩
  · exact ⟨[], by simp⟩

variable {q} in
theorem Numbered.recovery (numbered : q.Numbered) : (q.recovery codec fs).Numbered := by
  obtain ⟨ms, msgs, pushed⟩ := recovery_appends codec q fs
  have addrs : (MessagePtr.number q.pushed ms).map MessagePtr.addr =
      List.range' q.pushed ms.length :=
    MessagePtr.number_map_addr q.pushed ms
  constructor
  · rw [msgs, List.map_append, addrs]
    refine List.pairwise_append.mpr ⟨numbered.1, List.pairwise_lt_range', ?_⟩
    intro a memberA b memberB
    obtain ⟨m, queued, rfl⟩ := List.mem_map.mp memberA
    exact Nat.lt_of_lt_of_le (numbered.2 m queued) (List.mem_range'_1.mp memberB).1
  · intro m member
    rw [msgs] at member
    rw [pushed]
    rcases List.mem_append.mp member with old | new
    · exact Nat.lt_of_lt_of_le (numbered.2 m old) (Nat.le_add_right _ _)
    · have inRange := List.mem_map_of_mem (f := MessagePtr.addr) new
      rw [addrs] at inRange
      exact (List.mem_range'_1.mp inRange).2

@[simp] theorem recovery_filePath : (q.recovery codec fs).filePath = q.filePath := by
  unfold recovery
  split <;> rfl

@[simp] theorem recovery_key : (q.recovery codec fs).file.key = q.file.key := by
  unfold recovery
  split
  · simp only
    rw [(recoveryLoop_key codec _ _ _ _ _).1]
    unfold Stream.seekgBeg
    split <;> rfl
  · rfl

@[simp] theorem recovery_isOpen : (q.recovery codec fs).file.isOpen = q.file.isOpen := by
  unfold recovery
  split
  · simp only
    rw [(recoveryLoop_key codec _ _ _ _ _).2]
    unfold Stream.seekgBeg
    split <;> rfl
  · rfl

end Recovery

end QueueMessage

end HzMq
