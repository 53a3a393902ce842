import HzMq.Server.QueueMessage.FileEffects

/-!
# The deque is backed by the log

The invariant that links one queue's deque to its file. The file is a sequence
of records, `slots`, and whatever follows them, `tail`. The messages of the
deque that are marked valid and have a position are, in order, the records
marked valid, each with the offset and the length of its own record. Messages
that were never written take no part in it.
-/

namespace HzMq.Persistence

open FileStream FramedLog QueueMessage

/-- A record of the file, and the object in memory it belongs to if it is valid. -/
structure Slot where
  owner : Nat
  payload : MessagePayload
  deriving DecidableEq

def pointer (e : Entry Slot) : MessagePtr :=
  ⟨e.value.owner, { payload := e.value.payload, offset := e.offset, length := 4 + e.size }⟩

def live (e : Entry Slot) : Bool := e.value.payload.valid == validMark

def tracked (m : MessagePtr) : Bool := m.payload.valid == validMark && m.msg.offset != noOffset

section Codec

variable (codec : Codec)

def Slot.record (s : Slot) : Bytes := codec.serializeToString s.payload

def records (slots : List Slot) : Bytes := frames (slots.map (Slot.record codec))

def placed (slots : List Slot) : List (Entry Slot) := layout (Slot.record codec) 0 slots

def Restores (p : MessagePayload) : Prop :=
  codec.RoundTrips p ∧ codec.RoundTrips (p.setValid invalidMark)

instance (p : MessagePayload) : Decidable (Restores codec p) :=
  inferInstanceAs (Decidable (_ ∧ _))

structure Logged (content : Bytes) (slots : List Slot) (tail : Bytes) : Prop where
  content_eq : content = records codec slots ++ tail
  restores : ∀ s ∈ slots, Restores codec s.payload

structure Backed (msgs : List MessagePtr) (content : Bytes) (slots : List Slot)
    (tail : Bytes) : Prop extends Logged codec content slots tail where
  tracked_eq : msgs.filter tracked = ((placed codec slots).filter live).map pointer

variable {codec}

@[simp] theorem records_append (first last : List Slot) :
    records codec (first ++ last) = records codec first ++ records codec last := by
  simp [records]

@[simp] theorem records_cons (s : Slot) (slots : List Slot) :
    records codec (s :: slots) = frame (s.record codec) ++ records codec slots := rfl

@[simp] theorem records_nil : records codec [] = [] := rfl

theorem Restores.invalidated {p : MessagePayload} (h : Restores codec p) :
    Restores codec (p.setValid invalidMark) := ⟨h.2, h.2⟩

theorem placed_append (first last : List Slot) :
    placed codec (first ++ last) =
      placed codec first ++ layout (Slot.record codec) (records codec first).length last := by
  simp only [placed, records, layout_append, Nat.zero_add]

theorem placed_bounds {slots : List Slot} {e : Entry Slot} (member : e ∈ placed codec slots) :
    e.offset + 4 + e.size ≤ (records codec slots).length := by
  have := (layout_offset_bounds (Slot.record codec) 0 slots member).2
  simpa [records] using this

namespace Logged

variable {content tail : Bytes} {slots : List Slot}

theorem records_length_le (logged : Logged codec content slots tail) :
    (records codec slots).length ≤ content.length := by
  rw [logged.content_eq]
  simp

/-- The reader gets through all records and stops in front of the tail. -/
theorem scan_eq (logged : Logged codec content slots tail) (stop : unframe? tail = none) :
    scan codec.parseFromString (content.length + 1) 0 content =
      (layout codec.serializeToString 0 (slots.map Slot.payload), tail) := by
  have enough : (slots.map Slot.payload).length ≤ content.length + 1 := by
    have := frames_length_ge (slots.map (Slot.record codec))
    have inside := logged.records_length_le
    simp only [records, List.length_map] at this inside ⊢
    omega
  have bytes : content = frames ((slots.map Slot.payload).map codec.serializeToString) ++ tail := by
    rw [logged.content_eq, records, List.map_map]
    rfl
  nth_rewrite 2 [bytes]
  exact scan_frames codec.parseFromString codec.serializeToString 0
    (slots.map Slot.payload) tail stop (fun p _ => codec.size_lt_word p)
    (fun p member => by
      obtain ⟨s, inSlots, rfl⟩ := List.mem_map.mp member
      exact (logged.restores s inSlots).1) (content.length + 1) enough

theorem loaded_eq (logged : Logged codec content slots tail) (stop : unframe? tail = none)
    (bound : content.length < 2 ^ 64) :
    loaded codec content =
      ((placed codec slots).filter live).map fun e => (pointer e).msg := by
  rw [loaded, readable, logged.scan_eq stop]
  rw [layout_map, List.filter_map, List.map_map]
  apply List.map_congr_left
  intro e member
  have inPlaced := (List.mem_filter.mp member).1
  have bounds := placed_bounds inPlaced
  have inside := logged.records_length_le
  have offset : e.offset % 2 ^ 64 = e.offset := Nat.mod_eq_of_lt (by omega)
  simp only [Function.comp_apply, messageOf, pointer, offset]

theorem valid_payloads (logged : Logged codec content slots tail) (stop : unframe? tail = none)
    (bound : content.length < 2 ^ 64) :
    (loaded codec content).map Message.payload =
      (slots.map Slot.payload).filter fun p => p.valid == validMark := by
  have values := layout_values (Slot.record codec) 0 slots
  rw [logged.loaded_eq stop bound, List.map_map]
  nth_rewrite 2 [← values]
  rw [List.map_map, List.filter_map]
  rfl

theorem tracked_of_loaded (logged : Logged codec content slots tail)
    (stop : unframe? tail = none) (bound : content.length < noOffset) {m : MessagePtr}
    (member : m.msg ∈ loaded codec content) : tracked m = true := by
  rw [logged.loaded_eq stop (Nat.lt_of_lt_of_le bound (by decide))] at member
  obtain ⟨e, inPlaced, msgEq⟩ := List.mem_map.mp member
  obtain ⟨inPlaced, isLive⟩ := List.mem_filter.mp inPlaced
  have bounds := placed_bounds inPlaced
  have inside := logged.records_length_le
  have positioned : e.offset ≠ noOffset := by omega
  simpa [tracked, MessagePtr.payload, ← msgEq, pointer, positioned, live] using isLive

end Logged

namespace Backed

variable {msgs : List MessagePtr} {content tail : Bytes} {slots : List Slot}

theorem empty : Backed codec [] [] [] [] := ⟨⟨rfl, by simp⟩, rfl⟩

/-- A message that was not written joins the deque; the file stays. -/
theorem append_untracked (backed : Backed codec msgs content slots tail) {m : MessagePtr}
    (untracked : tracked m = false) : Backed codec (msgs ++ [m]) content slots tail where
  content_eq := backed.content_eq
  tracked_eq := by simpa [untracked] using backed.tracked_eq
  restores := backed.restores

/-- Such a message leaves the deque; the file stays. -/
theorem drop_untracked {before after : List MessagePtr} {m : MessagePtr}
    (backed : Backed codec (before ++ m :: after) content slots tail)
    (untracked : tracked m = false) : Backed codec (before ++ after) content slots tail where
  content_eq := backed.content_eq
  tracked_eq := by simpa [untracked] using backed.tracked_eq
  restores := backed.restores

/-- A message joins the deque together with its record at the end of the file. -/
theorem append_record (backed : Backed codec msgs content slots []) (owner : Nat)
    {p : MessagePayload} (valid : p.valid = validMark) (restores : Restores codec p)
    (bound : content.length < noOffset) :
    Backed codec
      (msgs ++ [⟨owner, { payload := p, offset := content.length
                          length := (frame (codec.serializeToString p)).length }⟩])
      (content ++ frame (codec.serializeToString p)) (slots ++ [⟨owner, p⟩]) [] := by
  have placedAtEnd : content.length = (records codec slots).length := by
    rw [backed.content_eq, List.append_nil]
  have isTracked : tracked ⟨owner, { payload := p, offset := content.length
                                     length := (frame (codec.serializeToString p)).length }⟩ =
      true := by
    have positioned : content.length ≠ noOffset := Nat.ne_of_lt bound
    simp [tracked, MessagePtr.payload, valid, positioned]
  refine ⟨⟨?_, ?_⟩, ?_⟩
  · rw [backed.content_eq]
    simp [records, Slot.record]
  · intro s member
    rcases List.mem_append.mp member with old | new
    · exact backed.restores s old
    · rw [List.mem_singleton.mp new]
      exact restores
  · rw [List.filter_append, backed.tracked_eq, placed_append, List.filter_append, List.map_append]
    simp only [List.filter_cons_of_pos isTracked, List.filter_nil, layout_cons, layout_nil]
    simp [live, valid, pointer, placedAtEnd, Slot.record]

theorem find_record {before after : List MessagePtr} {m : MessagePtr}
    (backed : Backed codec (before ++ m :: after) content slots tail)
    (isTracked : tracked m = true) :
    ∃ first s last, slots = first ++ s :: last ∧
      m = pointer ⟨(records codec first).length, (s.record codec).length, s⟩ ∧
      before.filter tracked = ((placed codec first).filter live).map pointer ∧
      after.filter tracked =
        ((layout (Slot.record codec) ((records codec first).length + 4 + (s.record codec).length)
          last).filter live).map pointer := by
  have kept := backed.tracked_eq
  rw [List.filter_append, List.filter_cons_of_pos isTracked] at kept
  -- cut the list of live entries where the message stands, and the records with it
  obtain ⟨liveBefore, liveRest, liveCut, beforeEq, restEq⟩ := List.map_eq_append_iff.mp kept.symm
  obtain ⟨e, liveAfter, restCut, pointerEq, afterEq⟩ := List.map_eq_cons_iff.mp restEq
  subst restCut
  obtain ⟨entriesBefore, entriesRest, entriesCut, filterBefore, filterRest⟩ :=
    List.filter_eq_append_iff.mp liveCut
  obtain ⟨dead, entriesAfter, restEq', noneLive, eLive, filterAfter⟩ :=
    List.filter_eq_cons_iff.mp filterRest
  rw [restEq', ← List.append_assoc] at entriesCut
  obtain ⟨first, s, last, rfl, firstEq, entryEq, lastEq⟩ := layout_eq_append entriesCut
  have deadNone : dead.filter live = [] := by
    rw [List.filter_eq_nil_iff]
    exact noneLive
  simp only [Nat.zero_add] at entryEq
  refine ⟨first, s, last, rfl, ?_, ?_, ?_⟩
  · rw [← pointerEq, entryEq]
    rfl
  · rw [← beforeEq, ← filterBefore, placed, ← firstEq, List.filter_append, deadNone,
      List.append_nil]
  · rw [← afterEq, ← filterAfter, lastEq, entryEq]
    rfl

theorem restores_of_tracked (backed : Backed codec msgs content slots tail) {m : MessagePtr}
    (queued : m ∈ msgs) (isTracked : tracked m = true) : Restores codec m.payload := by
  have kept : m ∈ msgs.filter tracked := List.mem_filter.mpr ⟨queued, isTracked⟩
  rw [backed.tracked_eq] at kept
  obtain ⟨e, isLive, rfl⟩ := List.mem_map.mp kept
  have value := List.mem_map_of_mem (f := Entry.value) (List.mem_filter.mp isLive).1
  rw [placed, layout_values] at value
  exact backed.restores e.value value

/-- A message leaves the deque while its record is marked invalid in place. -/
theorem invalidate {before after : List MessagePtr} {m : MessagePtr}
    (backed : Backed codec (before ++ m :: after) content slots tail)
    (isTracked : tracked m = true) :
    ∃ first s last, slots = first ++ s :: last ∧ s.owner = m.addr ∧ s.payload = m.payload ∧
      content = records codec first ++ frame (s.record codec) ++ (records codec last ++ tail) ∧
      m.msg.offset = (records codec first).length ∧ m.msg.length ≠ 0 ∧
      Backed codec (before ++ after)
        (records codec first ++ frame (codec.serializeToString (m.payload.setValid invalidMark)) ++
          (records codec last ++ tail))
        (first ++ ⟨s.owner, m.payload.setValid invalidMark⟩ :: last) tail := by
  obtain ⟨first, s, last, rfl, rfl, beforeEq, afterEq⟩ := backed.find_record isTracked
  have isValid : s.payload.valid = validMark := by
    simp only [tracked, pointer, MessagePtr.payload, Bool.and_eq_true, beq_iff_eq] at isTracked
    exact isTracked.1
  have sameSize : (codec.serializeToString (s.payload.setValid invalidMark)).length =
      (s.record codec).length := by
    rw [codec.length_setValid, MessagePayload.setValid_of_valid isValid]
    rfl
  refine ⟨first, s, last, rfl, rfl, rfl, ?_, rfl, by simp [pointer], ⟨?_, ?_⟩, ?_⟩
  · rw [backed.content_eq]
    simp [records]
  · simp [Slot.record, pointer, MessagePtr.payload]
  · intro slot member
    rcases List.mem_append.mp member with inFirst | inRest
    · exact backed.restores slot (by simp [inFirst])
    · rcases List.mem_cons.mp inRest with rfl | inLast
      · exact (backed.restores s (by simp)).invalidated
      · exact backed.restores slot (by simp [inLast])
  · have deadEntry : live ⟨(records codec first).length, (s.record codec).length,
        ⟨s.owner, s.payload.setValid invalidMark⟩⟩ = false := by
      simp [live, validMark_ne_invalidMark.symm]
    rw [List.filter_append, beforeEq, afterEq, placed_append, List.filter_append, List.map_append,
      layout_cons]
    simp only [pointer, MessagePtr.payload, Slot.record, sameSize] at deadEntry ⊢
    rw [List.filter_cons_of_neg (by simpa using deadEntry)]

end Backed

/-- Give the live records the numbers that recovery gives to the messages it loads. -/
def relabel : Nat → List Slot → List Slot
  | _, [] => []
  | addr, s :: slots =>
    ⟨addr, s.payload⟩ :: relabel (if s.payload.valid = validMark then addr + 1 else addr) slots

theorem relabel_payloads (addr : Nat) (slots : List Slot) :
    (relabel addr slots).map Slot.payload = slots.map Slot.payload := by
  induction slots generalizing addr with
  | nil => rfl
  | cons s slots ih => simp [relabel, ih]

theorem relabel_records (addr : Nat) (slots : List Slot) :
    records codec (relabel addr slots) = records codec slots := by
  have same : ∀ ss : List Slot, records codec ss =
      frames ((ss.map Slot.payload).map codec.serializeToString) := by
    intro ss
    rw [records, List.map_map]
    rfl
  rw [same, same, relabel_payloads]

theorem relabel_pointers (codec : Codec) (addr offset : Nat) (slots : List Slot) :
    ((layout (Slot.record codec) offset (relabel addr slots)).filter live).map pointer =
      MessagePtr.number addr
        (((layout (Slot.record codec) offset slots).filter live).map fun e => (pointer e).msg) := by
  induction slots generalizing addr offset with
  | nil => rfl
  | cons s slots ih =>
    by_cases valid : s.payload.valid = validMark
    · have isLive : ∀ (offset size owner : Nat),
          live ⟨offset, size, ⟨owner, s.payload⟩⟩ = true := by
        simp [live, valid]
      simp only [relabel, if_pos valid, layout_cons]
      rw [List.filter_cons_of_pos (isLive _ _ _), List.filter_cons_of_pos (isLive _ _ s.owner),
        List.map_cons, List.map_cons, MessagePtr.number_cons, ← ih]
      rfl
    · have isDead : ∀ (offset size owner : Nat),
          ¬ live ⟨offset, size, ⟨owner, s.payload⟩⟩ = true := by
        simp [live, valid]
      simp only [relabel, if_neg valid, layout_cons]
      rw [List.filter_cons_of_neg (isDead _ _ _),
        List.filter_cons_of_neg (isDead _ _ s.owner), ← ih]
      rfl

/-- Recovery of a fresh object establishes the invariant for the deque it builds. -/
theorem Logged.recovered {content tail : Bytes} {slots : List Slot}
    (logged : Logged codec content slots tail) (stop : unframe? tail = none)
    (bound : content.length < noOffset) (addr : Nat) :
    Backed codec (MessagePtr.number addr (loaded codec content)) content (relabel addr slots)
      tail := by
  have pointers := relabel_pointers codec addr 0 slots
  rw [← placed, ← placed, ← logged.loaded_eq stop (Nat.lt_of_lt_of_le bound (by decide))]
    at pointers
  refine ⟨⟨?_, ?_⟩, ?_⟩
  · rw [relabel_records]
    exact logged.content_eq
  · intro s member
    have inPayloads : s.payload ∈ slots.map Slot.payload := by
      rw [← relabel_payloads addr slots]
      exact List.mem_map_of_mem member
    obtain ⟨original, inSlots, same⟩ := List.mem_map.mp inPayloads
    rw [← same]
    exact logged.restores original inSlots
  · rw [← pointers, List.filter_eq_self, pointers]
    intro m member
    exact logged.tracked_of_loaded stop bound (MessagePtr.mem_number member)

end Codec

end HzMq.Persistence
