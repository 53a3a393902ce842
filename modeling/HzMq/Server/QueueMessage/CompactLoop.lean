import HzMq.Server.QueueMessage.FileEffects

/-!
# The copying loop of a compaction

The loop writes one frame for each message of the deque and never looks at the
stream. When the temporary file takes only so many bytes, one frame is cut and
those behind it are missing, but every message gets a new length and an offset,
which is -1 from the failed write on. With room for all of them this is the loop
as it should be.
-/

namespace HzMq

open FileStream FramedLog

namespace QueueMessage

section Within

variable (codec : Codec) (room : Nat)

/-- The copying loop of `compact` when the temporary file takes no more than `room` bytes. -/
def compactLoopWithin : Stream → FileSystem → Option Nat → List MessagePtr →
    List MessagePtr × Stream × FileSystem
  | tmp, fs, _, [] => ([], tmp, fs)
  | tmp, fs, pos, m :: ms =>
    let data := codec.serializeToString m.payload
    let len := data.length % 2 ^ 32
    let (tmp, fs) := tmp.writeUpTo room fs (le32 len)
    let (tmp, fs) := tmp.writeUpTo room fs data
    let moved : MessagePtr :=
      { m with msg := { m.msg with offset := offsetOfPos pos, length := 4 + len } }
    let (ms, tmp, fs) := compactLoopWithin tmp fs tmp.tellp ms
    (moved :: ms, tmp, fs)

variable {codec room}

/-- A file that the whole device is there for: this is `compact` itself. -/
theorem compactLoopWithin_capacity {fs : FileSystem} (same : fs.capacity = room) (tmp : Stream)
    (pos : Option Nat) (msgs : List MessagePtr) :
    compactLoopWithin codec room tmp fs pos msgs = compactLoop codec tmp fs pos msgs := by
  induction msgs generalizing tmp fs pos with
  | nil => rfl
  | cons m ms ih =>
    have same₁ (bytes : Bytes) : (tmp.write fs bytes).2.capacity = room :=
      (Stream.write_capacity tmp fs bytes).trans same
    have same₂ (bytes data : Bytes) :
        ((tmp.write fs bytes).1.write (tmp.write fs bytes).2 data).2.capacity = room :=
      (Stream.write_capacity _ _ data).trans (same₁ bytes)
    simp only [compactLoopWithin, compactLoop, Stream.writeUpTo_of_capacity same,
      Stream.writeUpTo_of_capacity (same₁ _), ih (same₂ _ _)]

end Within

section Cut

variable {room : Nat}

def payloadBytes (codec : Codec) (m : MessagePtr) : Bytes := codec.serializeToString m.payload

/-- What the loop makes of a message: after the first failed write there is no position. -/
def cutOff (limit : Nat) (e : Entry MessagePtr) : MessagePtr :=
  { e.value with
    msg := { e.value.msg with
      offset := if e.offset ≤ limit then e.offset else noOffset
      length := 4 + e.size } }

theorem take_append_take (xs ys : Bytes) (n : Nat) :
    (xs.take n ++ ys).take n = (xs ++ ys).take n := by
  have rest : n - min n xs.length = n - xs.length := by omega
  rw [List.take_append, List.take_append, List.take_take, Nat.min_self, List.length_take, rest]

theorem cut_frame {tmp : Stream} {fs : FileSystem} {limit offset : Nat}
    (within : min room fs.capacity = limit) (cut : Stream.Cut limit offset tmp fs)
    (data : Bytes) :
    let first := tmp.writeUpTo room fs (le32 data.length)
    let second := first.1.writeUpTo room first.2 data
    Stream.Cut limit (offset + 4 + data.length) second.1 second.2 ∧
      Stream.Confined tmp fs second.1 second.2 ∧
      second.2.content tmp.key = (fs.content tmp.key ++ frame data).take limit := by
  intro first second
  have confined₁ := Stream.writeUpTo_confined room tmp fs (le32 data.length)
  have confined₂ := Stream.writeUpTo_confined room first.1 first.2 data
  obtain ⟨cut₁, bytes₁⟩ := cut.write within (le32 data.length)
  obtain ⟨cut₂, bytes₂⟩ := cut₁.write (confined₁.capacity ▸ within) data
  refine ⟨cut₂, confined₁.trans confined₂, ?_⟩
  rw [confined₁.key, bytes₁, take_append_take, List.append_assoc] at bytes₂
  exact bytes₂

/-- The loop over the deque; the limit cuts one frame at most and drops those behind it. -/
theorem compactLoopWithin_cut (codec : Codec) {tmp : Stream} {fs : FileSystem} {limit offset : Nat}
    (within : min room fs.capacity = limit) (cut : Stream.Cut limit offset tmp fs)
    (msgs : List MessagePtr) :
    let result := compactLoopWithin codec room tmp fs tmp.tellp msgs
    result.1 = (layout (payloadBytes codec) offset msgs).map (cutOff limit) ∧
      Stream.Confined tmp fs result.2.1 result.2.2 ∧
      result.2.2.content tmp.key =
        (fs.content tmp.key ++ frames (msgs.map (payloadBytes codec))).take limit := by
  induction msgs generalizing tmp fs offset with
  | nil =>
    have short : (fs.content tmp.key).length ≤ limit := by
      rw [cut.length]
      exact Nat.min_le_right _ _
    exact ⟨rfl, .refl tmp fs, by simp [compactLoopWithin, List.take_of_length_le short]⟩
  | cons m ms ih =>
    have small := codec.size_lt_word m.payload
    have limited : limit < 2 ^ 64 := by
      have := fs.capacity_lt
      omega
    obtain ⟨cut', confined, bytes⟩ := cut_frame within cut (codec.serializeToString m.payload)
    obtain ⟨moved, others, tail⟩ := ih (confined.capacity ▸ within) cut'
    have place : offsetOfPos tmp.tellp = if offset ≤ limit then offset else noOffset := by
      rw [cut.tellp]
      split
      · exact Nat.mod_eq_of_lt (by omega)
      · rfl
    simp only [compactLoopWithin, Nat.mod_eq_of_lt small]
    refine ⟨?_, confined.trans others, ?_⟩
    · rw [moved, place]
      rfl
    · rw [confined.key, bytes, take_append_take, List.append_assoc] at tail
      exact tail

end Cut

section Ready

variable (codec : Codec)

def rebased (offset : Nat) : List MessagePtr → List MessagePtr
  | [] => []
  | m :: ms =>
    let size := (codec.serializeToString m.payload).length
    { m with msg := { m.msg with offset, length := 4 + size } } :: rebased (offset + 4 + size) ms

theorem rebased_eq_layout (offset : Nat) (msgs : List MessagePtr) :
    rebased codec offset msgs =
      (layout (payloadBytes codec) offset msgs).map fun e =>
        { e.value with msg := { e.value.msg with offset := e.offset, length := 4 + e.size } } := by
  induction msgs generalizing offset with
  | nil => rfl
  | cons m ms ih =>
    rw [rebased, ih]
    rfl

theorem compactLoop_ready (tmp : Stream) (fs : FileSystem) (ready : tmp.ready = true)
    (atEnd : tmp.pos = (fs.content tmp.key).length) (msgs : List MessagePtr)
    (room : (fs.content tmp.key).length +
      (frames (msgs.map fun m => codec.serializeToString m.payload)).length ≤ fs.capacity) :
    (compactLoop codec tmp fs (some tmp.pos) msgs).1 = rebased codec tmp.pos msgs ∧
      (compactLoop codec tmp fs (some tmp.pos) msgs).2.2.content tmp.key =
        fs.content tmp.key ++ frames (msgs.map fun m => codec.serializeToString m.payload) := by
  have before : tmp.pos ≤ fs.capacity := by omega
  have cut : Stream.Cut fs.capacity tmp.pos tmp fs :=
    ⟨by rw [← atEnd, Nat.min_eq_left before], by simp [before, ready]⟩
  obtain ⟨moved, -, bytes⟩ := compactLoopWithin_cut codec (Nat.min_self _) cut msgs
  rw [compactLoopWithin_capacity rfl, cut.tellp, if_pos before] at moved bytes
  constructor
  · rw [moved, rebased_eq_layout]
    refine List.map_congr_left ?_
    intro e member
    have inside := (layout_offset_bounds (payloadBytes codec) tmp.pos msgs member).2
    have fits : e.offset ≤ fs.capacity := by
      have whole : (frames (msgs.map (payloadBytes codec))).length + tmp.pos ≤ fs.capacity := by
        rw [atEnd, Nat.add_comm]
        exact room
      omega
    rw [cutOff, if_pos fits]
  · rw [bytes, List.take_of_length_le (by rw [List.length_append]; exact room)]
    rfl

end Ready

end QueueMessage

end HzMq
