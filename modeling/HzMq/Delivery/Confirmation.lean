import HzMq.Common.Wire
import HzMq.Delivery.ManualAck
import HzMq.Server.HostEffects
import HzMq.Server.VirtualHost.Files
import HzMq.Server.VirtualHost.Publish

/-!
# What a publisher is told

A publication is answered with yes as soon as its exchange exists. Whether some
queue took the message, and whether the durable ones among them have written it,
can be read off the state before: from the queues that accept it, from their
streams and from their files.
-/

namespace HzMq.Delivery

open FileStream FramedLog VirtualHost QueueMessage Persistence

def Appended (h h' : VirtualHost) (queueName : Bytes) (m : MessagePtr) : Prop :=
  h'.contents queueName = h.contents queueName ++ [m]

instance (h h' : VirtualHost) (queueName : Bytes) (m : MessagePtr) :
    Decidable (Appended h h' queueName m) := inferInstanceAs (Decidable (_ = _))

section Records

variable (codec : Codec) (h : VirtualHost) (props : Bytes → BasicProperties) (body : Bytes)

/-- The stream of the queue is on the file that has the queue's path. It is not when a
compaction of another queue has replaced that file. -/
def onOwnFile (queueName : Bytes) : Bool :=
  (h.queueMessages.lookup queueName).any fun store => store.file.key = fileKey h queueName

/-- What was written for the message is in the queue's file, and a recovery would load it. -/
def Recovered (queueName : Bytes) (m : MessagePtr) : Prop :=
  onOwnFile h queueName = true ∧
    m.msg ∈ (start codec h.fs h.baseDir queueName).1.msgs.map MessagePtr.msg

instance (queueName : Bytes) (m : MessagePtr) : Decidable (Recovered codec h queueName m) :=
  inferInstanceAs (Decidable (_ ∧ _ ∈ _))

def record (queueName : Bytes) : Bytes :=
  codec.serializeToString (marked (some (props queueName)) body)

def recordsFor (targets : List Bytes) (key : PathKey) : Bytes :=
  frames ((targets.filter fun name => h.isDurable name && fileKey h name == key).map
    (record codec props body))

/-- Nothing stands in the way of the message's record: the file of the queue can be opened,
its stream is on that file and has no error bit, what the file holds can be read to the end,
the record can be read back, and the device has room for all records that go to this file. -/
structure Storable (targets : List Bytes) (queueName : Bytes) : Prop where
  onOwnFile : onOwnFile h queueName = true
  openable : h.fs.openable (fileKey h queueName) = true
  ready : (h.queueMessages.lookup queueName).any (fun store => store.file.ready) = true
  whole : Whole codec.parseFromString (h.fs.content (fileKey h queueName))
  restored : codec.RoundTrips (marked (some (props queueName)) body)
  room : (h.fs.content (fileKey h queueName)).length +
    (recordsFor codec h props body targets (fileKey h queueName)).length ≤ h.fs.capacity

instance (targets : List Bytes) (queueName : Bytes) :
    Decidable (Storable codec h props body targets queueName) :=
  decidable_of_iff (_ ∧ _ ∧ _ ∧ _ ∧ _ ∧ _)
    ⟨fun ⟨own, openable, ready, whole, restored, room⟩ =>
        ⟨own, openable, ready, whole, restored, room⟩,
      fun storable => ⟨storable.onOwnFile, storable.openable, storable.ready, storable.whole,
        storable.restored, storable.room⟩⟩

def AllStorable (targets : List Bytes) : Prop :=
  ∀ queueName ∈ targets, h.isDurable queueName = true →
    Storable codec h props body targets queueName

instance (targets : List Bytes) : Decidable (AllStorable codec h props body targets) :=
  inferInstanceAs (Decidable (∀ _ ∈ _, _ → _))

end Records

section Deliver

variable {codec : Codec} {h : VirtualHost} {queueName : Bytes} {store : QueueMessage}
  {props : Bytes → BasicProperties} {body : Bytes} {targets : List Bytes}

theorem recovered_iff (m : MessagePtr) :
    Recovered codec h queueName m ↔ onOwnFile h queueName = true ∧
      h.fs.openable (fileKey h queueName) = true ∧
        m.msg ∈ loaded codec (h.fs.content (fileKey h queueName)) := by
  rw [Recovered, start_msgs, ← fileKey]
  refine and_congr_right fun _ => ?_
  split
  · next openable => simp [openable]
  · next closed => simp [closed]

theorem recordsFor_frame {h' : VirtualHost} (frame : Frame h h') (key : PathKey) :
    recordsFor codec h' props body targets key = recordsFor codec h props body targets key := by
  simp only [recordsFor, fileKey, isDurable, frame.queueMgr, frame.baseDir]

theorem recordsFor_cons_volatile (volatile : h.isDurable queueName = false) (key : PathKey) :
    recordsFor codec h props body (queueName :: targets) key =
      recordsFor codec h props body targets key := by
  simp [recordsFor, volatile]

theorem recordsFor_cons_durable (durable : h.isDurable queueName = true) (key : PathKey) :
    recordsFor codec h props body (queueName :: targets) key =
      (if fileKey h queueName = key then frame (record codec props body queueName) else []) ++
        recordsFor codec h props body targets key := by
  by_cases here : fileKey h queueName = key <;> simp [recordsFor, durable, here]

section Step

variable (found : h.queueMessages.lookup queueName = some store)
  (bp : Option BasicProperties)

theorem deliver_lookup {name : Bytes} (other : name ≠ queueName) :
    (h.deliver codec queueName store bp body).2.queueMessages.lookup name =
      h.queueMessages.lookup name := by
  simp [VirtualHost.deliver, lookup_withStore, other]

variable (codec h queueName store) in
theorem deliver_disk (body : Bytes) :
    (h.deliver codec queueName store bp body).2.fs.openable = h.fs.openable ∧
      (h.deliver codec queueName store bp body).2.fs.capacity = h.fs.capacity :=
  have confined := insert_confined codec store h.fs bp body (h.isDurable queueName)
  ⟨confined.openable, confined.capacity⟩

theorem deliver_volatile (volatile : h.isDurable queueName = false) :
    (h.deliver codec queueName store bp body).2.fs = h.fs := by
  simp [VirtualHost.deliver, VirtualHost.withStore, QueueMessage.insert, persist, volatile]

theorem deliver_not_ready (notReady : store.file.ready = false) :
    (h.deliver codec queueName store bp body).2.fs = h.fs := by
  simp only [VirtualHost.deliver, VirtualHost.withStore, QueueMessage.insert, persist]
  split
  · exact writePersistent_not_ready codec _ notReady
  · rfl

include found

theorem deliver_onOwnFile (name : Bytes) :
    onOwnFile (h.deliver codec queueName store bp body).2 name = onOwnFile h name := by
  by_cases own : name = queueName
  · subst own
    simp only [onOwnFile, VirtualHost.deliver, lookup_withStore, if_pos, found, Option.any_some]
    rw [(insert_confined codec store h.fs bp body (h.isDurable name)).key]
    rfl
  · rw [onOwnFile, deliver_lookup bp own]
    rfl

variable (own : onOwnFile h queueName = true)

include own

theorem stream_key : store.file.key = fileKey h queueName := by
  simpa [onOwnFile, found] using own

theorem deliver_other {key : PathKey} (other : key ≠ fileKey h queueName) :
    (h.deliver codec queueName store bp body).2.fs.content key = h.fs.content key := by
  rw [← stream_key found own] at other
  exact (insert_sameAt codec (fun _ => other) bp body _).content

theorem deliver_durable (durable : h.isDurable queueName = true) (ready : store.file.ready = true)
    (room : (h.fs.content (fileKey h queueName)).length +
      (frame (record codec props body queueName)).length ≤ h.fs.capacity) :
    (h.deliver codec queueName store (some (props queueName)) body).2.fs.content
        (fileKey h queueName) =
      h.fs.content (fileKey h queueName) ++ frame (record codec props body queueName) := by
  have key := stream_key found own
  have sameRecord : recordOf codec (makeMessage (some (props queueName)) body) =
    frame (record codec props body queueName) := rfl
  have wrote := (writePersistent_ready codec (makeMessage (some (props queueName)) body) ready
    (by rw [key]; exact room)).2.2.2
  rw [key, sameRecord] at wrote
  simpa only [VirtualHost.deliver, VirtualHost.withStore, QueueMessage.insert, persist, durable,
    if_true] using wrote

end Step

theorem Storable.room_head (storable : Storable codec h props body (queueName :: targets) queueName)
    (durable : h.isDurable queueName = true) :
    (h.fs.content (fileKey h queueName)).length +
      (frame (record codec props body queueName)).length ≤ h.fs.capacity := by
  have room := storable.room
  rw [recordsFor_cons_durable durable, if_pos rfl, List.length_append] at room
  omega

theorem storable_congr {h' : VirtualHost} {targets' : List Bytes} {name : Bytes}
    (frame : Frame h h') (openable : h'.fs.openable = h.fs.openable)
    (capacity : h'.fs.capacity = h.fs.capacity)
    (stores : h'.queueMessages.lookup name = h.queueMessages.lookup name)
    (whole : Whole codec.parseFromString (h'.fs.content (fileKey h name)) ↔
      Whole codec.parseFromString (h.fs.content (fileKey h name)))
    (size : (h'.fs.content (fileKey h name)).length +
        (recordsFor codec h props body targets' (fileKey h name)).length =
      (h.fs.content (fileKey h name)).length +
        (recordsFor codec h props body targets (fileKey h name)).length) :
    Storable codec h' props body targets' name ↔ Storable codec h props body targets name := by
  have sameKey : fileKey h' name = fileKey h name := by rw [fileKey, frame.baseDir, ← fileKey]
  have own : onOwnFile h' name = onOwnFile h name := by rw [onOwnFile, onOwnFile, stores, sameKey]
  constructor
  · intro storable
    have room := storable.room
    have readable := storable.whole
    have allowed := storable.openable
    have ready := storable.ready
    rw [sameKey, recordsFor_frame frame, size, capacity] at room
    rw [sameKey] at readable
    rw [sameKey, openable] at allowed
    rw [stores] at ready
    exact ⟨own ▸ storable.onOwnFile, allowed, ready, whole.mp readable, storable.restored, room⟩
  · intro storable
    refine ⟨?_, ?_, ?_, ?_, storable.restored, ?_⟩
    · rw [own]
      exact storable.onOwnFile
    · rw [sameKey, openable]
      exact storable.openable
    · rw [stores]
      exact storable.ready
    · rw [sameKey]
      exact whole.mpr storable.whole
    · rw [sameKey, recordsFor_frame frame, size, capacity]
      exact storable.room

theorem Storable.ready_of (storable : Storable codec h props body targets queueName)
    (found : h.queueMessages.lookup queueName = some store) : store.file.ready = true := by
  simpa [found] using storable.ready

section Transfer

variable (found : h.queueMessages.lookup queueName = some store) {name : Bytes}
  (other : name ≠ queueName)

include found other

theorem storable_volatile (volatile : h.isDurable queueName = false) :
    Storable codec (h.deliver codec queueName store (some (props queueName)) body).2 props body
        targets name ↔
      Storable codec h props body (queueName :: targets) name := by
  obtain ⟨openable, capacity⟩ := deliver_disk codec h queueName store (some (props queueName)) body
  refine storable_congr (Frame.delivers.deliver h queueName store _ body found) openable capacity
    (deliver_lookup _ other) ?_ ?_
  · rw [deliver_volatile _ volatile]
  · rw [deliver_volatile _ volatile, recordsFor_cons_volatile volatile]

theorem storable_durable (durable : h.isDurable queueName = true)
    (storable : Storable codec h props body (queueName :: targets) queueName) :
    Storable codec (h.deliver codec queueName store (some (props queueName)) body).2 props body
        targets name ↔
      Storable codec h props body (queueName :: targets) name := by
  obtain ⟨openable, capacity⟩ := deliver_disk codec h queueName store (some (props queueName)) body
  have wrote := deliver_durable found storable.onOwnFile durable (storable.ready_of found)
    (storable.room_head durable)
  refine storable_congr (Frame.delivers.deliver h queueName store _ body found) openable capacity
    (deliver_lookup _ other) ?_ ?_
  · by_cases shared : fileKey h queueName = fileKey h name
    · rw [← shared, wrote]
      have appended := storable.whole.append_frame (codec.size_lt_word _) storable.restored
      exact iff_of_true appended.1 storable.whole
    · rw [deliver_other found _ storable.onOwnFile (Ne.symm shared)]
  · rw [recordsFor_cons_durable durable]
    by_cases shared : fileKey h queueName = fileKey h name
    · rw [← shared, wrote, if_pos rfl]
      simp only [List.length_append]
      omega
    · rw [deliver_other found _ storable.onOwnFile (Ne.symm shared), if_neg shared,
        List.nil_append]

end Transfer

end Deliver

section Run

variable {codec : Codec} {props : Bytes → BasicProperties} {body : Bytes} {h h' : VirtualHost}
  {log : List (Bytes × MessagePtr)}

theorem deliveries_disk (run : Deliveries codec props body h log h') :
    h'.fs.openable = h.fs.openable ∧ h'.fs.capacity = h.fs.capacity := by
  induction run with
  | nil h => exact ⟨rfl, rfl⟩
  | seq n _ ih => exact ih
  | deliver found _ ih =>
    obtain ⟨openable, capacity⟩ := ih
    obtain ⟨openable', capacity'⟩ := deliver_disk _ _ _ _ _ _
    exact ⟨openable.trans openable', capacity.trans capacity'⟩

theorem deliveries_onOwnFile (run : Deliveries codec props body h log h') (name : Bytes) :
    onOwnFile h' name = onOwnFile h name := by
  induction run with
  | nil h => rfl
  | seq n _ ih => exact ih
  | deliver found _ ih => exact ih.trans (deliver_onOwnFile found _ name)

theorem allStorable_seq (n : Nat) (targets : List Bytes) :
    AllStorable codec { h with seq := n } props body targets ↔
      AllStorable codec h props body targets :=
  forall₂_congr fun _ _ => imp_congr_right fun _ =>
    storable_congr (Frame.seq h n) rfl rfl rfl Iff.rfl rfl

/-- The rest of a run can be judged by the host after the first delivery. -/
theorem allStorable_cons {queueName : Bytes} {store : QueueMessage} {targets : List Bytes}
    (found : h.queueMessages.lookup queueName = some store) (fresh : queueName ∉ targets) :
    AllStorable codec h props body (queueName :: targets) ↔
      (h.isDurable queueName = true →
        Storable codec h props body (queueName :: targets) queueName) ∧
      AllStorable codec (h.deliver codec queueName store (some (props queueName)) body).2 props body
        targets := by
  have sameFlag (name : Bytes) :
      (h.deliver codec queueName store (some (props queueName)) body).2.isDurable name =
        h.isDurable name := isDurable_congr rfl
  rw [AllStorable, List.forall_mem_cons]
  refine and_congr_right fun head => forall₂_congr ?_
  intro name member
  have other : name ≠ queueName := fun same => fresh (same ▸ member)
  rw [sameFlag]
  refine imp_congr_right ?_
  intro _
  cases durable : h.isDurable queueName with
  | false => exact (storable_volatile found other durable).symm
  | true => exact (storable_durable found other durable (head durable)).symm

/-- What a delivery does to the file, when the record of a durable queue can be stored. -/
theorem deliver_content {queueName : Bytes} {store : QueueMessage} {targets : List Bytes}
    (found : h.queueMessages.lookup queueName = some store)
    (head : h.isDurable queueName = true →
      Storable codec h props body (queueName :: targets) queueName) (key : PathKey) :
    (h.deliver codec queueName store (some (props queueName)) body).2.fs.content key ++
        recordsFor codec h props body targets key =
      h.fs.content key ++ recordsFor codec h props body (queueName :: targets) key := by
  cases durable : h.isDurable queueName with
  | false => rw [deliver_volatile _ durable, recordsFor_cons_volatile durable]
  | true =>
    have storable := head durable
    rw [recordsFor_cons_durable durable]
    by_cases here : fileKey h queueName = key
    · rw [if_pos here, ← here, deliver_durable found storable.onOwnFile durable
        (storable.ready_of found) (storable.room_head durable), List.append_assoc]
    · rw [if_neg here, List.nil_append, deliver_other found _ storable.onOwnFile (Ne.symm here)]

theorem deliveries_content (run : Deliveries codec props body h log h')
    (distinct : (log.map Prod.fst).Nodup)
    (storable : AllStorable codec h props body (log.map Prod.fst)) (key : PathKey) :
    h'.fs.content key =
      h.fs.content key ++ recordsFor codec h props body (log.map Prod.fst) key := by
  induction run with
  | nil h => simp [recordsFor]
  | seq n _ ih =>
    exact ih distinct ((allStorable_seq n _).mpr storable)
  | @deliver h h' log queueName store found run ih =>
    have frame : Frame h (h.deliver codec queueName store (some (props queueName)) body).2 :=
      Frame.delivers.deliver h queueName store _ body found
    obtain ⟨fresh, rest⟩ := List.nodup_cons.mp distinct
    obtain ⟨head, later⟩ := (allStorable_cons found fresh).mp storable
    rw [ih rest later, recordsFor_frame frame]
    exact deliver_content found head key

section Head

variable {queueName : Bytes} {store : QueueMessage} {targets : List Bytes}

theorem inserted_msg (durable : h.isDurable queueName = true) (isOpen : store.file.isOpen = true)
    (sound : store.file.failbit = false) (key : store.file.key = fileKey h queueName) :
    (inserted codec store h.fs (some (props queueName)) body (h.isDurable queueName)).msg =
      { payload := marked (some (props queueName)) body
        offset := (h.fs.content (fileKey h queueName)).length
        length := 4 + (record codec props body queueName).length } := by
  simp only [inserted, persist, durable, if_true, writePersistent_message codec _ isOpen sound, key,
    recordOf, frame_length]
  rfl

theorem sound_of_loaded (durable : h.isDurable queueName = true) {content : Bytes}
    (bound : content.length < noOffset)
    (found : (inserted codec store h.fs (some (props queueName)) body
      (h.isDurable queueName)).msg ∈ loaded codec content) :
    store.file.isOpen = true ∧ store.file.failbit = false := by
  obtain ⟨e, read, valid, same⟩ :=
    (mem_loaded_iff (Nat.lt_trans bound (by decide))).mp found
  simp only [inserted, persist, durable, if_true] at same
  have isOpen : store.file.isOpen = true := by
    by_contra closed
    simp only [writePersistent, closed, if_false] at same
    have unmarked : [] = e.value.valid := congrArg (fun m => m.payload.valid) same
    rw [← unmarked] at valid
    exact absurd valid (by decide)
  refine ⟨isOpen, ?_⟩
  by_contra failed
  obtain ⟨length, result, -⟩ := writePersistent_failed codec h.fs
    (makeMessage (some (props queueName)) body) isOpen (by simpa using failed)
  rw [result] at same
  have place : noOffset = e.offset := congrArg Message.offset same
  have inside := (scan_bounds codec.parseFromString _ 0 content read).2
  omega

theorem head_of_records {before : Bytes} {key : PathKey}
    (others : AllStorable codec h props body targets)
    (whole : Whole codec.parseFromString before) {e : Entry MessagePayload}
    (read : e ∈ readable codec (before ++ recordsFor codec h props body targets key))
    (here : e.offset = before.length) :
    ∃ name ∈ targets, e.value = marked (some (props name)) body := by
  unfold recordsFor at read
  cases names : targets.filter fun name => h.isDurable name && fileKey h name == key with
  | nil =>
    have inside := (scan_bounds codec.parseFromString _ 0 _ read).2
    simp only [names, List.map_nil, frames_nil, List.append_nil] at inside
    omega
  | cons name more =>
    rw [names, List.map_cons, frames_cons] at read
    have member : name ∈ targets.filter fun name => h.isDurable name && fileKey h name == key :=
      names ▸ List.mem_cons_self
    obtain ⟨target, selected⟩ := List.mem_filter.mp member
    have durable := (Bool.and_eq_true_iff.mp selected).1
    have parsed := whole.parse_of_mem (codec.size_lt_word _) (Nat.lt_succ_self _) read here
    have restored : codec.parseFromString (record codec props body name) = _ :=
      (others name target durable).restored
    exact ⟨name, target, Option.some.inj (parsed.symm.trans restored)⟩

/-- The record of a stored message is found by whoever reads the file later on. -/
theorem loaded_of_storable (storable : Storable codec h props body (queueName :: targets) queueName)
    (more : Bytes) :
    { payload := marked (some (props queueName)) body
      offset := (h.fs.content (fileKey h queueName)).length
      length := 4 + (record codec props body queueName).length } ∈
    loaded codec (h.fs.content (fileKey h queueName) ++ frame (record codec props body queueName) ++
      more) := by
  obtain ⟨-, last⟩ := storable.whole.append_frame (codec.size_lt_word _) storable.restored
  have kept := scan_mem_of_prefix codec.parseFromString last
    ((List.take_prefix _ _).trans (List.prefix_append _ more)) (Nat.lt_succ_self _)
  refine List.mem_map.mpr ⟨_, List.mem_filter.mpr ⟨kept, beq_self_eq_true _⟩, ?_⟩
  rw [messageOf, Nat.mod_eq_of_lt (h.fs.content_length_lt _)]
  rfl

theorem deliver_head (found : h.queueMessages.lookup queueName = some store)
    (own : onOwnFile h queueName = true) (durable : h.isDurable queueName = true)
    (room : (h.fs.content (fileKey h queueName)).length +
      (frame (record codec props body queueName)).length ≤ h.fs.capacity) :
    (h.deliver codec queueName store (some (props queueName)) body).2.fs.content
        (fileKey h queueName) =
      h.fs.content (fileKey h queueName) ++
        if store.file.ready then frame (record codec props body queueName) else [] := by
  cases ready : store.file.ready with
  | false => simp [deliver_not_ready _ ready]
  | true => exact deliver_durable found own durable ready room

/-- A record of the head is read only if the head wrote it: those of the others carry
other routing keys. -/
theorem ready_of_read (found : h.queueMessages.lookup queueName = some store)
    (named : ∀ name, (props name).routingKey = name) (fresh : queueName ∉ targets)
    (others : AllStorable codec
      (h.deliver codec queueName store (some (props queueName)) body).2 props body targets)
    (whole : Whole codec.parseFromString (h.fs.content (fileKey h queueName)))
    {e : Entry MessagePayload}
    (read : e ∈ readable codec (h.fs.content (fileKey h queueName) ++
      ((if store.file.ready then frame (record codec props body queueName) else []) ++
        recordsFor codec h props body targets (fileKey h queueName))))
    (here : e.offset = (h.fs.content (fileKey h queueName)).length)
    (value : e.value = marked (some (props queueName)) body) : store.file.ready = true := by
  by_contra notReady
  have frame : Frame h (h.deliver codec queueName store (some (props queueName)) body).2 :=
    Frame.delivers.deliver h queueName store _ body found
  rw [if_neg notReady, List.nil_append, ← recordsFor_frame frame] at read
  obtain ⟨name, target, written⟩ := head_of_records others whole read here
  have sameKey : (props queueName).routingKey = (props name).routingKey :=
    congrArg (fun p : MessagePayload => (p.properties?.getD {}).routingKey)
      (value.symm.trans written)
  rw [named, named] at sameKey
  exact fresh (sameKey ▸ target)

theorem recovered_head_iff (found : h.queueMessages.lookup queueName = some store)
    (sameOwn : onOwnFile h' queueName = onOwnFile h queueName)
    (durable : h.isDurable queueName = true)
    (named : ∀ name, (props name).routingKey = name) (fresh : queueName ∉ targets)
    (others : AllStorable codec
      (h.deliver codec queueName store (some (props queueName)) body).2 props body targets)
    (openable : h'.fs.openable = h.fs.openable) (capacity : h'.fs.capacity = h.fs.capacity)
    (baseDir : h'.baseDir = h.baseDir)
    (content : h'.fs.content (fileKey h queueName) =
      (h.deliver codec queueName store (some (props queueName)) body).2.fs.content
        (fileKey h queueName) ++ recordsFor codec h props body targets (fileKey h queueName)) :
    Recovered codec h' queueName (inserted codec store h.fs (some (props queueName)) body
        (h.isDurable queueName)) ↔
      Storable codec h props body (queueName :: targets) queueName := by
  have sameKey : fileKey h' queueName = fileKey h queueName := by rw [fileKey, baseDir, ← fileKey]
  rw [recovered_iff, sameKey, openable, sameOwn]
  constructor
  · rintro ⟨own, allowed, member⟩
    obtain ⟨isOpen, sound⟩ := sound_of_loaded durable (content_length_lt_noOffset _ _) member
    have key := stream_key found own
    obtain ⟨e, read, -, same⟩ := (mem_loaded_iff (h'.fs.content_length_lt _)).mp member
    rw [inserted_msg durable isOpen sound key, Message.mk.injEq] at same
    obtain ⟨value, here, size⟩ := same
    have inside := (scan_bounds codec.parseFromString _ 0 _ read).2
    have limit := h'.fs.content_length_le (fileKey h queueName)
    have roomHere : (h.fs.content (fileKey h queueName)).length +
        (frame (record codec props body queueName)).length ≤ h.fs.capacity := by
      rw [frame_length, here, size, ← capacity]
      omega
    rw [deliver_head found own durable roomHere, List.append_assoc] at content
    rw [readable, content] at read
    have whole := whole_of_mem read here.symm (by rw [List.length_append]; omega)
    have ready := ready_of_read found named fresh others whole read here.symm value.symm
    rw [if_pos ready] at read
    rw [content, if_pos ready, capacity] at limit
    refine ⟨own, allowed, by simp [found, ready], whole, ?_, ?_⟩
    · have parsed := whole.parse_of_mem (codec.size_lt_word _) (Nat.lt_succ_self _) read here.symm
      rw [Codec.RoundTrips, value]
      exact value ▸ parsed
    · rw [recordsFor_cons_durable durable, if_pos rfl, ← List.length_append]
      exact limit
  · intro storable
    have ready := storable.ready_of found
    obtain ⟨isOpen, sound, -⟩ := Stream.ready_iff.mp ready
    have own := storable.onOwnFile
    rw [inserted_msg durable isOpen sound (stream_key found own), content,
      deliver_durable found own durable ready (storable.room_head durable)]
    exact ⟨own, storable.openable, loaded_of_storable storable _⟩

end Head

/-- A publication is recovered in all durable queues that took it exactly when each of them
can store it. -/
theorem recovered_iff_storable (run : Deliveries codec props body h log h')
    (distinct : (log.map Prod.fst).Nodup) (named : ∀ name, (props name).routingKey = name) :
    (∀ e ∈ log, h.isDurable e.1 = true → Recovered codec h' e.1 e.2) ↔
      AllStorable codec h props body (log.map Prod.fst) := by
  induction run with
  | nil h => simp [AllStorable]
  | @seq h h' log n run ih =>
    exact (ih distinct).trans (allStorable_seq n _)
  | @deliver h h' log queueName store found run ih =>
    have frame : Frame h (h.deliver codec queueName store (some (props queueName)) body).2 :=
      Frame.delivers.deliver h queueName store _ body found
    obtain ⟨fresh, rest⟩ := List.nodup_cons.mp distinct
    obtain ⟨openable, capacity⟩ := deliveries_disk (.deliver found run)
    rw [List.map_cons, allStorable_cons found fresh, List.forall_mem_cons]
    have later : (∀ e ∈ log, h.isDurable e.1 = true → Recovered codec h' e.1 e.2) ↔ _ := ih rest
    rw [later]
    refine and_congr_left fun others => imp_congr_right ?_
    intro durable
    refine recovered_head_iff found (deliveries_onOwnFile (.deliver found run) queueName) durable
      named fresh others openable capacity (frame.trans run.frame).baseDir ?_
    rw [deliveries_content run rest others, recordsFor_frame frame]

end Run

/-- A truthful answer to a publication: yes exactly when some queue took the message and
every durable queue that took it would recover it. -/
def TruthfulConfirmation (codec : Codec) (s : BrokerServer) (result : Bool × BrokerServer) : Prop :=
  result.1 = true ↔
    (∃ queueName m, Appended s.host result.2.host queueName m) ∧
      ∀ queueName m, Appended s.host result.2.host queueName m →
        s.host.isDurable queueName = true → Recovered codec result.2.host queueName m

theorem appended_iff {h h' : VirtualHost} {log : List (Bytes × MessagePtr)}
    (appends : Appends h h' log) (distinct : (log.map Prod.fst).Nodup) (queueName : Bytes)
    (m : MessagePtr) : Appended h h' queueName m ↔ (queueName, m) ∈ log := by
  constructor
  · intro appended
    by_cases logged : queueName ∈ log.map Prod.fst
    · obtain ⟨e, inLog, rfl⟩ := List.mem_map.mp logged
      rw [Appended, appends.contents_of_mem distinct inLog] at appended
      obtain rfl : e.2 = m := by simpa using appended
      exact inLog
    · rw [Appended, appends.contents_of_not_mem logged] at appended
      simpa using congrArg List.length appended
  · intro inLog
    exact appends.contents_of_mem distinct inLog

/-- The answer to a publication is truthful exactly when some queue takes it and every durable
queue that takes it can store its record. -/
theorem confirmation_truthful_iff (codec : Codec)
    (matchHeaders : StrMap Bytes → StrMap Bytes → Bool) {s : BrokerServer}
    (reached : s.Reachable codec matchHeaders) (ch : ChannelRef) (visit tasks : Visit Binding)
    {exchangeName : Bytes} {exchange : Exchange}
    (found : s.host.selectExchange exchangeName = some exchange)
    (properties : Option BasicProperties) (body : Bytes) :
    TruthfulConfirmation codec s
        (s.basicPublish codec matchHeaders ch visit tasks exchangeName properties body) ↔
      takers matchHeaders visit s.host exchangeName properties ≠ [] ∧
        AllStorable codec s.host (s.host.stamped properties) body
          (takers matchHeaders visit s.host exchangeName properties) := by
  have onHost := BrokerServer.Reachable.host reached
  have ok := VirtualHost.Reachable.wellFormed onHost
  obtain ⟨log, run, names, -⟩ :=
    publishToExchange_deliveries codec matchHeaders ok visit exchangeName properties body
  have distinct : (log.map Prod.fst).Nodup := names ▸ takers_nodup matchHeaders visit s.host _ _
  have answer : (s.basicPublish codec matchHeaders ch visit tasks exchangeName properties
      body).1 = true := by simp [BrokerServer.basicPublish, found]
  rw [TruthfulConfirmation, answer, BrokerServer.basicPublish_host]
  simp only [true_iff, appended_iff run.appends distinct]
  rw [← names, ← recovered_iff_storable run distinct fun _ => rfl]
  refine and_congr ⟨?_, ?_⟩ ⟨fun all e => all e.1 e.2, fun all name m => all (name, m)⟩
  · rintro ⟨name, m, inLog⟩
    exact List.ne_nil_of_mem (List.mem_map_of_mem inLog)
  · intro taken
    obtain ⟨e, inLog⟩ := List.exists_mem_of_ne_nil log fun empty => taken (by rw [empty]; rfl)
    exact ⟨e.1, e.2, inLog⟩

def durableBroker (ops : List ServerOp) : BrokerServer :=
  Machine.exec (ServerOp.apply Wire.codec fun _ _ => false) (.new .blank)
    (.newConnection 0 :: .openChannel 0 (str "r1") (str "c") ::
      .request 0 (str "r2") (str "c") (.declareQueue (str "q") true false false ∅) :: ops)

theorem durableBroker_reachable (ops : List ServerOp) :
    (durableBroker ops).Reachable Wire.codec fun _ _ => false :=
  .exec (.start ⟨.blank, blank_initial, rfl⟩) _

/-- Once its statistics were asked for, the queue stores what it is sent. -/
theorem confirmation_truthful_example :
    TruthfulConfirmation Wire.codec (durableBroker [.queueRuntimeStats (str "q")])
      ((durableBroker [.queueRuntimeStats (str "q")]).basicPublish Wire.codec (fun _ _ => false)
        ⟨0, str "c"⟩ .stored .stored [] (some { routingKey := str "q" }) (str "x")) :=
  (confirmation_truthful_iff Wire.codec (fun _ _ => false) (durableBroker_reachable _) ⟨0, str "c"⟩
    .stored .stored (show _ = some ⟨[], .direct, false, false, ∅⟩ from rfl) _ _).mpr
      (by decide +kernel)

/-- The first message to a new durable queue is confirmed and is not in its file. -/
theorem confirmation_not_truthful :
    (durableBroker []).Reachable Wire.codec (fun _ _ => false) ∧
      ((durableBroker []).host.selectExchange []).isSome ∧
      ¬ TruthfulConfirmation Wire.codec (durableBroker [])
        ((durableBroker []).basicPublish Wire.codec (fun _ _ => false) ⟨0, str "c"⟩ .stored .stored
          [] (some { routingKey := str "q" }) (str "x")) := by
  refine ⟨durableBroker_reachable _, by decide +kernel, ?_⟩
  intro truthful
  let after := ((durableBroker []).basicPublish Wire.codec (fun _ _ => false) ⟨0, str "c"⟩
    .stored .stored [] (some { routingKey := str "q" }) (str "x")).2.host
  have lost : ∀ m ∈ after.contents (str "q"),
      Appended (durableBroker []).host after (str "q") m ∧
        ¬ Recovered Wire.codec after (str "q") m := by decide +kernel
  obtain ⟨m, queued⟩ := List.exists_mem_of_ne_nil (after.contents (str "q")) (by decide +kernel)
  obtain ⟨appended, missing⟩ := lost m queued
  exact missing ((truthful.mp rfl).2 (str "q") m appended (by decide +kernel))

end HzMq.Delivery
