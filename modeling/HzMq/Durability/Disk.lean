import HzMq.Durability.Model
import HzMq.Persistence.Synced
import HzMq.Topology.Isolation

/-!
# How the queues stand with their files

For each name the file says what a durable declaration would start with: for a durable
queue the letters that it holds, for any other name what the file was left with. What
an operation does to one queue is followed through the publications, which are made of
deliveries, and through removals.
-/

namespace HzMq.Durability

open FileStream FramedLog VirtualHost QueueMessage Persistence Delivery HzMq.Topology

/-- Different names have different files, and the temporary file of one is not the file of
another. -/
def Apart (names : List Bytes) (baseDir : Bytes) : Prop :=
  ∀ a ∈ names, ∀ b ∈ names, a ≠ b → resolve (path baseDir a) ≠ resolve (path baseDir b) ∧
    resolve (path baseDir a ++ str ".tmp") ≠ resolve (path baseDir b)

instance (names : List Bytes) (baseDir : Bytes) : Decidable (Apart names baseDir) :=
  inferInstanceAs (Decidable (∀ a ∈ names, ∀ b ∈ names, _ → _ ∧ _))

structure Housed (names : List Bytes) (h : VirtualHost) : Prop where
  ok : WellFormed h
  placed : Placed Own h
  apart : Apart names h.baseDir
  named : ∀ queueName, (h.queueMessages.lookup queueName).isSome → queueName ∈ names
  openable : ∀ queueName ∈ names, h.fs.openable (fileKey h queueName) = true

variable (codec : Codec)

inductive Saved (h : VirtualHost) (queueName : Bytes) : Prop
  | undeclared : h.queueMessages.lookup queueName = none →
      Intact codec (h.fs.content (fileKey h queueName)) → Saved h queueName
  | volatile {store : QueueMessage} : h.queueMessages.lookup queueName = some store →
      h.isDurable queueName = false → (∀ m ∈ store.msgs, m.msg.length = 0) →
      Intact codec (h.fs.content (fileKey h queueName)) → Saved h queueName
  | durable {store : QueueMessage} : h.queueMessages.lookup queueName = some store →
      h.isDurable queueName = true → Synced codec h.baseDir queueName (store, h.fs) →
      Saved h queueName

def ready (h : VirtualHost) (queueName : Bytes) : Bool :=
  (h.queueMessages.lookup queueName).all fun store => store.file.ready

/-- A durable queue that has changed has a healthy stream, so that every write has got
through, and what is new in it can be read back. -/
def Safe (h h' : VirtualHost) (queueName : Bytes) : Prop :=
  h.isDurable queueName = true → h'.contents queueName ≠ h.contents queueName →
    ready h' queueName = true ∧
      ∀ m ∈ h'.contents queueName, m ∉ h.contents queueName → Restores codec m.payload

instance (h h' : VirtualHost) (queueName : Bytes) : Decidable (Safe codec h h' queueName) :=
  inferInstanceAs (Decidable (_ = _ → ¬_ = _ → _ = _ ∧ ∀ m ∈ _, m ∉ _ → Restores codec _))

structure Remembers (h h' : VirtualHost) (queueName : Bytes) : Prop where
  saved : Saved codec h' queueName
  unchanged : h'.isDurable queueName = false →
    h'.kept codec queueName true = h.kept codec queueName true

variable {codec} {names : List Bytes} {h h' h'' : VirtualHost} {queueName : Bytes}

theorem ready_of_lookup {store : QueueMessage}
    (stored : h.queueMessages.lookup queueName = some store) :
    ready h queueName = store.file.ready := by
  simp [ready, stored]

theorem kept_eq_start (h : VirtualHost) (queueName : Bytes) :
    h.kept codec queueName true = lettersOf (start codec h.fs h.baseDir queueName).1.msgs := rfl

theorem kept_congr (baseDir : h'.baseDir = h.baseDir)
    (content : h'.fs.content (fileKey h queueName) = h.fs.content (fileKey h queueName))
    (openable : h'.fs.openable (fileKey h queueName) = h.fs.openable (fileKey h queueName)) :
    h'.kept codec queueName true = h.kept codec queueName true := by
  rw [kept_eq_start, kept_eq_start, start_msgs, start_msgs, baseDir, ← fileKey, content, openable]

namespace Saved

theorem intact (saved : Saved codec h queueName) :
    Intact codec (h.fs.content (fileKey h queueName)) := by
  cases saved with
  | undeclared _ intact => exact intact
  | volatile _ _ _ intact => exact intact
  | durable _ _ synced =>
    have intact := synced.intact
    rwa [content, synced.filePath] at intact

theorem kept_durable (saved : Saved codec h queueName) (durable : h.isDurable queueName = true)
    (ok : WellFormed h) : h.kept codec queueName true = h.service.letters queueName := by
  cases saved with
  | undeclared absent =>
    obtain ⟨info, known, -⟩ := isDurable_iff.mp durable
    have stored := ok.stored queueName
    rw [absent, MsgQueueManager.exists?] at stored
    rw [MsgQueueManager.selectQueue] at known
    simp [known] at stored
  | volatile _ notDurable => exact absurd durable (by simp [notDurable])
  | durable stored _ synced =>
    rw [kept_eq_start, service_letters, contents_of_lookup stored]
    have payloads := congrArg
      (List.map fun p : MessagePayload => (⟨p.properties?, p.body⟩ : Letter)) synced.restart.2
    rwa [List.map_map, List.map_map] at payloads

end Saved

namespace Remembers

/-- Whatever does not touch the store, the flag and the file of the queue. -/
theorem elsewhere (baseDir : h'.baseDir = h.baseDir)
    (store : h'.queueMessages.lookup queueName = h.queueMessages.lookup queueName)
    (flag : h'.isDurable queueName = h.isDurable queueName)
    (file : FileSystem.SameAt (fileKey h queueName) h.fs h'.fs)
    (saved : Saved codec h queueName) : Remembers codec h h' queueName := by
  have sameKey : fileKey h' queueName = fileKey h queueName := by rw [fileKey, baseDir, fileKey]
  refine ⟨?_, fun _ => kept_congr baseDir file.content file.openable⟩
  cases saved with
  | undeclared absent intact =>
    exact .undeclared (store.trans absent) (by rwa [sameKey, file.content])
  | volatile stored notDurable bare intact =>
    exact .volatile (store.trans stored) (flag.trans notDurable) bare
      (by rwa [sameKey, file.content])
  | durable stored isDurable synced =>
    refine .durable (store.trans stored) (flag.trans isDurable) ?_
    rw [baseDir]
    refine synced.of_sameAt ?_
    rw [synced.filePath]
    exact file

theorem refl (saved : Saved codec h queueName) : Remembers codec h h queueName :=
  elsewhere rfl rfl rfl (FileSystem.SameAt.refl _ _) saved

theorem trans (flag : h''.isDurable queueName = h'.isDurable queueName)
    (first : Remembers codec h h' queueName) (second : Remembers codec h' h'' queueName) :
    Remembers codec h h'' queueName where
  saved := second.saved
  unchanged notDurable :=
    (second.unchanged notDurable).trans (first.unchanged (flag ▸ notDurable))

end Remembers

/-- What a relation over publications says of one queue: messages join it at the end, no stream
is brought back, and the file keeps up. -/
structure Carried (codec : Codec) (queueName : Bytes) (h h' : VirtualHost) : Prop where
  frame : Frame h h'
  more : ∃ added, h'.contents queueName = h.contents queueName ++ added
  ready : ready h' queueName = true → ready h queueName = true
  remembers : Saved codec h queueName → Safe codec h h' queueName →
    Remembers codec h h' queueName

theorem Safe.split (first : Carried codec queueName h h') (second : Carried codec queueName h' h'')
    (safe : Safe codec h h'' queueName) :
    Safe codec h h' queueName ∧ Safe codec h' h'' queueName := by
  obtain ⟨added, joined⟩ := first.more
  obtain ⟨added', joined'⟩ := second.more
  have flag : h'.isDurable queueName = h.isDurable queueName :=
    isDurable_congr first.frame.queueMgr
  constructor
  · intro durable changed
    have longer : h''.contents queueName ≠ h.contents queueName := by
      intro same
      rw [joined', joined, List.append_assoc] at same
      rw [List.append_eq_nil_iff.mp (List.append_right_eq_self.mp same) |>.1] at joined
      exact changed (joined.trans (List.append_nil _))
    obtain ⟨healthy, restores⟩ := safe durable longer
    refine ⟨second.ready healthy, fun m member new => restores m ?_ new⟩
    rw [joined']
    exact List.mem_append_left _ member
  · intro durable changed
    have longer : h''.contents queueName ≠ h.contents queueName := by
      intro same
      rw [joined', joined, List.append_assoc] at same
      rw [List.append_eq_nil_iff.mp (List.append_right_eq_self.mp same) |>.2] at joined'
      exact changed (joined'.trans (List.append_nil _))
    obtain ⟨healthy, restores⟩ := safe (flag ▸ durable) longer
    refine ⟨healthy, fun m member new => restores m member fun old => new ?_⟩
    rw [joined]
    exact List.mem_append_left _ old

namespace Carried

theorem elsewhere (frame : Frame h h')
    (store : h'.queueMessages.lookup queueName = h.queueMessages.lookup queueName)
    (file : FileSystem.SameAt (fileKey h queueName) h.fs h'.fs) :
    Carried codec queueName h h' where
  frame := frame
  more := ⟨[], by rw [List.append_nil, contents_eq, contents_eq, store]⟩
  ready := by
    rw [Durability.ready, Durability.ready, store]
    exact id
  remembers saved _ :=
    .elsewhere frame.baseDir store (isDurable_congr frame.queueMgr) file saved

theorem refl (h : VirtualHost) : Carried codec queueName h h :=
  elsewhere (Frame.refl h) rfl (FileSystem.SameAt.refl _ _)

theorem trans (first : Carried codec queueName h h') (second : Carried codec queueName h' h'') :
    Carried codec queueName h h'' := by
  obtain ⟨added, joined⟩ := first.more
  obtain ⟨added', joined'⟩ := second.more
  refine ⟨first.frame.trans second.frame, ⟨added ++ added', ?_⟩, first.ready ∘ second.ready, ?_⟩
  · rw [joined', joined, List.append_assoc]
  intro saved safe
  obtain ⟨before, after⟩ := safe.split first second
  have here := first.remembers saved before
  exact here.trans (isDurable_congr second.frame.queueMgr) (second.remembers here.saved after)

end Carried

section Stores

variable {store : QueueMessage}

theorem Housed.foreign (housed : Housed names h) {other : Bytes} (member : queueName ∈ names)
    (stored : h.queueMessages.lookup other = some store) (differs : queueName ≠ other) :
    Foreign h.baseDir other (fileKey h queueName) := by
  have named := housed.named other (Option.isSome_of_eq_some stored)
  obtain ⟨file, tmp⟩ := housed.apart other named queueName member differs.symm
  exact ⟨file, tmp, resolve_ne_replaced _⟩

theorem Housed.off (housed : Housed names h) {other : Bytes} (member : queueName ∈ names)
    (stored : h.queueMessages.lookup other = some store) (differs : queueName ≠ other) :
    Placed (Off (path h.baseDir other) (fileKey h queueName)) h := by
  intro name third known isOpen own
  rw [housed.placed name third known isOpen, own]
  exact (housed.foreign member stored differs).file

variable (codec) in
theorem Carried.deliver (housed : Housed names h) (member : queueName ∈ names) {other : Bytes}
    (stored : h.queueMessages.lookup other = some store) (bp : Option BasicProperties)
    (body : Bytes) :
    Carried codec queueName h (h.deliver codec other store bp body).2 := by
  have frame : Frame h (h.deliver codec other store bp body).2 :=
    Frame.delivers.deliver h other store bp body stored
  by_cases differs : queueName ≠ other
  · have within : Within other (fileKey h queueName) h (h.deliver codec other store bp body).2 :=
      .deliver housed.ok (housed.off member stored differs) stored bp body
    refine .elsewhere frame ?_ within.file
    rw [VirtualHost.deliver, lookup_withStore, if_neg differs]
  obtain rfl : queueName = other := not_not.mp differs
  have after : (h.deliver codec queueName store bp body).2.queueMessages.lookup queueName =
      some (store.insert codec h.fs bp body (h.isDurable queueName)).2.1 := by
    rw [VirtualHost.deliver, lookup_withStore, if_pos rfl]
  have joined : (h.deliver codec queueName store bp body).2.contents queueName =
      h.contents queueName ++ [inserted codec store h.fs bp body (h.isDurable queueName)] := by
    rw [contents_of_lookup after, contents_of_lookup stored, insert_msgs]
  refine ⟨frame, ⟨_, joined⟩, ?_, ?_⟩
  · rw [ready_of_lookup after, ready_of_lookup stored]
    exact ready_of_persist_ready codec store.file h.fs (makeMessage bp body) _
  intro saved safe
  cases saved with
  | undeclared absent =>
    rw [absent] at stored
    cases stored
  | volatile known notDurable bare intact =>
    obtain rfl := Option.some.inj (stored.symm.trans known)
    have sameFs : (h.deliver codec queueName store bp body).2.fs = h.fs := by
      rw [VirtualHost.deliver, notDurable]
      rfl
    rw [notDurable] at after
    refine ⟨.volatile after ((isDurable_congr frame.queueMgr).trans notDurable) ?_
      (sameFs.symm ▸ intact), fun _ => kept_congr rfl (by rw [sameFs]) (by rw [sameFs])⟩
    intro m queued
    rcases List.mem_append.mp queued with old | new
    · exact bare m old
    · rw [List.mem_singleton.mp new]
      rfl
  | durable known isDurable synced =>
    obtain rfl := Option.some.inj (stored.symm.trans known)
    have fresh : inserted codec store h.fs bp body (h.isDurable queueName) ∉
        h.contents queueName := by
      rw [contents_of_lookup stored]
      intro queued
      exact Nat.lt_irrefl _ ((housed.ok.numbered _ _ stored).2 _ queued)
    obtain ⟨healthy, restores⟩ := safe isDurable (by rw [joined]; simp)
    have readable := restores _ (joined ▸ List.mem_append_right _ List.mem_cons_self) fresh
    rw [ready_of_lookup after] at healthy
    rw [isDurable] at after healthy readable
    have flag : (h.deliver codec queueName store bp body).2.isDurable queueName = true :=
      (isDurable_congr frame.queueMgr).trans isDurable
    refine ⟨.durable after flag ?_, fun contrary => absurd (flag.symm.trans contrary) (by decide)⟩
    have synced' := synced.insert_of_ready healthy readable
    rwa [VirtualHost.deliver, isDurable]

theorem basicAck_absent (absent : h.queueMessages.lookup queueName = none) (id : Bytes) :
    h.basicAck codec queueName id = h := by
  simp only [VirtualHost.basicAck, absent]

theorem basicAck_stored (stored : h.queueMessages.lookup queueName = some store) (id : Bytes) :
    h.basicAck codec queueName id =
      h.withStore queueName (store.remove codec h.fs id).1 (store.remove codec h.fs id).2 := by
  simp only [VirtualHost.basicAck, stored]

variable (codec) in
theorem lookup_basicAck (stored : h.queueMessages.lookup queueName = some store) (id : Bytes) :
    (h.basicAck codec queueName id).queueMessages.lookup queueName =
      some (store.remove codec h.fs id).1 := by
  rw [basicAck_stored stored, lookup_withStore, if_pos rfl]

/-- A removal does not bring a stream back. -/
theorem ready_of_basicAck_ready (other id : Bytes)
    (healthy : ready (h.basicAck codec other id) queueName = true) :
    ready h queueName = true := by
  cases stored : h.queueMessages.lookup other with
  | none => rwa [basicAck_absent stored] at healthy
  | some store =>
    by_cases own : queueName = other
    · subst own
      rw [ready_of_lookup (lookup_basicAck codec stored id), remove_eq] at healthy
      rw [ready_of_lookup stored]
      split at healthy
      · exact healthy
      · exact ready_of_invalidatePersistent_ready codec store.file h.fs _ healthy
    · rwa [basicAck_stored stored, ready, lookup_withStore, if_neg own] at healthy

theorem remove_bare (bare : ∀ m ∈ store.msgs, m.msg.length = 0) (fs : FileSystem) (id : Bytes) :
    (store.remove codec fs id).2 = fs := by
  rw [remove_eq]
  split
  · rfl
  · next m rest found =>
    rw [invalidatePersistent_unwritten codec store.file fs
      (bare m ((mem_of_target found).mpr (Or.inl rfl)))]

theorem Remembers.basicAck (housed : Housed names h) (member : queueName ∈ names)
    (other id : Bytes) (saved : Saved codec h queueName)
    (safe : Safe codec h (h.basicAck codec other id) queueName) :
    Remembers codec h (h.basicAck codec other id) queueName := by
  have frame : Frame h (h.basicAck codec other id) := Frame.basicAck h other id
  have flag : (h.basicAck codec other id).isDurable queueName = h.isDurable queueName :=
    isDurable_congr frame.queueMgr
  cases stored : h.queueMessages.lookup other with
  | none =>
    rw [basicAck_absent stored]
    exact .refl saved
  | some store =>
  by_cases differs : queueName ≠ other
  · have within : Within other (fileKey h queueName) h (h.basicAck codec other id) :=
      .basicAck housed.ok (housed.off member stored differs) id
    refine .elsewhere frame.baseDir ?_ flag within.file saved
    rw [basicAck_stored stored, lookup_withStore, if_neg differs]
  obtain rfl : queueName = other := not_not.mp differs
  have after := lookup_basicAck codec stored id
  cases saved with
  | undeclared absent =>
    rw [absent] at stored
    cases stored
  | volatile known notDurable bare intact =>
    obtain rfl := Option.some.inj (stored.symm.trans known)
    have sameFs : (h.basicAck codec queueName id).fs = h.fs := by
      rw [basicAck_stored stored]
      exact remove_bare bare h.fs id
    refine ⟨.volatile after (flag.trans notDurable) ?_ ?_,
      fun _ => kept_congr frame.baseDir (by rw [sameFs]) (by rw [sameFs])⟩
    · exact fun m left => bare m ((remove_msgs_sublist codec store h.fs id).subset left)
    · rw [sameFs, fileKey, frame.baseDir]
      exact intact
  | durable known isDurable synced =>
    obtain rfl := Option.some.inj (stored.symm.trans known)
    have isDurable' := flag.trans isDurable
    refine ⟨.durable after isDurable' ?_,
      fun contrary => absurd (isDurable'.symm.trans contrary) (by decide)⟩
    rw [basicAck_stored stored]
    refine synced.remove_of_ready fun changed => ?_
    have moved : (h.basicAck codec queueName id).contents queueName ≠ h.contents queueName := by
      rw [contents_of_lookup after, contents_of_lookup stored]
      exact changed
    have healthy := (safe isDurable moved).1
    rwa [ready_of_lookup after] at healthy

end Stores

end HzMq.Durability
