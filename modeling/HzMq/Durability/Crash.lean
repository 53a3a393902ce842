import HzMq.Durability.Calls
import HzMq.Durability.Restarts
import HzMq.Persistence.CrashedStore

/-!
# A host that dies within an operation

The process may die in any call of an operation, after any number of the bytes that the
call writes. The next process then finds what it would have found between two calls.
-/

namespace HzMq.Durability

open FileStream FramedLog VirtualHost QueueMessage Persistence Delivery HzMq.Topology Machine

section OneCall

variable {codec : Codec} {names : List Bytes} {h h' : VirtualHost} {c : StoreCall}

/-- What a host has to keep to in a call: the flag is that of the queue, only durable queues are
compacted, and durable queues change safely. -/
structure Guarded (codec : Codec) (names : List Bytes) (h : VirtualHost) (c : StoreCall) :
    Prop where
  flag : ∀ bp body durable, c.op = .insert bp body durable → durable = h.isDurable c.queueName
  compacted : c.op = .compact → (h.queueMessages.lookup c.queueName).isSome →
    h.isDurable c.queueName = true
  safe : c.op ≠ .compact → c.op ≠ .getStats → ∀ queueName ∈ names,
    Safe codec h (c.apply codec h) queueName

variable (codec) in
theorem contents_apply {store : QueueMessage}
    (stored : h.queueMessages.lookup c.queueName = some store) :
    (c.apply codec h).contents =
      Function.update h.contents c.queueName (c.op.apply codec (store, h.fs)).1.msgs := by
  rw [StoreCall.apply_stored stored, contents_withStore]
  cases c.op <;> simp [StoreCall.followed]

variable (codec) in
theorem ready_apply {store : QueueMessage}
    (stored : h.queueMessages.lookup c.queueName = some store) :
    ready (c.apply codec h) c.queueName = (c.op.apply codec (store, h.fs)).1.file.ready := by
  rw [StoreCall.apply_stored stored]
  exact ready_of_lookup (by rw [lookup_withStore, if_pos rfl])

theorem Guarded.storeSafe (guarded : Guarded codec names h c) (ok : WellFormed h)
    (member : c.queueName ∈ names) {store : QueueMessage}
    (stored : h.queueMessages.lookup c.queueName = some store)
    (durable : h.isDurable c.queueName = true)
    (synced : Synced codec h.baseDir c.queueName (store, h.fs)) :
    c.op = .compact ∨ c.op.Safe codec (store, h.fs) := by
  obtain ⟨queueName, op⟩ := c
  have contents := congrFun (contents_apply codec stored) queueName
  have healthy := ready_apply codec stored
  simp only [Function.update_self] at contents
  cases op with
  | insert bp body flag =>
    obtain rfl : flag = true := (guarded.flag bp body flag rfl).trans durable
    have joined : (StoreOp.apply codec (store, h.fs) (.insert bp body true)).1.msgs =
        store.msgs ++ [inserted codec store h.fs bp body true] := insert_msgs ..
    rw [joined, ← contents_of_lookup stored] at contents
    have fresh : inserted codec store h.fs bp body true ∉ h.contents queueName := by
      rw [contents_of_lookup stored]
      intro queued
      exact Nat.lt_irrefl _ ((ok.numbered _ _ stored).2 _ queued)
    obtain ⟨ready, restores⟩ := guarded.safe StoreOp.noConfusion StoreOp.noConfusion queueName
      member durable (by rw [contents]; simp)
    have readable := restores _ (contents ▸ List.mem_append_right _ List.mem_cons_self) fresh
    rw [healthy] at ready
    obtain ⟨attached, -⟩ := synced.attached
    have payload : (inserted codec store h.fs bp body true).payload = marked bp body :=
      congrArg Message.payload
        (writePersistent_placed codec (makeMessage bp body) h.fs attached.isOpen)
    have before : store.file.ready = true :=
      ready_of_persist_ready codec store.file h.fs (makeMessage bp body) true ready
    exact Or.inr ⟨rfl, before, synced.whole,
      writable_of_ready attached ready (payload ▸ readable)⟩
  | remove id =>
    refine Or.inr ?_
    cases found : target store.msgs id with
    | none => exact Or.inl found
    | some pair =>
      obtain ⟨m, rest⟩ := pair
      refine Or.inr ?_
      have removed := remove_of_target codec store h.fs found
      have changed : (StoreCall.apply codec h ⟨queueName, .remove id⟩).contents queueName ≠
          h.contents queueName := by
        rw [contents, contents_of_lookup stored, apply_remove_msgs codec found]
        intro same
        obtain ⟨before, after, split, rfl, -, -⟩ := target_split found
        have lengths := congrArg List.length (same.trans split)
        simp at lengths
      have ready := (guarded.safe StoreOp.noConfusion StoreOp.noConfusion queueName member durable
        changed).1
      rw [healthy, StoreOp.apply, removed] at ready
      exact ready_of_invalidatePersistent_ready codec store.file h.fs m.msg ready
  | getStats => exact Or.inr trivial
  | compact => exact Or.inl rfl

theorem crash_durable (oneByte : codec.MarksOneByte) (housed : Housed names h)
    (noZero : 0 ∉ path h.baseDir c.queueName)
    (guarded : Guarded codec names h c) {store : QueueMessage}
    (stored : h.queueMessages.lookup c.queueName = some store)
    (durable : h.isDurable c.queueName = true)
    (synced : Synced codec h.baseDir c.queueName (store, h.fs)) (n : Nat) (name : Bytes)
    (exchanges : StrMap Exchange) (seq : Nat) :
    (VirtualHost.new name h.baseDir exchanges seq (c.op.crash codec n (store, h.fs))).kept codec
        c.queueName true =
      (if c.op.done codec (store, h.fs) n then c.apply codec h else h).service.letters
        c.queueName := by
  have here : c.queueName ∈ names := housed.named _ (Option.isSome_of_eq_some stored)
  have payloads : (start codec (c.op.crash codec n (store, h.fs)) h.baseDir
      c.queueName).1.msgs.map MessagePtr.payload = _ :=
    synced.crashed oneByte noZero (guarded.storeSafe housed.ok here stored durable synced)
  have letters := congrArg
    (List.map fun p : MessagePayload => (⟨p.properties?, p.body⟩ : Letter)) payloads
  rw [List.map_map, List.map_map] at letters
  refine letters.trans ?_
  split
  · rw [service_letters, contents_apply codec stored, Function.update_self]
    rfl
  · rw [service_letters, contents_of_lookup stored]
    rfl

/-- A queue without files has left nothing on the disk. -/
theorem crash_volatile (guarded : Guarded codec names h c) {store : QueueMessage}
    (stored : h.queueMessages.lookup c.queueName = some store)
    (notDurable : h.isDurable c.queueName = false) (bare : ∀ m ∈ store.msgs, m.msg.length = 0)
    (n : Nat) : c.op.crash codec n (store, h.fs) = h.fs := by
  refine StoreOp.crash_bare bare ?_ ?_
  · intro bp body isInsert
    have flag := guarded.flag bp body true isInsert
    rw [notDurable] at flag
    cases flag
  · intro copies
    have flag := guarded.compacted copies (Option.isSome_of_eq_some stored)
    rw [notDurable] at flag
    cases flag

variable (codec) in
theorem crash_elsewhere (housed : Housed names h) {store : QueueMessage}
    (stored : h.queueMessages.lookup c.queueName = some store) {queueName : Bytes}
    (member : queueName ∈ names) (other : queueName ≠ c.queueName) (n : Nat) (name : Bytes)
    (exchanges : StrMap Exchange) (seq : Nat) :
    (VirtualHost.new name h.baseDir exchanges seq (c.op.crash codec n (store, h.fs))).kept codec
        queueName true = h.kept codec queueName true ∧
      (c.apply codec h).service.letters queueName = h.service.letters queueName := by
  have filePath := housed.ok.paths c.queueName store stored
  obtain ⟨apart, tmpApart, -⟩ := housed.foreign member stored other
  rw [← filePath] at apart tmpApart
  have file : FileSystem.SameAt (fileKey h queueName) h.fs (c.op.crash codec n (store, h.fs)) :=
    StoreOp.crash_sameAt ((housed.placed _ _ stored).elsewhere apart.symm) tmpApart.symm c.op
  refine ⟨kept_congr rfl file.content file.openable, ?_⟩
  rw [service_letters, contents_apply codec stored, Function.update_of_ne other, service_letters]

variable (codec) in
/-- The next process finds every queue as it was before the call, or every one as it is after it. -/
theorem crash_call (oneByte : codec.MarksOneByte) (housed : Housed names h)
    (noZero : ∀ queueName ∈ names, 0 ∉ path h.baseDir queueName)
    (saved : ∀ queueName ∈ names, Saved codec h queueName) (guarded : Guarded codec names h c)
    (n : Nat) (name : Bytes) (exchanges : StrMap Exchange) (seq : Nat) :
    ∃ done : Bool, ∀ queueName ∈ names,
      (VirtualHost.new name h.baseDir exchanges seq (c.crash codec n h)).kept codec queueName true =
        if h.isDurable queueName then
          (if done then c.apply codec h else h).service.letters queueName
        else h.kept codec queueName true := by
  have before (queueName : Bytes) (member : queueName ∈ names) : h.kept codec queueName true =
      if h.isDurable queueName then h.service.letters queueName
      else h.kept codec queueName true := by
    split
    · next durable => exact (saved queueName member).kept_durable durable housed.ok
    · rfl
  cases stored : h.queueMessages.lookup c.queueName with
  | none =>
    refine ⟨false, fun queueName member => ?_⟩
    have same : c.crash codec n h = h.fs := by rw [StoreCall.crash, stored]
    rw [same]
    exact (kept_congr rfl rfl rfl).trans (before queueName member)
  | some store =>
    have disk : c.crash codec n h = c.op.crash codec n (store, h.fs) := by
      rw [StoreCall.crash, stored]
    refine ⟨c.op.done codec (store, h.fs) n, fun queueName member => ?_⟩
    rw [disk]
    by_cases other : queueName ≠ c.queueName
    · obtain ⟨found, letters⟩ :=
        crash_elsewhere codec housed stored member other n name exchanges seq
      refine found.trans ((before queueName member).trans ?_)
      split
      · split
        · exact letters.symm
        · rfl
      · rfl
    obtain rfl : queueName = c.queueName := not_not.mp other
    cases saved c.queueName member with
    | undeclared absent _ =>
      rw [absent] at stored
      cases stored
    | volatile known notDurable bare _ =>
      obtain rfl := Option.some.inj (stored.symm.trans known)
      rw [crash_volatile guarded stored notDurable bare, notDurable]
      exact kept_congr rfl rfl rfl
    | durable known isDurable synced =>
      obtain rfl := Option.some.inj (stored.symm.trans known)
      rw [isDurable, if_pos rfl]
      exact crash_durable oneByte housed (noZero _ member) guarded stored isDurable synced n name
        exchanges seq

end OneCall

section Run

variable {codec : Codec} {matchHeaders : StrMap Bytes → StrMap Bytes → Bool}
  {names : List Bytes} {h h' h'' : VirtualHost} {queueName : Bytes} {cs : List StoreCall}

def Inserts (h : VirtualHost) (cs : List StoreCall) : Prop :=
  ∀ c ∈ cs, ∃ bp body, c.op = .insert bp body (h.isDurable c.queueName)

theorem inserts_insertCalls (receivers : List Bytes) (props : Bytes → BasicProperties)
    (body : Bytes) : Inserts h (insertCalls h receivers props body) := by
  intro c member
  obtain ⟨name, -, rfl⟩ := List.mem_map.mp member
  exact ⟨_, _, rfl⟩

theorem Inserts.of_frame (inserts : Inserts h cs) (frame : Frame h h') : Inserts h' cs := by
  intro c member
  obtain ⟨bp, body, isInsert⟩ := inserts c member
  exact ⟨bp, body, isInsert.trans (by rw [isDurable_congr frame.queueMgr])⟩

structure Inserted (codec : Codec) (names : List Bytes) (h h' : VirtualHost) : Prop where
  housed : Housed names h'
  frame : Frame h h'
  carried : ∀ queueName ∈ names, Carried codec queueName h h'

theorem inserted_call (housed : Housed names h) {c : StoreCall} {bp : Option BasicProperties}
    {body : Bytes} (isInsert : c.op = .insert bp body (h.isDurable c.queueName)) :
    Inserted codec names h (c.apply codec h) := by
  cases stored : h.queueMessages.lookup c.queueName with
  | none =>
    rw [StoreCall.apply_absent stored]
    exact ⟨housed, Frame.refl h, fun _ _ => .refl h⟩
  | some store =>
    have delivered : c.apply codec h = (h.deliver codec c.queueName store bp body).2 := by
      rw [StoreCall.apply_stored stored, isInsert]
      rfl
    have frame : Frame h (h.deliver codec c.queueName store bp body).2 :=
      Frame.delivers.deliver h c.queueName store bp body stored
    have placed : Placed Own (h.deliver codec c.queueName store bp body).2 :=
      Placed.delivers.deliver h c.queueName store bp body stored housed.placed
    have openable : (h.deliver codec c.queueName store bp body).2.fs.openable = h.fs.openable :=
      openable_delivers.deliver h c.queueName store bp body stored
    rw [delivered]
    exact ⟨housed.of_frame frame placed openable, frame,
      fun _ member => Carried.deliver codec housed member stored bp body⟩

theorem inserted_exec (housed : Housed names h) (inserts : Inserts h cs) :
    Inserted codec names h (exec (StoreCall.apply codec) h cs) := by
  induction cs generalizing h with
  | nil => exact ⟨housed, Frame.refl h, fun _ _ => .refl h⟩
  | cons c cs ih =>
    obtain ⟨bp, body, isInsert⟩ := inserts c List.mem_cons_self
    have first : Inserted codec names h (c.apply codec h) := inserted_call housed isInsert
    have later : Inserts h cs := fun d member => inserts d (List.mem_cons_of_mem c member)
    have rest := ih first.housed (later.of_frame first.frame)
    exact ⟨rest.housed, first.frame.trans rest.frame,
      fun name member => (first.carried name member).trans (rest.carried name member)⟩

structure Reached (codec : Codec) (names : List Bytes) (h h' : VirtualHost) (c : StoreCall) :
    Prop where
  housed : Housed names h'
  frame : Frame h h'
  remembers : ∀ queueName ∈ names, Remembers codec h h' queueName
  guarded : Guarded codec names h' c

theorem reached_insert (housed : Housed names h) (saved : ∀ queueName ∈ names,
      Saved codec h queueName) {before after : List StoreCall} {c : StoreCall}
    (inserts : Inserts h (before ++ c :: after))
    (safe : ∀ queueName ∈ names,
      Safe codec h (exec (StoreCall.apply codec) h (before ++ c :: after)) queueName) :
    Reached codec names h (exec (StoreCall.apply codec) h before) c := by
  have first : Inserted codec names h (exec (StoreCall.apply codec) h before) :=
    inserted_exec housed fun d member => inserts d (List.mem_append_left _ member)
  have others : Inserts h (c :: after) := fun d member => inserts d (List.mem_append_right _ member)
  obtain ⟨bp, body, isInsert⟩ := others.of_frame first.frame c List.mem_cons_self
  have here : Inserted codec names _ (c.apply codec (exec (StoreCall.apply codec) h before)) :=
    inserted_call first.housed isInsert
  have rest : Inserted codec names _ (exec (StoreCall.apply codec)
      (c.apply codec (exec (StoreCall.apply codec) h before)) after) :=
    inserted_exec here.housed fun d member => (others.of_frame (first.frame.trans here.frame)) d
      (List.mem_cons_of_mem c member)
  rw [exec_append, exec_cons] at safe
  have parts (name : Bytes) (member : name ∈ names) :=
    Safe.split (first.carried name member) (here.carried name member)
      (Safe.split ((first.carried name member).trans (here.carried name member))
        (rest.carried name member) (safe name member)).1
  refine ⟨first.housed, first.frame, fun name member =>
    (first.carried name member).remembers (saved name member) (parts name member).1, ?_, ?_,
    fun _ _ name member => (parts name member).2⟩
  · intro bp' body' durable same
    rw [isInsert] at same
    injection same with _ _ flag
    exact flag.symm
  · intro copies
    rw [isInsert] at copies
    cases copies

theorem reached_single (housed : Housed names h) (saved : ∀ queueName ∈ names,
      Saved codec h queueName) {id : Bytes}
    (safe : ∀ name ∈ names, Safe codec h (StoreCall.apply codec h ⟨queueName, .remove id⟩) name) :
    Reached codec names h h ⟨queueName, .remove id⟩ :=
  ⟨housed, Frame.refl h, fun name member => .refl (saved name member),
    fun _ _ _ same => StoreOp.noConfusion same, fun same => StoreOp.noConfusion same,
    fun _ _ => safe⟩

/-- The calls of a dead-lettering: publications, then the removal of the original. -/
theorem reached_deadLetter (housed : Housed names h) (saved : ∀ queueName ∈ names,
      Saved codec h queueName) {posts before after : List StoreCall} {c : StoreCall} {id : Bytes}
    {t : MessagePtr} (inserts : Inserts h posts)
    (found : (h.contents queueName).find? (fun x => x.id == id) = some t)
    (split : posts ++ [⟨queueName, .remove id⟩] = before ++ c :: after)
    (safe : ∀ name ∈ names, Safe codec h
      (exec (StoreCall.apply codec) h (posts ++ [⟨queueName, .remove id⟩])) name) :
    Reached codec names h (exec (StoreCall.apply codec) h before) c := by
  have posted : Inserted codec names h (exec (StoreCall.apply codec) h posts) :=
    inserted_exec housed inserts
  rw [exec_append, exec_cons, exec_nil] at safe
  have parts (name : Bytes) (member : name ∈ names) :=
    Safe.reject posted.housed.ok (posted.carried name member) found (safe name member)
  rcases List.eq_nil_or_concat after with rfl | ⟨rest, last, rfl⟩
  · obtain ⟨rfl, same⟩ := List.append_inj' split rfl
    obtain rfl := (List.cons.inj same).1
    have single := reached_single posted.housed (fun name member =>
      ((posted.carried name member).remembers (saved name member) (parts name member).1).saved)
        fun name member => (parts name member).2
    exact ⟨single.housed, posted.frame, fun name member =>
      (posted.carried name member).remembers (saved name member) (parts name member).1,
      single.guarded⟩
  · have joined : posts ++ [⟨queueName, .remove id⟩] = (before ++ c :: rest) ++ [last] := by
      rw [split, List.concat_eq_append, List.append_assoc, List.cons_append]
    obtain ⟨rfl, -⟩ := List.append_inj' joined rfl
    exact reached_insert housed saved inserts fun name member => (parts name member).1

theorem frontCalls_cases (h : VirtualHost) (queueName : Bytes) :
    frontCalls h queueName = [] ∨ ∃ id, frontCalls h queueName = [⟨queueName, .remove id⟩] := by
  unfold frontCalls
  cases h.queueMessages.lookup queueName with
  | none => exact Or.inl rfl
  | some store =>
    cases front : store.front with
    | none => exact Or.inl (by simp only [front])
    | some msg => exact Or.inr ⟨msg.id, by simp only [front]⟩

theorem inserts_nil : Inserts h [] := fun _ member => nomatch member

variable (matchHeaders) in
theorem calls_cases (h : VirtualHost) (op : HostOp) :
    Inserts h (op.calls matchHeaders h) ∨
      (∃ queueName id, op.calls matchHeaders h = [⟨queueName, .remove id⟩]) ∨
      (∃ posts queueName id t, op.calls matchHeaders h = posts ++ [⟨queueName, .remove id⟩] ∧
        Inserts h posts ∧ (h.contents queueName).find? (fun x => x.id == id) = some t) ∨
      (∃ queueName, op = .queueRuntimeStats queueName) ∨
      ∃ queueName, op = .compactQueue queueName := by
  have front (queueName : Bytes) : Inserts h (frontCalls h queueName) ∨
      ∃ name id, frontCalls h queueName = [⟨name, .remove id⟩] := by
    rcases frontCalls_cases h queueName with nothing | ⟨id, removal⟩
    · exact Or.inl (nothing ▸ inserts_nil)
    · exact Or.inr ⟨queueName, id, removal⟩
  cases op with
  | basicPublish queue bp body =>
    refine Or.inl ?_
    rw [HostOp.calls]
    split
    · exact inserts_insertCalls _ _ _
    · exact inserts_nil
  | publishToExchange visit exchange bp body => exact Or.inl (inserts_insertCalls _ _ _)
  | publishEx visit exchange key bp body => exact Or.inl (inserts_insertCalls _ _ _)
  | basicConsume queue => exact (front queue).imp_right Or.inl
  | basicConsumeAndRemove queue => exact (front queue).imp_right Or.inl
  | basicAck queue id => exact Or.inr (Or.inl ⟨queue, id, rfl⟩)
  | basicNack visit queue id requeue reason =>
    rw [HostOp.calls, nackCalls]
    cases h.queueMgr.selectQueue queue with
    | none => exact Or.inl inserts_nil
    | some info =>
      cases requeue with
      | true => exact Or.inl inserts_nil
      | false =>
        cases configured : info.hasDeadLetterConfig with
        | false => exact Or.inr (Or.inl ⟨queue, id, by simp [configured]⟩)
        | true =>
          simp only [Bool.false_eq_true, if_false, configured, Bool.not_true]
          cases found : (h.contents queue).find? fun m => m.id == id with
          | none => exact Or.inl inserts_nil
          | some t =>
            refine Or.inr (Or.inr (Or.inl ⟨_, queue, id, t, rfl, ?_, found⟩))
            split
            · exact (inserts_insertCalls _ _ _ : Inserts h.generateId.2 _)
            · exact inserts_nil
  | basicQuery visit =>
    rw [HostOp.calls]
    cases queryTarget (visit.order h.queueMessages) with
    | none => exact Or.inl inserts_nil
    | some pulled => exact (front pulled.1).imp_right Or.inl
  | queueRuntimeStats queue => exact Or.inr (Or.inr (Or.inr (Or.inl ⟨queue, rfl⟩)))
  | compactQueue queue => exact Or.inr (Or.inr (Or.inr (Or.inr ⟨queue, rfl⟩)))
  | _ => exact Or.inl inserts_nil

theorem messages_of_calls {op : HostOp} {before after : List StoreCall} {c : StoreCall}
    (split : op.calls matchHeaders h = before ++ c :: after) : Frame.onMessages op = true := by
  have some' : op.calls matchHeaders h ≠ [] := by simp [split]
  cases op <;> first | rfl | exact absurd rfl some'

/-- Each call of a careful operation is made on a host whose files are as they should be. -/
theorem reached_of_careful (housed : Housed names h)
    (saved : ∀ queueName ∈ names, Saved codec h queueName) {op : HostOp}
    (careful : Careful codec matchHeaders names h (.host op)) {before after : List StoreCall}
    {c : StoreCall} (split : op.calls matchHeaders h = before ++ c :: after) :
    Reached codec names h (exec (StoreCall.apply codec) h before) c := by
  have messages := messages_of_calls split
  obtain ⟨-, compacted, safe⟩ := careful
  have safe (others : compacts op = []) (name : Bytes) (member : name ∈ names) :
      Safe codec h (exec (StoreCall.apply codec) h (op.calls matchHeaders h)) name := by
    rw [StoreCall.calls_exec matchHeaders housed.ok messages]
    exact safe messages others name member
  have single {d : StoreCall} (only : op.calls matchHeaders h = [d]) : before = [] ∧ d = c := by
    rw [only] at split
    cases before with
    | nil => exact ⟨rfl, (List.cons.inj split).1⟩
    | cons e es => simp at split
  by_cases others : compacts op = []
  · have safe := safe others
    rcases calls_cases matchHeaders h op with inserts | ⟨queueName, id, removal⟩ |
      ⟨posts, queueName, id, t, rejection, inserts, found⟩ | ⟨queueName, rfl⟩ | ⟨queueName, rfl⟩
    · rw [split] at safe inserts
      exact reached_insert housed saved inserts safe
    · obtain ⟨rfl, rfl⟩ := single removal
      rw [removal, exec_cons, exec_nil] at safe
      exact reached_single housed saved safe
    · rw [rejection] at safe split
      exact reached_deadLetter housed saved inserts found split safe
    · obtain ⟨rfl, rfl⟩ := single rfl
      exact ⟨housed, Frame.refl h, fun name member => .refl (saved name member),
        fun _ _ _ same => StoreOp.noConfusion same, fun same => StoreOp.noConfusion same,
        fun _ reads => absurd rfl reads⟩
    · cases others
  · cases op with
    | compactQueue queueName =>
      obtain ⟨rfl, rfl⟩ := single rfl
      refine ⟨housed, Frame.refl h, fun name member => .refl (saved name member),
        fun _ _ _ same => StoreOp.noConfusion same, fun _ known => ?_,
        fun copies => absurd rfl copies⟩
      obtain ⟨store, stored⟩ := Option.isSome_iff_exists.mp known
      exact (compacted queueName List.mem_cons_self store stored).1
    | _ => exact absurd rfl others

end Run

section Crash

variable (codec : Codec) (matchHeaders : StrMap Bytes → StrMap Bytes → Bool) {names : List Bytes}

def partWay (h : VirtualHost) (op : HostOp) (calls : Nat) : VirtualHost :=
  exec (StoreCall.apply codec) h ((op.calls matchHeaders h).take calls)

def crashIn (h : VirtualHost) (op : HostOp) (call n : Nat) : FileSystem :=
  let before := partWay codec matchHeaders h op call
  match (op.calls matchHeaders h)[call]? with
  | none => before.fs
  | some c => c.crash codec n before

variable {codec matchHeaders} {h : VirtualHost} {t : DurableService}

theorem exec_baseDir (life : List LifeOp) :
    (exec (LifeOp.apply codec matchHeaders) h life).baseDir = h.baseDir := by
  induction life generalizing h with
  | nil => rfl
  | cons step life ih =>
    rw [exec_cons, ih]
    cases step with
    | host op => exact apply_baseDir codec matchHeaders h op
    | restart name exchanges seq => rfl

theorem crash_recalled (recalls : Recalls codec names h t) (oneByte : codec.MarksOneByte)
    (noZero : ∀ queueName ∈ names, 0 ∉ path h.baseDir queueName) {op : HostOp}
    (careful : Careful codec matchHeaders names h (.host op)) {call : Nat}
    (inside : call < (op.calls matchHeaders h).length) (n : Nat) (name : Bytes)
    (exchanges : StrMap Exchange) (seq : Nat) :
    ∃ calls, (calls = call ∨ calls = call + 1) ∧ ∀ queueName ∈ names,
      (VirtualHost.new name h.baseDir exchanges seq
        (crashIn codec matchHeaders h op call n)).kept codec queueName true =
          if t.durable queueName then
            (partWay codec matchHeaders h op calls).service.letters queueName
          else t.memory queueName := by
  have split : op.calls matchHeaders h = (op.calls matchHeaders h).take call ++
      (op.calls matchHeaders h)[call] :: (op.calls matchHeaders h).drop (call + 1) := by
    rw [← List.drop_eq_getElem_cons inside, List.take_append_drop]
  have reached : Reached codec names h (partWay codec matchHeaders h op call)
      (op.calls matchHeaders h)[call] :=
    reached_of_careful recalls.housed recalls.saved careful split
  have disk : crashIn codec matchHeaders h op call n =
      (op.calls matchHeaders h)[call].crash codec n (partWay codec matchHeaders h op call) := by
    rw [crashIn, List.getElem?_eq_getElem inside]
  have next : partWay codec matchHeaders h op (call + 1) =
      (op.calls matchHeaders h)[call].apply codec (partWay codec matchHeaders h op call) := by
    rw [partWay, List.take_add_one, List.getElem?_eq_getElem inside, exec_append]
    rfl
  obtain ⟨done, found⟩ := crash_call codec oneByte reached.housed
    (reached.frame.baseDir ▸ noZero)
    (fun queueName member => (reached.remembers queueName member).saved) reached.guarded n name
    exchanges seq
  refine ⟨if done then call + 1 else call, by cases done <;> simp, fun queueName member => ?_⟩
  have flag : (partWay codec matchHeaders h op call).isDurable queueName = h.isDurable queueName :=
    isDurable_congr reached.frame.queueMgr
  have unchanged := (reached.remembers queueName member).unchanged
  rw [disk, ← reached.frame.baseDir, recalls.durable]
  refine (found queueName member).trans ?_
  cases durable : h.isDurable queueName with
  | true =>
    rw [if_pos (flag.trans durable), if_pos rfl]
    cases done with
    | true => exact congrArg (fun k => k.service.letters queueName) next.symm
    | false => rfl
  | false =>
    rw [if_neg (by rw [flag.trans durable]; decide), if_neg Bool.false_ne_true]
    exact (unchanged (flag.trans durable)).trans (recalls.memory queueName member).symm

end Crash

/-- Whatever a host has lived through, when it dies in a call of a careful operation, after any
number of bytes, the next process finds the calls before it done, none of those behind it, and
this one done or not begun. What is not durable is as the disk remembered it. -/
theorem crashed_life_remembers (codec : Codec)
    (matchHeaders : StrMap Bytes → StrMap Bytes → Bool) (oneByte : codec.MarksOneByte)
    (names : List Bytes) (baseDir : Bytes) (fs : FileSystem) (apart : Apart names baseDir)
    (noZero : ∀ queueName ∈ names, 0 ∉ path baseDir queueName)
    (openable : ∀ queueName ∈ names, fs.openable (resolve (path baseDir queueName)) = true)
    (intact : ∀ queueName ∈ names, Intact codec (fs.content (resolve (path baseDir queueName))))
    (name : Bytes) (exchanges : StrMap Exchange) (seq : Nat) (life : List LifeOp) (op : HostOp)
    (careful : Along (LifeOp.apply codec matchHeaders) (Careful codec matchHeaders names)
      (VirtualHost.new name baseDir exchanges seq fs) (life ++ [.host op])) :
    let first := VirtualHost.new name baseDir exchanges seq fs
    let h := exec (LifeOp.apply codec matchHeaders) first life
    let t := final (DurableOp.act matchHeaders) (onDisk codec first)
      (readings (LifeOp.act codec matchHeaders) (LifeOp.reads codec) first life)
    let calls := op.calls matchHeaders h
    (calls ≠ [] → partWay codec matchHeaders h op calls.length =
      { op.apply codec matchHeaders h with seq := h.seq }) ∧
      ∀ call < calls.length, ∀ n name exchanges seq,
        ∃ k, (k = call ∨ k = call + 1) ∧ ∀ queueName ∈ names,
          (VirtualHost.new name h.baseDir exchanges seq
            (crashIn codec matchHeaders h op call n)).kept codec queueName true =
              if t.durable queueName then
                (partWay codec matchHeaders h op k).service.letters queueName
              else t.memory queueName := by
  intro first h t calls
  obtain ⟨lived, last, -⟩ := along_append.mp careful
  have recalls : Recalls codec names h t :=
    ((refines_durable codec matchHeaders names).run
      (Recalls.new apart openable intact name exchanges seq) lived).2
  refine ⟨fun some' => ?_, fun call inside n name exchanges seq =>
    crash_recalled recalls oneByte ((exec_baseDir life).symm ▸ noZero) last inside n name exchanges
      seq⟩
  obtain ⟨c, rest, split⟩ := List.exists_cons_of_ne_nil some'
  have messages : Frame.onMessages op = true :=
    messages_of_calls (show op.calls matchHeaders h = [] ++ c :: rest from split)
  rw [partWay, List.take_length]
  exact StoreCall.calls_exec matchHeaders recalls.housed.ok messages

def fannedLife : List LifeOp :=
  [.host (.declareExchange (str "e") .fanout false false ∅),
    .host (.declareQueue (str "q") true false false ∅), .host (.queueRuntimeStats (str "q")),
    .host (.declareQueue (str "r") true false false ∅), .host (.queueRuntimeStats (str "r")),
    .host (.bind (str "e") (str "q") [] ∅), .host (.bind (str "e") (str "r") [] ∅)]

/-- A publication to two queues, of which the second call is cut off after five bytes. -/
theorem crashed_life_remembers_example :
    let h := exec (LifeOp.apply Wire.codec fun _ _ => false) .blank fannedLife
    let t := final (DurableOp.act fun _ _ => false) (onDisk Wire.codec .blank)
      (readings (LifeOp.act Wire.codec fun _ _ => false) (LifeOp.reads Wire.codec) .blank
        fannedLife)
    let op : HostOp := .publishToExchange .stored (str "e") none (str "x")
    let fs := crashIn Wire.codec (fun _ _ => false) h op 1 5
    ∃ k, (k = 1 ∨ k = 2) ∧ ∀ queueName ∈ [str "q", str "r"],
      (VirtualHost.new (str "TestHost") h.baseDir ∅ 0 fs).kept Wire.codec queueName true =
        if t.durable queueName then
          (partWay Wire.codec (fun _ _ => false) h op k).service.letters queueName
        else t.memory queueName :=
  (crashed_life_remembers Wire.codec (fun _ _ => false) Wire.codec_marksOneByte
    [str "q", str "r"] (str "d") (.blank 4096 (by decide)) (by decide) (by decide) (fun _ _ => rfl)
    (by exact fun _ _ => intact_nil Wire.codec) (str "TestHost") ∅ 0 fannedLife
    (.publishToExchange .stored (str "e") none (str "x")) (by decide +kernel)).2 1
      (by decide +kernel) 5 (str "TestHost") ∅ 0

end HzMq.Durability
