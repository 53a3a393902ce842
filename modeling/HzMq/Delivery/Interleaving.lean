import HzMq.Delivery.Accounting

/-!
# Consume tasks that run at the same time

A consume task looks at the head of the queue and then, in a second step,
removes by the id it saw there; `queue_message` holds no lock over the two. The
tasks of the pool interleave with each other and with publications.
-/

namespace HzMq.Delivery

open FileStream VirtualHost QueueMessage Machine

structure Race where
  store : QueueMessage
  fs : FileSystem
  /-- The tasks that have made their first step. -/
  started : List Nat := []
  /-- The tasks between their two steps, each with what it has seen. -/
  holding : List (Nat × MessagePtr) := []
  /-- What each task got from `front`. -/
  obtained : List (Nat × MessagePtr) := []
  /-- What has left the queue. -/
  removed : List MessagePtr := []

inductive RaceStep
  | insert (bp : Option BasicProperties) (body : Bytes) (durable : Bool)
  | front (task : Nat)
  | remove (task : Nat)

section Step

variable (codec : Codec)

def RaceStep.apply (r : Race) : RaceStep → Race
  | .insert bp body durable =>
    let (_, store, fs) := r.store.insert codec r.fs bp body durable
    { r with store, fs }
  | .front task =>
    if task ∈ r.started then r
    else
      let r := { r with started := task :: r.started }
      match r.store.front with
      | none => r
      | some m =>
        { r with holding := (task, m) :: r.holding, obtained := (task, m) :: r.obtained }
  | .remove task =>
    match r.holding.find? fun e => e.1 = task with
    | none => r
    | some (_, m) =>
      let (store, fs) := r.store.remove codec r.fs m.id
      { r with
        store, fs
        holding := r.holding.eraseP fun e => e.1 = task
        removed := onlyIn r.store.msgs store.msgs ++ r.removed }

/-- No object went to two tasks, and none has left the queue without going to a task. -/
structure ExactlyOnce (r : Race) : Prop where
  once : ∀ task other m m', (task, m) ∈ r.obtained → (other, m') ∈ r.obtained →
    m.addr = m'.addr → task = other
  obtained : ∀ m ∈ r.removed, ∃ task, (task, m) ∈ r.obtained

/-- A task makes its first step only while no other is between its two steps. -/
def Alone (r : Race) : RaceStep → Prop
  | .front task => task ∈ r.started ∨ r.holding = []
  | _ => True

instance (r : Race) (step : RaceStep) : Decidable (Alone r step) := by
  cases step <;> unfold Alone <;> infer_instance

/-- What holds as long as the tasks do not overlap: the one message that is held is the head
of the queue, and no other one in the queue was ever obtained. -/
structure Serial (r : Race) : Prop where
  exactlyOnce : ExactlyOnce r
  numbered : r.store.Numbered
  head : r.holding = [] ∨
    ∃ task m rest, r.holding = [(task, m)] ∧ (task, m) ∈ r.obtained ∧ task ∈ r.started ∧
      r.store.msgs = m :: rest
  issued : ∀ e ∈ r.obtained, e.2.addr < r.store.pushed
  fresh : ∀ e ∈ r.obtained, e.2.addr ∈ r.store.msgs.map MessagePtr.addr → e ∈ r.holding

end Step

section Serial

variable {codec : Codec} {r : Race}

theorem Serial.insert (serial : Serial r) (bp : Option BasicProperties) (body : Bytes)
    (durable : Bool) : Serial (RaceStep.apply codec r (.insert bp body durable)) where
  exactlyOnce := ⟨serial.exactlyOnce.once, serial.exactlyOnce.obtained⟩
  numbered := serial.numbered.insert codec r.fs bp body durable
  head := by
    refine serial.head.imp_right ?_
    rintro ⟨task, m, rest, held, got, started, queued⟩
    refine ⟨task, m, rest ++ [inserted codec r.store r.fs bp body durable], held, got, started, ?_⟩
    simp only [RaceStep.apply, insert_msgs, queued, List.cons_append]
  issued e got := by
    simp only [RaceStep.apply, insert_pushed]
    exact Nat.lt_succ_of_lt (serial.issued e got)
  fresh e got queued := by
    refine serial.fresh e got ?_
    simp only [RaceStep.apply, insert_msgs, List.map_append, List.mem_append, List.map_cons,
      List.map_nil, List.mem_singleton, inserted_addr] at queued
    exact queued.resolve_right (Nat.ne_of_lt (serial.issued e got))

theorem front_of_empty {task : Nat} (new : task ∉ r.started) (empty : r.store.front = none) :
    RaceStep.apply codec r (.front task) = { r with started := task :: r.started } := by
  simp [RaceStep.apply, new, empty]

theorem front_of_head {task : Nat} {m : MessagePtr} (new : task ∉ r.started)
    (front : r.store.front = some m) :
    RaceStep.apply codec r (.front task) =
      { r with
        started := task :: r.started
        holding := (task, m) :: r.holding
        obtained := (task, m) :: r.obtained } := by
  simp [RaceStep.apply, new, front]

theorem msgs_of_front {q : QueueMessage} {m : MessagePtr} (front : q.front = some m) :
    ∃ rest, q.msgs = m :: rest :=
  List.head?_eq_some_iff.mp front

theorem Serial.front (serial : Serial r) {task : Nat} (alone : Alone r (.front task)) :
    Serial (RaceStep.apply codec r (.front task)) := by
  by_cases started : task ∈ r.started
  · rwa [RaceStep.apply, if_pos started]
  have idle := alone.resolve_left started
  cases front : r.store.front with
  | none =>
    rw [front_of_empty started front]
    exact ⟨⟨serial.exactlyOnce.once, serial.exactlyOnce.obtained⟩, serial.numbered, Or.inl idle,
      serial.issued, serial.fresh⟩
  | some m =>
    obtain ⟨rest, queued⟩ := msgs_of_front front
    have never : ∀ e ∈ r.obtained, e.2.addr ≠ m.addr := by
      intro e got same
      have held := serial.fresh e got (by simp [queued, same])
      rw [idle] at held
      cases held
    rw [front_of_head started front]
    refine ⟨⟨?_, ?_⟩, serial.numbered, Or.inr ⟨task, m, rest, ?_⟩, ?_, ?_⟩
    · intro t u x y gotX gotY same
      rcases List.mem_cons.mp gotX with isX | oldX
      · cases isX
        rcases List.mem_cons.mp gotY with isY | oldY
        · cases isY
          rfl
        · exact absurd same.symm (never (u, y) oldY)
      · rcases List.mem_cons.mp gotY with isY | oldY
        · cases isY
          exact absurd same (never (t, x) oldX)
        · exact serial.exactlyOnce.once t u x y oldX oldY same
    · intro x gone
      obtain ⟨t, got⟩ := serial.exactlyOnce.obtained x gone
      exact ⟨t, List.mem_cons_of_mem _ got⟩
    · exact ⟨by simp [idle], List.mem_cons_self, List.mem_cons_self, queued⟩
    · intro e got
      rcases List.mem_cons.mp got with rfl | old
      · exact serial.numbered.2 m (by simp [queued])
      · exact serial.issued e old
    · intro e got here
      rcases List.mem_cons.mp got with rfl | old
      · exact List.mem_cons_self
      · exact List.mem_cons_of_mem _ (serial.fresh e old here)

/-- The task that holds the head removes the head, whatever its id. -/
theorem remove_of_head (numbered : r.store.Numbered) {task : Nat} {e : Nat × MessagePtr}
    (found : r.holding.find? (fun e => e.1 = task) = some e) {rest : List MessagePtr}
    (queued : r.store.msgs = e.2 :: rest) :
    RaceStep.apply codec r (.remove task) =
      { r with
        store := { r.store with
          msgs := rest, file := (invalidatePersistent codec r.store.file r.fs e.2.msg).1 }
        fs := (invalidatePersistent codec r.store.file r.fs e.2.msg).2
        holding := r.holding.eraseP fun e => e.1 = task
        removed := e.2 :: r.removed } := by
  have removal := remove_of_target codec r.store r.fs (queued ▸ target_head e.2 rest)
  have distinct : ((([] : List MessagePtr) ++ e.2 :: rest).map MessagePtr.addr).Nodup := by
    rw [List.nil_append, ← queued]
    exact numbered.1.imp fun h => Nat.ne_of_lt h
  have one : onlyIn (e.2 :: rest) rest = [e.2] := by
    simpa using @onlyIn_removed [] rest [] e.2 distinct List.not_mem_nil
  simp [RaceStep.apply, found, removal, queued, one]

theorem Serial.remove (serial : Serial r) (task : Nat) :
    Serial (RaceStep.apply codec r (.remove task)) := by
  cases held : r.holding.find? fun e => e.1 = task with
  | none =>
    simp only [RaceStep.apply, held]
    exact serial
  | some e =>
    rcases serial.head with idle | ⟨t, x, rest, single, got, started, queued⟩
    · simp [idle] at held
    · obtain ⟨own, rfl⟩ : t = task ∧ (t, x) = e := by
        rw [single, List.find?_singleton] at held
        split at held
        · next own => exact ⟨of_decide_eq_true own, Option.some.inj held⟩
        · cases held
      have distinct : ((x :: rest).map MessagePtr.addr).Nodup := by
        rw [← queued]
        exact serial.numbered.1.imp fun h => Nat.ne_of_lt h
      have later := serial.numbered.remove codec r.fs x.id
      rw [remove_of_target codec r.store r.fs (queued ▸ target_head x rest)] at later
      have idle : r.holding.eraseP (fun e => e.1 = task) = [] := by simp [single, own]
      rw [remove_of_head serial.numbered held queued]
      refine ⟨⟨serial.exactlyOnce.once, ?_⟩, later, Or.inl idle, serial.issued, ?_⟩
      · intro y gone
        rcases List.mem_cons.mp gone with rfl | before
        · exact ⟨t, got⟩
        · exact serial.exactlyOnce.obtained y before
      · intro e gotE here
        have held := serial.fresh e gotE (by
          rw [queued]
          exact List.mem_cons_of_mem _ here)
        rw [single, List.mem_singleton] at held
        subst held
        exact absurd here (List.nodup_cons.mp distinct).1

theorem Serial.apply (serial : Serial r) {step : RaceStep} (alone : Alone r step) :
    Serial (step.apply codec r) := by
  cases step with
  | insert bp body durable => exact serial.insert bp body durable
  | front task => exact serial.front alone
  | remove task => exact serial.remove task

/-- A second task that looks while one holds the head gets the same object. -/
theorem alone_of_exactlyOnce (serial : Serial r) {step : RaceStep}
    (next : ExactlyOnce (step.apply codec r)) : Alone r step := by
  cases step with
  | insert bp body durable => trivial
  | remove task => trivial
  | front task =>
    by_cases started : task ∈ r.started
    · exact Or.inl started
    rcases serial.head with idle | ⟨t, x, rest, single, got, startedT, queued⟩
    · exact Or.inr idle
    · have front : r.store.front = some x := by simp [QueueMessage.front, queued]
      rw [front_of_head started front] at next
      have same := next.once task t x x List.mem_cons_self (List.mem_cons_of_mem _ got) rfl
      exact absurd (same ▸ startedT) started

end Serial

/-- In a run of consume tasks and publications on a queue, every message goes to one task at
most and every removed message went to one, exactly when no task looks at the head while
another is between its two steps. -/
theorem exactly_once_iff (codec : Codec) (matchHeaders : StrMap Bytes → StrMap Bytes → Bool)
    {h : VirtualHost} (reached : h.Reachable codec matchHeaders) {queueName : Bytes}
    {store : QueueMessage} (found : h.queueMessages.lookup queueName = some store)
    (steps : List RaceStep) :
    Along (RaceStep.apply codec) (fun r step => ExactlyOnce (step.apply codec r))
        { store, fs := h.fs } steps ↔
      Along (RaceStep.apply codec) Alone { store, fs := h.fs } steps := by
  have start : Serial { store, fs := h.fs } :=
    ⟨⟨by simp, by simp⟩, (Reachable.wellFormed reached).numbered queueName store found,
      Or.inl rfl, by simp, by simp⟩
  refine along_congr Serial (fun r step serial => ?_) (fun r step serial alone => ?_) start steps
  · exact ⟨alone_of_exactlyOnce serial, fun alone => (serial.apply alone).exactlyOnce⟩
  · exact serial.apply alone

/-- A task whose two steps are not interrupted does what `basic_consume` does at once. -/
theorem uninterrupted_eq_basicConsume (codec : Codec) {h : VirtualHost} {queueName : Bytes}
    {store : QueueMessage} (found : h.queueMessages.lookup queueName = some store) (task : Nat) :
    let r := exec (RaceStep.apply codec) { store, fs := h.fs } [.front task, .remove task]
    h.basicConsume codec queueName =
      (r.obtained.head?.map Prod.snd,
        match r.obtained with
        | [] => h
        | _ :: _ => h.withStore queueName r.store r.fs) := by
  simp only [VirtualHost.basicConsume, takeFront, found, exec_cons, exec_nil]
  cases front : store.front with
  | none => simp [RaceStep.apply, front]
  | some m => simp [RaceStep.apply, front]

def racedHost : VirtualHost :=
  exec (HostOp.apply Wire.codec fun _ _ => false) .blank
    [.declareQueue (str "q") false false false ∅, .basicPublish (str "q") none (str "x"),
      .basicPublish (str "q") none (str "y")]

theorem racedHost_reachable : racedHost.Reachable Wire.codec fun _ _ => false :=
  Reachable.exec (.start blank_initial) _

def racedStore : QueueMessage :=
  (racedHost.queueMessages.lookup (str "q")).getD { filePath := [], file := {} }

theorem racedStore_stored : racedHost.queueMessages.lookup (str "q") = some racedStore := by
  rfl

theorem exactly_once_example :
    Along (RaceStep.apply Wire.codec) (fun r step => ExactlyOnce (step.apply Wire.codec r))
      { store := racedStore, fs := racedHost.fs }
      [.front 0, .insert none (str "z") false, .remove 0, .front 1, .remove 1] :=
  (exactly_once_iff Wire.codec (fun _ _ => false) racedHost_reachable racedStore_stored _).mpr
    (by decide)

/-- Two tasks look before one of them removes: both get the first message, and the second
message leaves the queue without going to anybody. -/
theorem exactly_once_fails :
    let r := exec (RaceStep.apply Wire.codec) { store := racedStore, fs := racedHost.fs }
      [.front 0, .front 1, .remove 0, .remove 1]
    ¬ExactlyOnce r ∧ r.obtained.map (fun e => e.2.body) = [str "x", str "x"] ∧
      r.removed.map MessagePtr.body = [str "y", str "x"] ∧ r.store.msgs = [] := by
  refine ⟨?_, by decide, by decide, by decide⟩
  intro exactlyOnce
  have same := exactlyOnce.once 0 1 (racedStore.front.getD ⟨0, {}⟩) (racedStore.front.getD ⟨0, {}⟩)
    (by decide) (by decide) rfl
  cases same

end HzMq.Delivery
