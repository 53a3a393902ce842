import HzMq.Common.Wire
import HzMq.Persistence.Operations

/-!
# Clean restarts

Histories of sessions on one file. `recovery` reads until the end of the file
and leaves the stream failed, and only `get_stats` clears it: what a session
inserts or removes before that never reaches the file.
-/

namespace HzMq.Persistence

open FileStream FramedLog QueueMessage Machine

inductive HistoryStep
  | op (operation : StoreOp)
  | restart
  deriving DecidableEq

namespace HistoryStep

variable (codec : Codec) (baseDir queueName : Bytes)

def apply (store : Store) : HistoryStep → Store
  | .op operation => operation.apply codec store
  | .restart => start codec store.2 baseDir queueName

def inScope : HistoryStep → Bool
  | .op (.insert _ _ durable) => durable
  | .op .compact => false
  | _ => true

def Writable (store : Store) : HistoryStep → Prop
  | .op operation => Persistence.Writable codec store operation
  | .restart => True

instance (store : Store) (step : HistoryStep) : Decidable (step.Writable codec store) :=
  match step with
  | .op operation => inferInstanceAs (Decidable (Persistence.Writable codec store operation))
  | .restart => isTrue trivial

/-- The stream is healthy whenever an insert or an effective removal needs it. -/
def StreamReady (store : Store) : HistoryStep → Prop
  | .op (.insert _ _ _) => store.1.file.ready = true
  | .op (.remove id) => target store.1.msgs id = none ∨ store.1.file.ready = true
  | _ => True

instance (store : Store) (step : HistoryStep) : Decidable (step.StreamReady store) :=
  match step with
  | .op (.insert _ _ _) => inferInstanceAs (Decidable (_ = _))
  | .op (.remove _) => inferInstanceAs (Decidable (_ ∨ _))
  | .op .getStats => isTrue trivial
  | .op .compact => isTrue trivial
  | .restart => isTrue trivial

end HistoryStep

section Restart

variable {codec : Codec} {baseDir queueName : Bytes}

/-- Every message in memory has its record, and the file holds nothing else that
is valid. The stream may be healthy or failed. -/
structure Synced (codec : Codec) (baseDir queueName : Bytes) (store : Store) : Prop where
  filePath : store.1.filePath = path baseDir queueName
  allTracked : ∀ m ∈ store.1.msgs, tracked m = true
  backed : ∃ slots, Healthy codec store slots [] ∨ Failed codec store slots []

namespace Synced

variable {store : Store}

theorem healthy (synced : Synced codec baseDir queueName store)
    (ready : store.1.file.ready = true) : ∃ slots, Healthy codec store slots [] := by
  obtain ⟨slots, healthy | failed⟩ := synced.backed
  · exact ⟨slots, healthy⟩
  · exact absurd failed.failbit (by simp [(Stream.ready_iff.mp ready).2.1])

theorem attached (synced : Synced codec baseDir queueName store) :
    Attached store ∧ ∃ slots, Backed codec store.1.msgs (content store) slots [] := by
  obtain ⟨slots, healthy | failed⟩ := synced.backed
  · exact ⟨healthy.attached, slots, healthy.backed⟩
  · exact ⟨failed.attached, slots, failed.backed⟩

theorem insert (synced : Synced codec baseDir queueName store) {bp : Option BasicProperties}
    {body : Bytes} (writable : Writable codec store (.insert bp body true))
    (ready : store.1.file.ready = true) :
    Synced codec baseDir queueName (StoreOp.apply codec store (.insert bp body true)) := by
  obtain ⟨slots, healthy⟩ := synced.healthy ready
  obtain ⟨-, nextMsgs, -⟩ := healthy.apply_insert bp body writable
  refine ⟨synced.filePath, ?_, _, Or.inl (healthy.insert_durable bp body writable)⟩
  intro m member
  rw [nextMsgs] at member
  rcases List.mem_append.mp member with old | new
  · exact synced.allTracked m old
  · rw [List.mem_singleton.mp new]
    exact written_tracked bp body

theorem remove (synced : Synced codec baseDir queueName store) {id : Bytes}
    (ready : target store.1.msgs id = none ∨ store.1.file.ready = true) :
    Synced codec baseDir queueName (StoreOp.apply codec store (.remove id)) := by
  cases found : target store.1.msgs id with
  | none =>
    rw [apply_remove_miss found]
    exact synced
  | some pair =>
    obtain ⟨m, rest⟩ := pair
    obtain ⟨slots, healthy⟩ := synced.healthy (ready.resolve_left (by simp [found]))
    have inDeque := fun x => mem_of_target (x := x) found
    obtain ⟨first, s, last, -, -, -, next⟩ := healthy.remove_tracked found
      (synced.allTracked m ((inDeque m).mpr (Or.inl rfl)))
    refine ⟨by simp [synced.filePath], ?_, _, Or.inl next⟩
    intro x member
    rw [apply_remove_msgs codec found] at member
    exact synced.allTracked x ((inDeque x).mpr (Or.inr member))

theorem getStats (synced : Synced codec baseDir queueName store) :
    Synced codec baseDir queueName (StoreOp.apply codec store .getStats) := by
  obtain ⟨attached, slots, backed⟩ := synced.attached
  refine ⟨by simp [synced.filePath], ?_, slots, Or.inl (attached.heal backed)⟩
  simpa [StoreOp.apply] using synced.allTracked

theorem of_records {fs : FileSystem}
    (present : (fs.files (resolve (path baseDir queueName))).isSome)
    (openable : fs.openable (resolve (path baseDir queueName)) = true) {slots : List Slot}
    (logged : Logged codec (fs.content (resolve (path baseDir queueName))) slots []) :
    Synced codec baseDir queueName (start codec fs baseDir queueName) := by
  have failed := start_of_records present openable logged rfl
  refine ⟨by simp [start], ?_, _, Or.inr failed⟩
  intro m member
  rw [(start_of_present codec present openable).1] at member
  exact logged.tracked_of_loaded rfl (content_length_lt_noOffset fs _)
    (MessagePtr.mem_number member)

theorem restart (synced : Synced codec baseDir queueName store) :
    Synced codec baseDir queueName (start codec store.2 baseDir queueName) ∧
      (start codec store.2 baseDir queueName).1.msgs.map MessagePtr.payload =
        store.1.msgs.map MessagePtr.payload := by
  obtain ⟨attached, slots, backed⟩ := synced.attached
  have yields := attached.restart_yields synced.filePath backed rfl
  rw [List.filter_eq_self.mpr synced.allTracked] at yields
  have payloads := congrArg (List.map Message.payload) yields
  rw [List.map_map, List.map_map] at payloads
  simp only [content, synced.filePath] at backed
  exact ⟨of_records (synced.filePath ▸ attached.present) (synced.filePath ▸ attached.openable)
    backed.toLogged, payloads⟩

theorem step (synced : Synced codec baseDir queueName store) {e : HistoryStep}
    (scope : e.inScope = true) (writable : e.Writable codec store) (ready : e.StreamReady store) :
    Synced codec baseDir queueName (e.apply codec baseDir queueName store) := by
  cases e with
  | restart => exact synced.restart.1
  | op operation =>
    cases operation with
    | insert bp body durable =>
      obtain rfl : durable = true := scope
      exact synced.insert writable ready
    | remove id => exact synced.remove ready
    | getStats => exact synced.getStats
    | compact => cases scope

end Synced

/-- The condition under which messages survive restarts: in every session the
stream has been cleared by `get_stats` before anything is inserted or removed. -/
theorem restart_restores_queue {fs : FileSystem}
    (absent : fs.files (resolve (path baseDir queueName)) = none)
    (openable : fs.openable (resolve (path baseDir queueName)) = true)
    (history : List HistoryStep) (scope : ∀ e ∈ history, e.inScope = true)
    (writable : Along (HistoryStep.apply codec baseDir queueName)
      (fun store e => e.Writable codec store) (start codec fs baseDir queueName) history)
    (ready : Along (HistoryStep.apply codec baseDir queueName)
      (fun store e => e.StreamReady store) (start codec fs baseDir queueName) history) :
    let store := exec (HistoryStep.apply codec baseDir queueName)
      (start codec fs baseDir queueName) history
    (HistoryStep.apply codec baseDir queueName store .restart).1.msgs.map MessagePtr.payload =
      store.1.msgs.map MessagePtr.payload := by
  have first : Synced codec baseDir queueName (start codec fs baseDir queueName) := by
    rw [start_of_absent codec absent openable]
    exact Synced.of_records (by simp [FileSystem.files_put_self]) (by simpa using openable)
      (by simpa using Backed.empty.toLogged)
  have steps := (along_of_forall (fun e member _ => scope e member) _).and (writable.and ready)
  have last : Synced codec baseDir queueName (exec (HistoryStep.apply codec baseDir queueName)
      (start codec fs baseDir queueName) history) :=
    steps.invariant (fun _ _ synced step => synced.step step.1 step.2.1 step.2.2) first
  exact last.restart.2

end Restart

/-- Two sessions that call `get_stats` first: the second starts with what the first left. -/
theorem restart_restores_queue_example :
    let history : List HistoryStep :=
      [.op .getStats, .op (.insert (some { id := str "a" }) (str "x") true),
        .op (.insert (some { id := str "b" }) (str "y") true), .restart, .op .getStats,
        .op (.remove (str "a"))]
    let store := exec (HistoryStep.apply Wire.codec (str "d") (str "q"))
      (start Wire.codec (.blank 4096 (by decide)) (str "d") (str "q")) history
    (HistoryStep.apply Wire.codec (str "d") (str "q") store .restart).1.msgs.map
      MessagePtr.payload = store.1.msgs.map MessagePtr.payload :=
  restart_restores_queue rfl rfl _ (by decide) (by decide) (by decide)

/-- A first session inserts one durable message; the second session starts empty. -/
theorem restart_loses_message :
    let history : List HistoryStep := [.op (.insert (some { id := str "a" }) (str "x") true)]
    let first := start Wire.codec (.blank 4096 (by decide)) (str "d") (str "q")
    let store := exec (HistoryStep.apply Wire.codec (str "d") (str "q")) first history
    (∀ e ∈ history, e.inScope = true) ∧
      Along (HistoryStep.apply Wire.codec (str "d") (str "q"))
        (fun store e => e.Writable Wire.codec store) first history ∧
      store.1.msgs.map MessagePtr.body = [str "x"] ∧
      (HistoryStep.apply Wire.codec (str "d") (str "q") store .restart).1.msgs = [] := by
  decide

end HzMq.Persistence
