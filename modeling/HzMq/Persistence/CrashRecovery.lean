import HzMq.Common.Wire
import HzMq.Library.Refinement
import HzMq.Persistence.Crash

/-!
# A queue that outlives its process

What the file of a queue is for: payloads that are kept, and a count of the records that
are of no use any more. Whenever the process dies, the next one finds what the file
stood for, with the operation that was cut off either done or not begun.
-/

namespace HzMq.Persistence

open FileStream FramedLog QueueMessage Machine

@[ext]
structure Ledger where
  kept : List MessagePayload
  dead : Nat

namespace Ledger

def without (id : Bytes) (kept : List MessagePayload) : List MessagePayload :=
  if id = [] then kept.tail else kept.eraseP fun p => p.properties.id == id

structure Counts where
  depth : Nat
  total : Nat
  invalid : Nat
  deriving DecidableEq

inductive Op
  | put (p : MessagePayload)
  | take (id : Bytes)
  | count
  | sweep

def act (t : Ledger) : Op → List Counts × Ledger
  | .put p => ([], { t with kept := t.kept ++ [p] })
  | .take id =>
    let kept := without id t.kept
    ([], ⟨kept, t.dead + (t.kept.length - kept.length)⟩)
  | .count => ([⟨t.kept.length, t.kept.length + t.dead, t.dead⟩], t)
  | .sweep => ([], { t with dead := 0 })

def ofPayloads (payloads : List MessagePayload) : Ledger where
  kept := payloads.filter fun p => p.valid == validMark
  dead := payloads.countP fun p => !(p.valid == validMark)

def read (codec : Codec) (bytes : Bytes) : Ledger :=
  ofPayloads ((readable codec bytes).map Entry.value)

end Ledger

/-- A step in the life of a queue's file; in the middle of an operation the process may die, and
another one then opens the file. -/
inductive CrashStep
  | op (operation : StoreOp)
  | restart
  | crash (operation : StoreOp) (n : Nat)
  deriving DecidableEq

section Model

variable (codec : Codec) (baseDir queueName : Bytes) (store : Store)

namespace StoreOp

def reads : StoreOp → Ledger.Op
  | .insert bp body _ => .put (marked bp body)
  | .remove id => .take id
  | .getStats => .count
  | .compact => .sweep

def counts : StoreOp → List Ledger.Counts
  | .getStats =>
    let stats := (store.1.getStats codec store.2).1
    [⟨stats.depth, stats.total, stats.invalid⟩]
  | _ => []

def done (n : Nat) : StoreOp → Bool
  | .insert bp body _ => (frame (codec.serializeToString (marked bp body))).length ≤ n
  | .remove id => (target store.1.msgs id).any fun found => turnsOver codec n found.1.payload
  | _ => false

/-- Records are appended behind whole records only, and nothing is to be written on a stream that
refuses it, or that there is no room for. -/
def Safe : StoreOp → Prop
  | .insert bp body durable => durable = true ∧ store.1.file.ready = true ∧
      Whole codec.parseFromString (content store) ∧ Writable codec store (.insert bp body true)
  | .remove id => target store.1.msgs id = none ∨ store.1.file.ready = true
  | .getStats => True
  | .compact => Writable codec store .compact

instance (operation : StoreOp) : Decidable (operation.Safe codec store) :=
  match operation with
  | .insert _ _ _ => inferInstanceAs (Decidable (_ ∧ _ ∧ _ ∧ _))
  | .remove _ => inferInstanceAs (Decidable (_ ∨ _))
  | .getStats => isTrue trivial
  | .compact => inferInstanceAs (Decidable (Writable codec store .compact))

end StoreOp

namespace CrashStep

def act : CrashStep → List Ledger.Counts × Store
  | .op operation => (operation.counts codec store, operation.apply codec store)
  | .restart => ([], start codec store.2 baseDir queueName)
  | .crash operation n => ([], start codec (operation.crash codec n store) baseDir queueName)

def reads : CrashStep → Option Ledger.Op
  | .op operation => some operation.reads
  | .restart => none
  | .crash operation n => if operation.done codec store n then some operation.reads else none

def Safe : CrashStep → Prop
  | .op operation => operation.Safe codec store
  | .restart => True
  | .crash operation _ => operation = .compact ∨ operation.Safe codec store

instance (step : CrashStep) : Decidable (step.Safe codec store) :=
  match step with
  | .op operation => inferInstanceAs (Decidable (operation.Safe codec store))
  | .restart => isTrue trivial
  | .crash _ _ => inferInstanceAs (Decidable (_ ∨ _))

end CrashStep

end Model

section Read

variable {codec : Codec} {slots : List Slot} {bytes tail : Bytes}

theorem Logged.read_eq (logged : Logged codec bytes slots tail) (stop : unframe? tail = none) :
    Ledger.read codec bytes = .ofPayloads (slots.map Slot.payload) := by
  rw [Ledger.read, readable, logged.scan_eq stop, layout_values]

theorem live_payloads (slots : List Slot) :
    ((placed codec slots).filter live).map (fun e => (pointer e).payload) =
      (Ledger.ofPayloads (slots.map Slot.payload)).kept := by
  have values := layout_values (Slot.record codec) 0 slots
  change _ = (slots.map Slot.payload).filter _
  nth_rewrite 2 [← values]
  rw [List.map_map, List.filter_map]
  rfl

theorem ofPayloads_total (payloads : List MessagePayload) :
    payloads.length =
      (Ledger.ofPayloads payloads).kept.length + (Ledger.ofPayloads payloads).dead := by
  have split := List.length_eq_countP_add_countP (fun p => p.valid == validMark) (l := payloads)
  simpa only [Ledger.ofPayloads, ← List.countP_eq_length_filter, decide_not,
    Bool.decide_eq_true] using split

end Read

/-- What is no longer kept is dead, as long as no record gets lost. -/
theorem take_eq {payloads payloads' : List MessagePayload} {id : Bytes}
    (same : payloads'.length = payloads.length)
    (kept : (Ledger.ofPayloads payloads').kept =
      Ledger.without id (Ledger.ofPayloads payloads).kept) :
    Ledger.ofPayloads payloads' = ((Ledger.ofPayloads payloads).act (.take id)).2 := by
  have fewer : (Ledger.without id (Ledger.ofPayloads payloads).kept).length ≤
      (Ledger.ofPayloads payloads).kept.length := by
    rw [Ledger.without]
    split
    · exact (List.tail_sublist _).length_le
    · exact (List.eraseP_sublist).length_le
  have total := ofPayloads_total payloads
  have total' := ofPayloads_total payloads'
  refine Ledger.ext kept ?_
  simp only [Ledger.act]
  rw [kept] at total'
  omega

theorem without_payloads (msgs : List MessagePtr) (id : Bytes) :
    Ledger.without id (msgs.map MessagePtr.payload) =
      ((target msgs id).elim msgs Prod.snd).map MessagePtr.payload := by
  cases msgs with
  | nil => simp [Ledger.without]
  | cons head rest =>
    by_cases empty : id = []
    · simp [Ledger.without, target, empty]
    · have same : (fun p : MessagePayload => p.properties.id == id) ∘ MessagePtr.payload =
          fun m => m.id == id := rfl
      simp only [Ledger.without, target, if_neg empty, List.eraseP_map, same]
      cases found : (head :: rest).find? fun m => m.id == id with
      | none => rw [List.eraseP_of_forall_not (List.find?_eq_none.mp found)]; rfl
      | some m => rfl

/-- What holds in every state: all that is queued is on record, and the records, up to a piece of
one that a crash may have left, stand for `t`. -/
structure Recorded (codec : Codec) (baseDir queueName : Bytes) (store : Store) (t : Ledger) :
    Prop where
  filePath : store.1.filePath = path baseDir queueName
  allTracked : ∀ m ∈ store.1.msgs, tracked m = true
  backed : ∃ slots tail, unframe? tail = none ∧
    (Healthy codec store slots tail ∨ Failed codec store slots tail) ∧
    .ofPayloads (slots.map Slot.payload) = t

namespace Recorded

variable {codec : Codec} {baseDir queueName : Bytes} {store : Store} {t : Ledger}

theorem attached (recorded : Recorded codec baseDir queueName store t) :
    Attached store ∧ ∃ slots tail, unframe? tail = none ∧
      Backed codec store.1.msgs (content store) slots tail ∧
      .ofPayloads (slots.map Slot.payload) = t := by
  obtain ⟨slots, tail, stop, healthy | failed, stands⟩ := recorded.backed
  · exact ⟨healthy.attached, slots, tail, stop, healthy.backed, stands⟩
  · exact ⟨failed.attached, slots, tail, stop, failed.backed, stands⟩

theorem healthy (recorded : Recorded codec baseDir queueName store t)
    (ready : store.1.file.ready = true) :
    ∃ slots tail, unframe? tail = none ∧ Healthy codec store slots tail ∧
      .ofPayloads (slots.map Slot.payload) = t := by
  obtain ⟨slots, tail, stop, healthy | failed, stands⟩ := recorded.backed
  · exact ⟨slots, tail, stop, healthy, stands⟩
  · exact absurd failed.failbit (by simp [(Stream.ready_iff.mp ready).2.1])

theorem read_eq (recorded : Recorded codec baseDir queueName store t) :
    Ledger.read codec (content store) = t := by
  obtain ⟨-, slots, tail, stop, backed, stands⟩ := recorded.attached
  rw [backed.toLogged.read_eq stop, stands]

theorem kept (recorded : Recorded codec baseDir queueName store t) :
    store.1.msgs.map MessagePtr.payload = t.kept := by
  obtain ⟨-, slots, tail, stop, backed, stands⟩ := recorded.attached
  rw [← List.filter_eq_self.mpr recorded.allTracked, backed.tracked_eq, List.map_map, ← stands]
  exact live_payloads slots

theorem restores (recorded : Recorded codec baseDir queueName store t) {m : MessagePtr}
    (queued : m ∈ store.1.msgs) : Restores codec m.payload := by
  obtain ⟨-, slots, tail, -, backed, -⟩ := recorded.attached
  exact backed.restores_of_tracked queued (recorded.allTracked m queued)

theorem opened {fs : FileSystem} {bytes tail : Bytes} {slots : List Slot}
    (holds : Holds (path baseDir queueName) fs bytes) (logged : Logged codec bytes slots tail)
    (stop : unframe? tail = none) :
    Recorded codec baseDir queueName (start codec fs baseDir queueName)
      (.ofPayloads (slots.map Slot.payload)) := by
  have present := Option.isSome_of_eq_some holds.stored
  have bytesEq : fs.content (resolve (path baseDir queueName)) = bytes := by
    rw [FileSystem.content, holds.stored, Option.getD_some]
  have failed := start_of_records present holds.openable (bytesEq.symm ▸ logged) stop
  refine ⟨by simp [start], ?_, _, _, stop, Or.inr failed, by rw [relabel_payloads]⟩
  intro m member
  rw [(start_of_present codec present holds.openable).1, bytesEq] at member
  refine logged.tracked_of_loaded stop ?_ (MessagePtr.mem_number member)
  rw [← bytesEq]
  exact content_length_lt_noOffset fs _

theorem reopened (recorded : Recorded codec baseDir queueName store t) {fs : FileSystem}
    (holds : Holds store.1.filePath fs (content store)) :
    Recorded codec baseDir queueName (start codec fs baseDir queueName) t := by
  obtain ⟨-, slots, tail, stop, backed, rfl⟩ := recorded.attached
  exact opened (recorded.filePath ▸ holds) backed.toLogged stop

theorem whole (recorded : Recorded codec baseDir queueName store t)
    (ready : store.1.file.ready = true)
    (whole : Whole codec.parseFromString (content store)) :
    ∃ slots, Healthy codec store slots [] ∧ .ofPayloads (slots.map Slot.payload) = t := by
  obtain ⟨slots, tail, stop, healthy, stands⟩ := recorded.healthy ready
  rw [Whole, healthy.backed.toLogged.scan_eq stop] at whole
  obtain rfl : tail = [] := whole
  exact ⟨slots, healthy, stands⟩

theorem insert (recorded : Recorded codec baseDir queueName store t)
    {bp : Option BasicProperties} {body : Bytes} {durable : Bool}
    (safe : StoreOp.Safe codec store (.insert bp body durable)) :
    Recorded codec baseDir queueName (StoreOp.apply codec store (.insert bp body durable))
      (t.act (.put (marked bp body))).2 := by
  obtain ⟨rfl, ready, isWhole, writable⟩ := safe
  obtain ⟨slots, healthy, rfl⟩ := recorded.whole ready isWhole
  obtain ⟨-, nextMsgs, -⟩ := healthy.apply_insert bp body writable
  refine ⟨recorded.filePath, ?_, _, _, rfl,
    Or.inl (healthy.insert_durable bp body writable), ?_⟩
  · intro m member
    rw [nextMsgs] at member
    rcases List.mem_append.mp member with old | new
    · exact recorded.allTracked m old
    · rw [List.mem_singleton.mp new]
      exact written_tracked bp body
  · simp [Ledger.ofPayloads, Ledger.act]

theorem remove (recorded : Recorded codec baseDir queueName store t) {id : Bytes}
    (safe : StoreOp.Safe codec store (.remove id)) :
    Recorded codec baseDir queueName (StoreOp.apply codec store (.remove id))
      (t.act (.take id)).2 := by
  have kept := recorded.kept
  cases found : target store.1.msgs id with
  | none =>
    have same : Ledger.without id t.kept = t.kept := by
      rw [← kept, without_payloads, found]
      rfl
    rw [apply_remove_miss found]
    simpa [Ledger.act, same] using recorded
  | some pair =>
    obtain ⟨m, rest⟩ := pair
    obtain ⟨slots, tail, stop, healthy, rfl⟩ :=
      recorded.healthy (safe.resolve_left (by simp [found]))
    have inDeque := fun x => mem_of_target (x := x) found
    obtain ⟨first, s, last, rfl, -, payload, next⟩ := healthy.remove_tracked found
      (recorded.allTracked m ((inDeque m).mpr (Or.inl rfl)))
    have after : ∀ x ∈ (StoreOp.apply codec store (.remove id)).1.msgs, tracked x = true := by
      intro x member
      rw [apply_remove_msgs codec found] at member
      exact recorded.allTracked x ((inDeque x).mpr (Or.inr member))
    have removed : Recorded codec baseDir queueName (StoreOp.apply codec store (.remove id)) _ :=
      ⟨by simp [recorded.filePath], after, _, tail, stop, Or.inl next, rfl⟩
    have keptAfter := removed.kept
    rw [apply_remove_msgs codec found] at keptAfter
    have taken : Ledger.ofPayloads
        ((first ++ ⟨s.owner, m.payload.setValid invalidMark⟩ :: last).map Slot.payload) =
          ((Ledger.ofPayloads ((first ++ s :: last).map Slot.payload)).act (.take id)).2 := by
      refine take_eq (by simp) ?_
      rw [← keptAfter, ← kept, without_payloads, found]
      rfl
    exact taken ▸ removed

theorem getStats (recorded : Recorded codec baseDir queueName store t) :
    Recorded codec baseDir queueName (StoreOp.apply codec store .getStats) t ∧
      StoreOp.counts codec store .getStats = (t.act .count).1 := by
  obtain ⟨attached, slots, tail, stop, backed, stands⟩ := recorded.attached
  refine ⟨⟨by simp [recorded.filePath], by simpa [StoreOp.apply] using recorded.allTracked,
    slots, tail, stop, Or.inl (attached.heal backed), stands⟩, ?_⟩
  obtain ⟨total, invalid⟩ := getStats_counts codec store.1 store.2 attached.isOpen
  have depth : (store.1.getStats codec store.2).1.depth = store.1.msgs.length := by
    simp only [QueueMessage.getStats, if_pos attached.isOpen]
  have kept := congrArg List.length recorded.kept
  have read := recorded.read_eq
  have all := ofPayloads_total ((readable codec (content store)).map Entry.value)
  rw [List.length_map] at kept all
  rw [attached.key] at total invalid
  rw [← Ledger.read, read] at all
  have dead : (readable codec (content store)).countP (fun e => !isValid e) = t.dead := by
    rw [← read, Ledger.read, Ledger.ofPayloads, List.countP_map]
    rfl
  rw [content] at all dead
  simp only [StoreOp.counts, Ledger.act, depth, total, invalid, kept, all, dead]

theorem compact (recorded : Recorded codec baseDir queueName store t)
    (safe : StoreOp.Safe codec store .compact) :
    Recorded codec baseDir queueName (StoreOp.apply codec store .compact) (t.act .sweep).2 := by
  have attached := recorded.attached.1
  have healthy := attached.compact_healthy safe fun _ => recorded.restores
  have valid : ∀ p ∈ store.1.msgs.map MessagePtr.payload, (p.valid == validMark) = true := by
    intro p member
    obtain ⟨m, queued, rfl⟩ := List.mem_map.mp member
    have isTracked := recorded.allTracked m queued
    simp only [tracked, Bool.and_eq_true] at isTracked
    exact isTracked.1
  refine ⟨by simp [recorded.filePath], attached.compact_tracked safe recorded.allTracked, _, [],
    rfl, Or.inl healthy, ?_⟩
  have payloads : (slotsOf store.1.msgs).map Slot.payload =
      store.1.msgs.map MessagePtr.payload := by
    rw [slotsOf, List.map_map]
    rfl
  rw [payloads, Ledger.ofPayloads, List.filter_eq_self.mpr valid, recorded.kept,
    List.countP_eq_zero.mpr]
  · rfl
  · intro p member
    simp [valid p (recorded.kept ▸ member)]

/-- A new process after one that died in the middle of an operation. -/
theorem crashed (recorded : Recorded codec baseDir queueName store t)
    (oneByte : codec.MarksOneByte) (noZero : 0 ∉ path baseDir queueName) {operation : StoreOp}
    {n : Nat}
    (safe : (CrashStep.crash operation n).Safe codec store) :
    Recorded codec baseDir queueName
      (start codec (operation.crash codec n store) baseDir queueName)
      (if operation.done codec store n then (t.act operation.reads).2 else t) := by
  have attached := recorded.attached.1
  cases operation with
  | insert bp body durable =>
    have safe : StoreOp.Safe codec store (.insert bp body durable) :=
      safe.resolve_left StoreOp.noConfusion
    have next := recorded.insert safe
    obtain ⟨rfl, ready, isWhole, writable⟩ := safe
    obtain ⟨slots, healthy, rfl⟩ := recorded.whole ready isWhole
    have holds := healthy.crash_insert n writable.2
    simp only [StoreOp.done, decide_eq_true_eq]
    split
    next all =>
      refine next.reopened ?_
      rw [apply_filePath, (healthy.apply_insert bp body writable).2.2]
      rwa [List.take_of_length_le all] at holds
    next torn =>
      rw [recorded.filePath] at holds
      have logged : Logged codec (content store ++
          (frame (codec.serializeToString (marked bp body))).take n) slots
            ((frame (codec.serializeToString (marked bp body))).take n) :=
        ⟨by rw [healthy.backed.content_eq, List.append_nil], healthy.backed.restores⟩
      refine opened holds logged (Torn.unframe?_eq_none
        ⟨_, codec.size_lt_word (marked bp body), List.take_prefix n _, ?_⟩)
      intro same
      have lengths := congrArg List.length same
      rw [List.length_take] at lengths
      omega
  | remove id =>
    have safe : StoreOp.Safe codec store (.remove id) := safe.resolve_left StoreOp.noConfusion
    cases found : target store.1.msgs id with
    | none =>
      simp only [StoreOp.crash, StoreOp.done, found, Option.any_none, Bool.false_eq_true, if_false]
      exact recorded.reopened attached.holds
    | some pair =>
      obtain ⟨m, rest⟩ := pair
      have next := recorded.remove safe
      obtain ⟨slots, tail, -, healthy, -⟩ :=
        recorded.healthy (safe.resolve_left (by simp [found]))
      have holds := healthy.crash_remove oneByte found
        (recorded.allTracked m ((mem_of_target found).mpr (Or.inl rfl))) n
      simp only [StoreOp.done, found, Option.any_some]
      split at holds
      next turned =>
        rw [if_pos turned]
        exact next.reopened (by rwa [apply_filePath])
      next untouched =>
        rw [if_neg untouched]
        exact recorded.reopened holds
  | getStats => exact recorded.reopened attached.holds
  | compact =>
    refine recorded.reopened (attached.crash_compact ?_ n)
    rw [recorded.filePath]
    exact (tmp_ne_file noZero noZero).symm

end Recorded

section Refinement

variable (codec : Codec) (baseDir queueName : Bytes)

/-- Each step does with the file what the ledger does, if it is done at all. -/
theorem refines_ledger (oneByte : codec.MarksOneByte) (noZero : 0 ∉ path baseDir queueName) :
    Refines (Recorded codec baseDir queueName) (fun store step => step.Safe codec store)
      (CrashStep.act codec baseDir queueName) Ledger.act (CrashStep.reads codec) where
  silent store t step recorded safe read := by
    cases step with
    | op operation => cases read
    | restart => exact ⟨rfl, recorded.reopened recorded.attached.1.holds⟩
    | crash operation n =>
      have next := recorded.crashed oneByte noZero safe
      simp only [CrashStep.reads] at read
      split at read
      · cases read
      next undone =>
        rw [if_neg undone] at next
        exact ⟨rfl, next⟩
  shows store t step op recorded safe read := by
    cases step with
    | op operation =>
      cases read
      cases operation with
      | insert bp body durable => exact ⟨rfl, recorded.insert safe⟩
      | remove id => exact ⟨rfl, recorded.remove safe⟩
      | getStats => exact ⟨recorded.getStats.2, recorded.getStats.1⟩
      | compact => exact ⟨rfl, recorded.compact safe⟩
    | restart => cases read
    | crash operation n =>
      have next := recorded.crashed oneByte noZero safe
      simp only [CrashStep.reads] at read
      split at read
      next done =>
        cases read
        rw [if_pos done] at next
        refine ⟨?_, next⟩
        cases operation with
        | getStats => cases done
        | _ => rfl
      · cases read

/-- However often the process dies, and in the middle of whatever it does: nothing gets lost but
the operation that was cut off. -/
theorem crashes_are_atomic (oneByte : codec.MarksOneByte)
    (noZero : 0 ∉ path baseDir queueName) (fs : FileSystem)
    (openable : fs.openable (resolve (path baseDir queueName)) = true) {slots : List Slot}
    {tail : Bytes} (stop : unframe? tail = none)
    (logged : Logged codec (fs.content (resolve (path baseDir queueName))) slots tail)
    (steps : List CrashStep) :
    let act := CrashStep.act codec baseDir queueName
    let first := start codec fs baseDir queueName
    let ledger := Ledger.read codec (fs.content (resolve (path baseDir queueName)))
    let store := final act first steps
    let read := readings act (CrashStep.reads codec) first steps
    Along (fun store step => (act store step).2) (fun store step => step.Safe codec store) first
      steps →
    answers act first steps = answers Ledger.act ledger read ∧
      store.1.msgs.map MessagePtr.payload = (final Ledger.act ledger read).kept ∧
      Ledger.read codec (content store) = final Ledger.act ledger read := by
  intro act first ledger store read safe
  have opened : Recorded codec baseDir queueName first ledger := by
    change Recorded codec baseDir queueName (start codec fs baseDir queueName) (Ledger.read codec _)
    rw [logged.read_eq stop]
    cases stored : fs.files (resolve (path baseDir queueName)) with
    | none =>
      rw [FileSystem.content, stored, Option.getD_none] at logged
      rw [start_of_absent codec stored openable]
      exact .opened ⟨openable, FileSystem.files_put_self _ _ _ _⟩ logged stop
    | some bytes =>
      rw [FileSystem.content, stored, Option.getD_some] at logged
      exact .opened ⟨openable, stored⟩ logged stop
  obtain ⟨shown, recorded⟩ :=
    (refines_ledger codec baseDir queueName oneByte noZero).run opened safe
  exact ⟨shown, recorded.kept, recorded.read_eq⟩

end Refinement

/-- A removal and an insert are cut off; behind the piece that is left the next insert has to wait
for a compaction, which is cut off at first. -/
def crashingSteps : List CrashStep :=
  [.op .getStats, .op (.insert (some { id := str "a" }) (str "x") true),
    .op (.insert (some { id := str "b" }) (str "y") true), .crash (.remove (str "a")) 5,
    .op .getStats, .crash (.insert (some { id := str "c" }) (str "z") true) 7, .op .getStats,
    .op (.remove (str "b")), .crash .compact 3, .op .compact,
    .crash (.insert (some { id := str "d" }) (str "u") true) 100, .op .getStats]

theorem crashes_are_atomic_example :
    let act := CrashStep.act Wire.codec (str "d") (str "q")
    let fs := FileSystem.blank 4096 (by decide)
    let first := start Wire.codec fs (str "d") (str "q")
    let store := final act first crashingSteps
    let read := readings act (CrashStep.reads Wire.codec) first crashingSteps
    answers act first crashingSteps = answers Ledger.act (.read Wire.codec []) read ∧
      store.1.msgs.map MessagePtr.payload = (final Ledger.act (.read Wire.codec []) read).kept ∧
      Ledger.read Wire.codec (content store) = final Ledger.act (.read Wire.codec []) read :=
  crashes_are_atomic Wire.codec (str "d") (str "q") Wire.codec_marksOneByte (by decide) _ rfl rfl
    Backed.empty.toLogged crashingSteps (by decide +kernel)

end HzMq.Persistence
