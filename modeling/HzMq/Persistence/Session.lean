import HzMq.Common.Wire
import HzMq.Persistence.Operations

/-!
# The log of one session

A session on a fresh file: one record for each durable insert, in order, whose
`valid` field says whether the object is still in the deque. The invariant
keeps that list of records explicit, so the induction over the operations
carries the history of the session along.
-/

namespace HzMq.Persistence

open FileStream FramedLog QueueMessage Machine

def durableInserts : Nat → List StoreOp → List (Nat × MessagePayload)
  | _, [] => []
  | addr, .insert bp body true :: ops =>
    (addr, (makeMessage bp body).payload) :: durableInserts (addr + 1) ops
  | addr, .insert _ _ false :: ops => durableInserts (addr + 1) ops
  | addr, .remove _ :: ops => durableInserts addr ops
  | addr, .getStats :: ops => durableInserts addr ops
  | addr, .compact :: ops => durableInserts addr ops

def slotFor (msgs : List MessagePtr) (entry : Nat × MessagePayload) : Slot :=
  ⟨entry.1, entry.2.setValid
    (if entry.1 ∈ msgs.map MessagePtr.addr then validMark else invalidMark)⟩

def isCompact : StoreOp → Bool
  | .compact => true
  | _ => false

theorem slotFor_congr {msgs others : List MessagePtr} {log : List (Nat × MessagePayload)}
    (same : ∀ e ∈ log, e.1 ∈ msgs.map MessagePtr.addr ↔ e.1 ∈ others.map MessagePtr.addr) :
    log.map (slotFor msgs) = log.map (slotFor others) := by
  apply List.map_congr_left
  intro e member
  simp only [slotFor, same e member]

theorem slots_without {before after : List MessagePtr} {m : MessagePtr}
    {logBefore logAfter : List (Nat × MessagePayload)} {e : Nat × MessagePayload}
    (addrs : ((before ++ m :: after).map MessagePtr.addr).Pairwise (· < ·))
    (entries : ((logBefore ++ e :: logAfter).map Prod.fst).Pairwise (· < ·))
    (owner : e.1 = m.addr) :
    (logBefore ++ e :: logAfter).map (slotFor (before ++ after)) =
      logBefore.map (slotFor (before ++ m :: after)) ++
        ⟨e.1, e.2.setValid invalidMark⟩ :: logAfter.map (slotFor (before ++ m :: after)) := by
  rw [List.map_append, List.map_cons, List.pairwise_append] at addrs entries
  obtain ⟨-, later, apart⟩ := addrs
  obtain ⟨-, logLater, logApart⟩ := entries
  -- the other entries of the log belong to other objects, which stay where they were
  have others : ∀ x, x ≠ m.addr →
      (x ∈ (before ++ after).map MessagePtr.addr ↔
        x ∈ (before ++ m :: after).map MessagePtr.addr) := by
    intro x ne
    simp [ne]
  have gone : e.1 ∉ (before ++ after).map MessagePtr.addr := by
    rw [owner, List.map_append, List.mem_append, not_or]
    constructor
    · intro earlier
      exact Nat.lt_irrefl _ (apart _ earlier _ List.mem_cons_self)
    · intro behind
      exact Nat.lt_irrefl _ ((List.pairwise_cons.mp later).1 _ behind)
  rw [List.map_append, List.map_cons]
  congr 1
  · refine slotFor_congr fun x member => others x.1 ?_
    exact owner ▸ Nat.ne_of_lt (logApart _ (List.mem_map_of_mem member) _ List.mem_cons_self)
  · congr 1
    · rw [slotFor, if_neg gone]
    · refine slotFor_congr fun x member => others x.1 ?_
      exact owner ▸
        Nat.ne_of_gt ((List.pairwise_cons.mp logLater).1 _ (List.mem_map_of_mem member))

structure InSession (codec : Codec) (store : Store) (log : List (Nat × MessagePayload)) : Prop where
  healthy : Healthy codec store (log.map (slotFor store.1.msgs)) []
  numbered : store.1.Numbered
  increasing : (log.map Prod.fst).Pairwise (· < ·)
  below : ∀ e ∈ log, e.1 < store.1.pushed
  untracked : ∀ m ∈ store.1.msgs, tracked m = false →
    m.msg.length = 0 ∧ ∀ e ∈ log, e.1 ≠ m.addr

namespace InSession

variable {codec : Codec} {store : Store} {log : List (Nat × MessagePayload)}

theorem insert_durable (session : InSession codec store log) (bp : Option BasicProperties)
    (body : Bytes) (writable : Writable codec store (.insert bp body true)) :
    InSession codec (StoreOp.apply codec store (.insert bp body true))
      (log ++ [(store.1.pushed, (makeMessage bp body).payload)]) := by
  obtain ⟨-, nextMsgs, -⟩ := session.healthy.apply_insert bp body writable
  have slots : (log ++ [(store.1.pushed, (makeMessage bp body).payload)]).map
      (slotFor (store.1.msgs ++ [written codec store bp body])) =
        log.map (slotFor store.1.msgs) ++ [⟨store.1.pushed, marked bp body⟩] := by
    rw [List.map_append]
    congr 1
    · apply slotFor_congr
      intro e member
      have old := Nat.ne_of_lt (session.below e member)
      simp [written, old]
    · simp [slotFor, written, marked]
  constructor
  · rw [nextMsgs, slots]
    exact session.healthy.insert_durable bp body writable
  · exact session.numbered.insert codec store.2 bp body true
  · rw [List.map_append]
    refine List.pairwise_append.mpr ⟨session.increasing, by simp, ?_⟩
    intro a memberA b memberB
    obtain ⟨e, member, rfl⟩ := List.mem_map.mp memberA
    rw [List.mem_singleton.mp memberB]
    exact session.below e member
  · intro e member
    change e.1 < store.1.pushed + 1
    rcases List.mem_append.mp member with old | new
    · exact Nat.lt_succ_of_lt (session.below e old)
    · rw [List.mem_singleton.mp new]
      exact Nat.lt_succ_self _
  · intro m member isUntracked
    rw [nextMsgs] at member
    rcases List.mem_append.mp member with old | new
    · obtain ⟨length, others⟩ := session.untracked m old isUntracked
      refine ⟨length, ?_⟩
      intro e inLog
      rcases List.mem_append.mp inLog with oldEntry | newEntry
      · exact others e oldEntry
      · rw [List.mem_singleton.mp newEntry]
        exact Nat.ne_of_gt (session.numbered.2 m old)
    · rw [List.mem_singleton.mp new, written_tracked] at isUntracked
      cases isUntracked

theorem insert_volatile (session : InSession codec store log) (bp : Option BasicProperties)
    (body : Bytes) : InSession codec (StoreOp.apply codec store (.insert bp body false)) log := by
  have nextMsgs : (StoreOp.apply codec store (.insert bp body false)).1.msgs =
      store.1.msgs ++ [⟨store.1.pushed, makeMessage bp body⟩] := rfl
  have slots : log.map (slotFor (store.1.msgs ++ [⟨store.1.pushed, makeMessage bp body⟩])) =
      log.map (slotFor store.1.msgs) := by
    apply slotFor_congr
    intro e member
    have old := Nat.ne_of_lt (session.below e member)
    simp [old]
  constructor
  · rw [nextMsgs, slots]
    exact session.healthy.insert_volatile bp body
  · exact session.numbered.insert codec store.2 bp body false
  · exact session.increasing
  · exact fun e member => Nat.lt_succ_of_lt (session.below e member)
  · intro m member isUntracked
    rw [nextMsgs] at member
    rcases List.mem_append.mp member with old | new
    · exact session.untracked m old isUntracked
    · rw [List.mem_singleton.mp new]
      exact ⟨rfl, fun e inLog => Nat.ne_of_lt (session.below e inLog)⟩

theorem removed (session : InSession codec store log) {id : Bytes} {m : MessagePtr}
    {rest : List MessagePtr} (found : target store.1.msgs id = some (m, rest))
    (next : Healthy codec (StoreOp.apply codec store (.remove id)) (log.map (slotFor rest)) []) :
    InSession codec (StoreOp.apply codec store (.remove id)) log := by
  have nextMsgs := apply_remove_msgs codec found
  constructor
  · rw [nextMsgs]
    exact next
  · exact session.numbered.remove codec store.2 id
  · exact session.increasing
  · intro e member
    simpa [StoreOp.apply] using session.below e member
  · intro x member
    rw [nextMsgs] at member
    exact session.untracked x ((mem_of_target found).mpr (Or.inr member))

/-- Removing a written message turns exactly its own record over. -/
theorem remove_tracked (session : InSession codec store log) {id : Bytes} {m : MessagePtr}
    {rest : List MessagePtr} (found : target store.1.msgs id = some (m, rest))
    (isTracked : tracked m = true) :
    InSession codec (StoreOp.apply codec store (.remove id)) log := by
  obtain ⟨first, s, last, slotsEq, owner, payload, next⟩ :=
    session.healthy.remove_tracked found isTracked
  obtain ⟨before, after, msgsEq, rfl, -, -⟩ := target_split found
  obtain ⟨logBefore, logRest, logEq, firstEq, restEq⟩ := List.map_eq_append_iff.mp slotsEq
  obtain ⟨e, logAfter, rfl, entryEq, lastEq⟩ := List.map_eq_cons_iff.mp restEq
  have sameOwner : e.1 = s.owner := congrArg Slot.owner entryEq
  have base : e.2.setValid invalidMark = m.payload.setValid invalidMark := by
    rw [← payload, ← entryEq]
    rfl
  have slots : log.map (slotFor (before ++ after)) =
      first ++ ⟨s.owner, m.payload.setValid invalidMark⟩ :: last := by
    rw [logEq, slots_without (msgsEq ▸ session.numbered.1) (logEq ▸ session.increasing)
      (sameOwner.trans owner), ← msgsEq, firstEq, lastEq, base, sameOwner]
  exact session.removed found (slots ▸ next)

theorem remove_unwritten (session : InSession codec store log) {id : Bytes} {m : MessagePtr}
    {rest : List MessagePtr} (found : target store.1.msgs id = some (m, rest))
    (isUntracked : tracked m = false) :
    InSession codec (StoreOp.apply codec store (.remove id)) log := by
  obtain ⟨unwritten, notLogged⟩ :=
    session.untracked m ((mem_of_target found).mpr (Or.inl rfl)) isUntracked
  have next := session.healthy.remove_unwritten found unwritten isUntracked
  have slots : log.map (slotFor rest) = log.map (slotFor store.1.msgs) := by
    apply slotFor_congr
    intro e member
    have ne := notLogged e member
    simp only [List.mem_map, mem_of_target found]
    constructor
    · rintro ⟨x, inRest, same⟩
      exact ⟨x, Or.inr inRest, same⟩
    · rintro ⟨x, rfl | inRest, same⟩
      · exact absurd same.symm ne
      · exact ⟨x, inRest, same⟩
  exact session.removed found (slots ▸ next)

theorem getStats (session : InSession codec store log) :
    InSession codec (StoreOp.apply codec store .getStats) log where
  healthy := by
    simpa [StoreOp.apply] using session.healthy.attached.heal session.healthy.backed
  numbered := by simpa [StoreOp.apply, Numbered] using session.numbered
  increasing := session.increasing
  below := by simpa [StoreOp.apply] using session.below
  untracked := by simpa [StoreOp.apply] using session.untracked

theorem remove (session : InSession codec store log) (id : Bytes) :
    InSession codec (StoreOp.apply codec store (.remove id)) log := by
  cases found : target store.1.msgs id with
  | none =>
    rw [apply_remove_miss found]
    exact session
  | some pair =>
    obtain ⟨m, rest⟩ := pair
    cases isTracked : tracked m with
    | true => exact session.remove_tracked found isTracked
    | false => exact session.remove_unwritten found isTracked

/-- The session invariant holds after any sequence of operations without `compact`. -/
theorem run (session : InSession codec store log) (ops : List StoreOp)
    (noCompact : ∀ op ∈ ops, isCompact op = false)
    (writable : Along (StoreOp.apply codec) (Writable codec) store ops) :
    InSession codec (exec (StoreOp.apply codec) store ops)
      (log ++ durableInserts store.1.pushed ops) := by
  induction ops generalizing store log with
  | nil => simpa [durableInserts] using session
  | cons op ops ih =>
    obtain ⟨first, rest⟩ := writable
    have later : ∀ op ∈ ops, isCompact op = false := fun op member =>
      noCompact op (List.mem_cons_of_mem _ member)
    cases op with
    | insert bp body durable =>
      cases durable with
      | true =>
        have next := ih (session.insert_durable bp body first) later rest
        rwa [List.append_assoc] at next
      | false => exact ih (session.insert_volatile bp body) later rest
    | remove id =>
      have next := ih (session.remove id) later rest
      simpa [durableInserts, StoreOp.apply] using next
    | getStats =>
      have next := ih session.getStats later rest
      simpa [durableInserts, StoreOp.apply] using next
    | compact => exact absurd (noCompact .compact (by simp)) (by simp [isCompact])

/-- The record of a written message of the deque: its place, and what it holds. -/
theorem find (session : InSession codec store log) {m : MessagePtr} (member : m ∈ store.1.msgs)
    (isTracked : tracked m = true) :
    ∃ before p after, log = before ++ (m.addr, p) :: after ∧
      m.payload = p.setValid validMark ∧
      m.msg.offset = (records codec (before.map (slotFor store.1.msgs))).length ∧
      m.msg.length = (frame ((slotFor store.1.msgs (m.addr, p)).record codec)).length := by
  obtain ⟨msgsBefore, msgsAfter, msgsEq⟩ := List.append_of_mem member
  have backed := session.healthy.backed
  nth_rewrite 1 [msgsEq] at backed
  obtain ⟨first, s, last, slotsEq, pointerEq, -, -⟩ := backed.find_record isTracked
  obtain ⟨before, rest, logEq, rfl, restEq⟩ := List.map_eq_append_iff.mp slotsEq
  obtain ⟨⟨addr, p⟩, after, rfl, rfl, -⟩ := List.map_eq_cons_iff.mp restEq
  have sameAddr : m.addr = addr := by
    rw [pointerEq]
    rfl
  subst sameAddr
  have queued : m.addr ∈ store.1.msgs.map MessagePtr.addr := List.mem_map_of_mem member
  refine ⟨before, p, after, logEq, ?_, ?_, ?_⟩
  · have payload := congrArg MessagePtr.payload pointerEq
    simpa [pointer, slotFor, MessagePtr.payload, queued] using payload
  · exact congrArg (fun x => x.msg.offset) pointerEq
  · have length := congrArg (fun x => x.msg.length) pointerEq
    simpa [pointer] using length

theorem tracked_iff (session : InSession codec store log) {m : MessagePtr}
    (member : m ∈ store.1.msgs) : tracked m = true ↔ m.addr ∈ log.map Prod.fst := by
  constructor
  · intro isTracked
    obtain ⟨before, p, after, rfl, -⟩ := session.find member isTracked
    simp
  · intro logged
    obtain ⟨e, inLog, same⟩ := List.mem_map.mp logged
    by_contra isUntracked
    exact (session.untracked m member (by simpa using isUntracked)).2 e inLog same

end InSession

section Refinement

variable (codec : Codec) (fs : FileSystem) (baseDir queueName : Bytes)

theorem InSession.fresh (absent : fs.files (resolve (path baseDir queueName)) = none)
    (openable : fs.openable (resolve (path baseDir queueName)) = true) :
    InSession codec (new fs baseDir queueName) [] ∧ (new fs baseDir queueName).1.pushed = 0 := by
  have healthy := new_of_absent codec absent openable
  rw [new_absent absent openable] at healthy ⊢
  exact ⟨⟨healthy, by simp [Numbered], by simp, by simp, by simp⟩, rfl⟩

/-- Within a session the file is the concatenation of one record for each durable
insert, valid exactly while its message is queued; the offsets and lengths in
memory delimit these records; and reading the file again gives the durable
messages of the deque. -/
theorem session_log_refines_queue
    (absent : fs.files (resolve (path baseDir queueName)) = none)
    (openable : fs.openable (resolve (path baseDir queueName)) = true)
    (ops : List StoreOp) (noCompact : ∀ op ∈ ops, isCompact op = false)
    (writable : Along (StoreOp.apply codec) (Writable codec) (new fs baseDir queueName) ops) :
    let store := exec (StoreOp.apply codec) (new fs baseDir queueName) ops
    let log := durableInserts 0 ops
    let record := fun e : Nat × MessagePayload => codec.serializeToString
      (e.2.setValid (if e.1 ∈ store.1.msgs.map MessagePtr.addr then validMark else invalidMark))
    content store = frames (log.map record) ∧
      (∀ m ∈ store.1.msgs, m.addr ∈ log.map Prod.fst →
        ∃ before p after, log = before ++ (m.addr, p) :: after ∧
          m.payload = p.setValid validMark ∧
          m.msg.offset = (frames (before.map record)).length ∧
          m.msg.length = (frame (record (m.addr, p))).length) ∧
      (∀ m ∈ store.1.msgs, m.addr ∉ log.map Prod.fst → m.msg.length = 0) ∧
      (start codec store.2 baseDir queueName).1.msgs.map MessagePtr.msg =
        (store.1.msgs.filter fun m => m.addr ∈ log.map Prod.fst).map MessagePtr.msg := by
  intro store log record
  obtain ⟨fresh, noPushed⟩ := InSession.fresh codec fs baseDir queueName absent openable
  have session : InSession codec store log := by
    have reached := fresh.run ops noCompact writable
    rwa [noPushed, List.nil_append] at reached
  have bytes : ∀ entries : List (Nat × MessagePayload),
      records codec (entries.map (slotFor store.1.msgs)) =
      frames (entries.map record) := fun entries => by
    rw [records, List.map_map]
    rfl
  refine ⟨?_, ?_, ?_, ?_⟩
  · rw [session.healthy.backed.content_eq, bytes, List.append_nil]
  · intro m member logged
    obtain ⟨before, p, after, logEq, payload, offset, length⟩ :=
      session.find member ((session.tracked_iff member).mpr logged)
    exact ⟨before, p, after, logEq, payload, by rw [offset, bytes], length⟩
  · intro m member notLogged
    have isUntracked : tracked m = false := by
      simpa using fun isTracked => notLogged ((session.tracked_iff member).mp isTracked)
    exact (session.untracked m member isUntracked).1
  · have samePath : store.1.filePath = path baseDir queueName := by
      simp [store]
    have kept : (store.1.msgs.filter fun m => m.addr ∈ log.map Prod.fst) =
        store.1.msgs.filter tracked := by
      apply List.filter_congr
      intro m member
      rw [Bool.eq_iff_iff, decide_eq_true_iff]
      exact (session.tracked_iff member).symm
    rw [kept]
    exact session.healthy.attached.restart_yields samePath session.healthy.backed rfl

/-- A durable and a volatile message, and the removal of the durable one. -/
theorem session_log_refines_queue_example :
    let ops : List StoreOp :=
      [.insert (some { id := str "a" }) (str "x") true, .insert none (str "y") false, .getStats,
        .insert (some { id := str "b" }) (str "z") true, .remove (str "a")]
    (start Wire.codec
        (exec (StoreOp.apply Wire.codec) (new (.blank 4096 (by decide)) (str "d") (str "q")) ops).2
        (str "d") (str "q")).1.msgs.map MessagePtr.body = [str "z"] := by
  intro ops
  have loaded := (session_log_refines_queue Wire.codec (.blank 4096 (by decide)) (str "d")
    (str "q") rfl rfl ops (by decide) (by decide)).2.2.2
  have bodies := congrArg (List.map fun msg : Message => msg.payload.body) loaded
  rw [List.map_map, List.map_map] at bodies
  exact bodies.trans (by decide)

end Refinement

end HzMq.Persistence
