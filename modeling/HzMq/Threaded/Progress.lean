import HzMq.Delivery.Quiescence
import HzMq.Threaded.Refinement

/-!
# What the threads get done

When nothing new comes in, the threads have a bounded number of steps left to make, and
at the end of them no task is left: a queue with consumers is then empty, whatever the
order in which the workers took the tasks.
-/

namespace HzMq

def Stage.callsLeft : Stage → Nat
  | .looked _ => 4
  | .removed _ => 3
  | .chosen _ _ => 2
  | .called _ _ => 1
  | .returning => 0

end HzMq

namespace HzMq.Threaded

open BrokerServer Machine Delivery

section Effective

variable (s : ThreadedBroker)

/-- The step gets something done, without anything new coming in. A worker that wakes up by
itself does not. -/
def Effective : ThreadedOp → Prop
  | .handle _ => False
  | .push => s.toPush ≠ []
  | .send => s.toPush = [] ∧ s.toSend ≠ []
  | .consume worker =>
    match s.insideOf worker with
    | none => ∃ task, s.pool.threads[worker]? = some (.running task)
    | some e => e.stage.isReturning = false
  | .work action => s.permits action = true ∧
      ∃ e pool, s.pool.step action = some (e, pool) ∧ e.isWork = true

def Goes (a : ThreadedOp) : Prop := s.Undisturbed a ∧ Effective s a

def Idle : Prop := ∀ a, ¬Goes s a

def remaining : Nat :=
  s.pool.work + 5 * s.toPush.length + s.toSend.length +
    5 * (s.waiting.length - s.inside.length) + (s.inside.map fun e => e.stage.callsLeft).sum

variable {s}

theorem insideOf_single {e : Begun} (one : s.inside = [e]) : s.insideOf e.worker = some e := by
  rw [ThreadedBroker.insideOf, one, List.find?_cons_of_pos (by simp)]

theorem Idle.nobody (idle : Idle s) (oneInside : OneInside s) : s.inside = [] := by
  refine oneInside.resolve_right ?_
  rintro ⟨e, one, running⟩
  have found := insideOf_single one
  cases returns : e.stage.isReturning with
  | true =>
    have stepped : ∃ pool, s.pool.step (.finish e.worker) =
        some (.executed e.worker e.task, pool) :=
      ⟨_, by rw [ThreadPool.step, ThreadPool.finish, running]⟩
    obtain ⟨pool, stepped⟩ := stepped
    refine idle (.work (.finish e.worker)) ⟨trivial, ?_, _, pool, stepped, rfl⟩
    rw [ThreadedBroker.permits, found, Option.any_some, returns]
  | false =>
    refine idle (.consume e.worker) ⟨?_, ?_⟩
    · intro e' member
      rw [one, List.mem_singleton] at member
      rw [member]
    · rw [Effective, found]
      exact returns

theorem Idle.stalled (idle : Idle s) (nobody : s.inside = []) : s.pool.Stalled := by
  intro action e pool stepped
  refine Bool.eq_false_iff.mpr fun isWork => ?_
  cases action with
  | push task =>
    simp only [ThreadPool.step, ThreadPool.push, Option.some.injEq] at stepped
    split at stepped <;> cases stepped <;> cases isWork
  | destroy =>
    simp only [ThreadPool.step] at stepped
    split at stepped
    · cases stepped
    · cases stepped
      cases isWork
  | finish worker =>
    -- a worker in front of its first call makes this call
    have running : ∃ task, s.pool.threads[worker]? = some (.running task) := by
      simp only [ThreadPool.step, ThreadPool.finish] at stepped
      split at stepped
      · next task here => exact ⟨task, here⟩
      · cases stepped
    refine idle (.consume worker) ⟨?_, ?_⟩
    · rw [ThreadedBroker.Undisturbed, nobody]
      exact List.forall_mem_nil _
    · rw [Effective, ThreadedBroker.insideOf, nobody]
      exact running
  | _ => exact idle (.work _) ⟨trivial, rfl, e, pool, stepped, isWork⟩

theorem Idle.pushed (idle : Idle s) : s.toPush = [] :=
  by_contra fun pending => idle .push ⟨trivial, pending⟩

theorem Idle.waiting (idle : Idle s) (nobody : s.inside = []) (sound : s.pool.Sound) :
    s.waiting = [] := by
  have stalled := idle.stalled nobody
  rw [ThreadedBroker.waiting, idle.pushed, sound.tasks_of_stalled stalled,
    ThreadPool.inHand_of_nobody_up fun _ => stalled.nobody_up]
  rfl

end Effective

/-- A step that is taken on is one of those that leave a task for every message of a queue with
consumers. -/
def attends (matchHeaders : StrMap Bytes → StrMap Bytes → Bool) (s : ThreadedBroker)
    (a : ThreadedOp) : Bool :=
  (s.input a).all (staysCovered matchHeaders (s.broker.withPool s.waiting))

section Perm

variable {matchHeaders : StrMap Bytes → StrMap Bytes → Bool} {s : BrokerServer}
  {pool pool' : List Task}

theorem tasksFor_perm (same : pool.Perm pool') (queueName : Bytes) :
    tasksFor queueName pool = tasksFor queueName pool' := same.countP_eq _

theorem staysCovered_perm (same : pool.Perm pool') (op : ServerOp) :
    staysCovered matchHeaders (s.withPool pool) op =
      staysCovered matchHeaders (s.withPool pool') op := by
  cases op with
  | request conn rid cid call =>
    cases call with
    | basicConsume tag queueName autoAck =>
      simp only [staysCovered, withPool_pool, tasksFor_perm same]
      rfl
    | basicNack visit queueName messageId requeue reason =>
      simp only [staysCovered, withPool_pool, tasksFor_perm same]
      rfl
    | _ => rfl
  | _ => rfl

end Perm

def Tended (codec : Codec) (s : ThreadedBroker) : Prop :=
  s.pool.Sound ∧ ∃ t, Runs codec s t ∧ Attended t

section Step

variable (codec : Codec) (matchHeaders : StrMap Bytes → StrMap Bytes → Bool)
variable {s : ThreadedBroker}

theorem sound_act (sound : s.pool.Sound) (a : ThreadedOp) :
    (s.act codec matchHeaders a).2.pool.Sound := by
  cases a with
  | handle op =>
    simp only [ThreadedBroker.act]
    split <;> exact sound
  | push =>
    simp only [ThreadedBroker.act, ThreadedBroker.push]
    split
    · exact sound
    · next task rest pending =>
      have stepped : s.pool.step (.push task) = some (s.pool.push task) := rfl
      exact sound.step (ThreadPool.step_moves stepped)
  | send =>
    simp only [ThreadedBroker.act, ThreadedBroker.send]
    split <;> exact sound
  | consume worker =>
    simp only [ThreadedBroker.act, ThreadedBroker.consume]
    split
    · unfold ThreadedBroker.begin
      split <;> exact sound
    · exact sound
  | work action =>
    simp only [ThreadedBroker.act]
    split
    · unfold ThreadedBroker.work
      cases stepped : s.pool.step action with
      | none => exact sound
      | some pair =>
        obtain ⟨e, pool⟩ := pair
        have later := sound.step (ThreadPool.step_moves stepped)
        cases e <;> exact later
    · exact sound

theorem Tended.act (tended : Tended codec s) {a : ThreadedOp} (undisturbed : s.Undisturbed a)
    (allowed : attends matchHeaders s a = true) :
    Tended codec (s.act codec matchHeaders a).2 := by
  obtain ⟨sound, t, runs, attended⟩ := tended
  obtain ⟨op, next, -, inputs⟩ := runs.act codec matchHeaders undisturbed
  refine ⟨sound_act codec matchHeaders sound a, _, next, ?_⟩
  cases op with
  | none => exact attended
  | some op =>
    refine attended.apply codec ?_
    by_cases task : op.thread = .worker
    · cases op with
      | execute index => rfl
      | _ => cases task
    · have own : s.input a = some op :=
        Option.toList_eq_singleton_iff.mp (by simpa [ServerOp.outside, task] using inputs.symm)
      have nobody : s.inside = [] := by
        cases a with
        | handle op => exact List.isEmpty_iff.mp undisturbed
        | _ => cases own
      rw [attends, own] at allowed
      rw [runs.eq codec nobody, staysCovered_perm (runs.unbegun nobody)]
      exact allowed

theorem callsLeft_look (s : BrokerServer) (qname : Bytes) : (s.look qname).callsLeft < 5 := by
  unfold BrokerServer.look
  split
  · exact Nat.zero_lt_succ 4
  · exact Nat.lt_succ_self 4

theorem callsLeft_advance (s : BrokerServer) (qname : Bytes) {stage : Stage}
    (goesOn : stage.isReturning = false) :
    (s.advance codec qname stage).2.1.callsLeft < stage.callsLeft := by
  cases stage with
  | removed mp =>
    simp only [advance]
    split
    · exact Nat.zero_lt_succ 2
    · exact Nat.lt_succ_self 2
  | returning => cases goesOn
  | _ => exact Nat.lt_succ_self _

theorem waiting_length {e : ThreadPool.Event Task} {pool : ThreadPool Task}
    (moves : ThreadPool.Moves s.pool e pool) (noPush : e.accepted? = []) (inside : List Begun) :
    ({ s with pool, inside } : ThreadedBroker).waiting.length + e.executed?.length =
      s.waiting.length := by
  have same := moves.unfinished.length_eq
  simp only [noPush, List.length_append, List.length_nil] at same
  simp only [ThreadedBroker.waiting, List.length_append]
  omega

/-- A task that is pushed will be queued, announced, taken and executed, call by call. -/
theorem remaining_lt {t : BrokerServer} (runs : Runs codec s t) {a : ThreadedOp}
    (goes : Goes s a) : remaining (s.act codec matchHeaders a).2 < remaining s := by
  obtain ⟨undisturbed, effective⟩ := goes
  cases a with
  | handle op => exact effective.elim
  | push =>
    simp only [ThreadedBroker.act, ThreadedBroker.push]
    cases pending : s.toPush with
    | nil => exact absurd pending effective
    | cons task rest =>
      simp only [remaining, ThreadedBroker.waiting, pending, ThreadPool.push, runs.going,
        Bool.false_eq_true, if_false, ThreadPool.work, ThreadPool.inHand, List.length_append,
        List.length_cons, List.length_nil]
      omega
  | send =>
    obtain ⟨pushed, held⟩ := effective
    have some' := List.length_pos_of_ne_nil held
    simp only [ThreadedBroker.act, ThreadedBroker.send, pushed, List.isEmpty_nil, if_true,
      remaining, ThreadedBroker.waiting, List.length_nil]
    omega
  | consume worker =>
    simp only [Effective] at effective
    simp only [ThreadedBroker.act, ThreadedBroker.consume]
    cases found : s.insideOf worker with
    | none =>
      rw [found] at effective
      obtain ⟨task, running⟩ := effective
      have nobody := nobody_inside undisturbed found
      have inHand : task ∈ s.pool.inHand :=
        List.mem_filterMap.mpr ⟨_, List.mem_of_getElem? running, rfl⟩
      have some' : 0 < s.waiting.length := List.length_pos_of_mem
        (List.mem_append_left _ (List.mem_append_left _ inHand))
      have few := callsLeft_look s.broker task.qname
      simp only [ThreadedBroker.begin, running, remaining, nobody, ThreadedBroker.waiting,
        List.map_cons, List.map_nil, List.sum_cons, List.sum_nil, List.length_cons,
        List.length_nil] at some' ⊢
      omega
    | some e =>
      rw [found] at effective
      have one := (runs.oneInside.eq_single found).1
      have fewer := callsLeft_advance codec s.broker e.task.qname effective
      simp only [ThreadedBroker.proceed]
      generalize s.broker.advance codec e.task.qname e.stage = call at fewer ⊢
      obtain ⟨shown, stage, broker⟩ := call
      have less : stage.callsLeft < e.stage.callsLeft := fewer
      simp only [remaining, one, ThreadedBroker.waiting, List.map_cons, List.map_nil, if_true,
        List.sum_cons, List.sum_nil, List.length_cons, List.length_nil]
      omega
  | work action =>
    obtain ⟨permitted, e, pool, stepped, isWork⟩ := effective
    have moves := ThreadPool.step_moves stepped
    have less := moves.lowers isWork
    have noPush := (step_byPool (permits_byPool permitted) stepped).1
    have kept := waiting_length moves noPush
    simp only [ThreadedBroker.act, permitted, if_true, ThreadedBroker.work, stepped]
    cases e with
    | executed worker task =>
      obtain ⟨rfl, running⟩ := executed_eq stepped
      obtain ⟨e, found, -⟩ := (Option.any_eq_true _ _).mp permitted
      obtain ⟨one, -⟩ := runs.oneInside.eq_single found
      obtain rfl := insideOf_worker found
      have kept := kept []
      simp only [ThreadPool.Event.executed?, List.length_singleton] at kept
      simp only [remaining, one, List.filter_cons, List.filter_nil, ne_eq, not_true_eq_false,
        decide_false, Bool.false_eq_true, if_false, List.map_cons, List.map_nil, List.sum_cons,
        List.sum_nil, List.length_cons, List.length_nil]
      omega
    | _ =>
      have kept := kept s.inside
      simp only [ThreadPool.Event.executed?, List.length_nil] at kept
      simp only [remaining]
      omega

end Step

/-- In every run in which nobody gets between the calls of a consume task and each subscription and
each dead letter meets enough tasks, when nothing new comes in the threads come to an end, after a
bounded number of steps in whatever order, and all the messages of the queues that have consumers
are then delivered. -/
theorem threads_deliver (codec : Codec) (matchHeaders : StrMap Bytes → StrMap Bytes → Bool)
    {host : VirtualHost} (fresh : host.Initial) (hardwareConcurrency : Nat)
    (steps : List ThreadedOp) :
    let act := ThreadedBroker.act codec matchHeaders
    let step := fun s a => (act s a).2
    let start := ThreadedBroker.new host hardwareConcurrency
    let s := final act start steps
    Along step ThreadedBroker.Undisturbed start steps →
    Along step (fun s a => attends matchHeaders s a = true) start steps →
    (∃ more, Along step Goes s more ∧ Idle (final act s more)) ∧
    ∀ more, Along step Goes s more →
      more.length ≤ remaining s ∧
      let s' := final act s more
      Idle s' → ∀ queueName, s'.broker.cmp.consumersOf queueName ≠ [] →
        s'.broker.host.contents queueName = [] := by
  intro act step start s undisturbed allowed
  have begun : Tended codec start :=
    ⟨ThreadPool.sound_new 0 hardwareConcurrency, _, runs_new codec host hardwareConcurrency,
      attended_initial ⟨host, fresh, rfl⟩⟩
  have tended : Tended codec s :=
    Along.invariant (fun s a tended met => tended.act codec matchHeaders met.1 met.2) begun
      (undisturbed.and allowed)
  have keep (s : ThreadedBroker) (a : ThreadedOp) (tended : Tended codec s) (goes : Goes s a) :
      Tended codec (step s a) := by
    refine tended.act codec matchHeaders goes.1 ?_
    cases a with
    | handle op => exact goes.2.elim
    | _ => rfl
  have lower (s : ThreadedBroker) (a : ThreadedOp) (tended : Tended codec s) (goes : Goes s a) :
      remaining (step s a) < remaining s := by
    obtain ⟨-, t, runs, -⟩ := tended
    exact remaining_lt codec matchHeaders runs goes
  refine ⟨exists_along_settled keep lower tended, ?_⟩
  intro more goes
  refine ⟨Along.length_le keep lower tended goes, ?_⟩
  intro s' idle
  obtain ⟨sound, t, runs, attended⟩ := Along.invariant keep tended goes
  have nobody := idle.nobody runs.oneInside
  have executed : t.pool = [] :=
    List.perm_nil.mp (idle.waiting nobody sound ▸ runs.unbegun nobody)
  have delivered := attended.covered.delivered executed
  rw [runs.eq codec nobody] at delivered
  exact delivered

theorem threads_deliver_example :
    let act := ThreadedBroker.act Wire.codec fun _ _ => false
    let s := final act (.new .blank 2) (servedSteps ++ [.consume 1, .consume 1])
    ∃ more, Along (fun s a => (act s a).2) Goes s more ∧ Idle (final act s more) ∧
      more.length ≤ remaining s ∧
      ∀ queueName, (final act s more).broker.cmp.consumersOf queueName ≠ [] →
        (final act s more).broker.host.contents queueName = [] := by
  obtain ⟨⟨more, goes, idle⟩, ended⟩ := threads_deliver Wire.codec (fun _ _ => false)
    VirtualHost.blank_initial 2 (servedSteps ++ [.consume 1, .consume 1]) (by decide +kernel)
    (by decide +kernel)
  obtain ⟨bounded, delivered⟩ := ended more goes
  exact ⟨more, goes, idle, bounded, delivered idle⟩

/-- Two workers that look one after the other hand over the same message, and the other one is
left in the queue with no task for it. -/
example :
    let task (worker : Nat) : List ThreadedOp :=
      List.replicate 4 (.consume worker) ++ [.work (.finish worker)]
    let steps := servedSteps ++ [.push, .send, .work (.lock 0), .consume 0, .consume 1] ++
      task 0 ++ task 1
    let s := final (ThreadedBroker.act Wire.codec fun _ _ => false) (.new .blank 2) steps
    (answers (ThreadedBroker.act Wire.codec fun _ _ => false) (.new .blank 2) steps).count
        (.message ⟨0, str "c"⟩ (.consume (str "c") (str "t") (str "x")
          { id := str "1", routingKey := str "q" })) = 2 ∧
      (s.broker.host.contents (str "q")).map MessagePtr.body = [str "y"] ∧ s.waiting = [] := by
  decide +kernel

end HzMq.Threaded
