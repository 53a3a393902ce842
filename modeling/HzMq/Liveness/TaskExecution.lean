import HzMq.Common.ThreadPool
import Mathlib.Algebra.Ring.Nat

/-!
# Every task is executed once

What a step can do is said once, by `Moves`; the invariants and the ledgers are read
off it. A task is queued, then in the hands of one worker, then executed. Nobody
sleeps through a task: a push that found somebody asleep has its notification still
to come, or somebody is up who will look at the queue before he sleeps.
-/

namespace HzMq

namespace ThreadPool

universe u

variable {α : Type u}

/-- What a step can do, with the worker it is about between those before and after it. -/
inductive Moves : ThreadPool α → Event α → ThreadPool α → Prop
  | accept {s : ThreadPool α} (task : α) : s.stop = false →
      Moves s (.accepted task) { s with tasks := s.tasks ++ [task], notices := s.notices + 1 }
  | refuse {s : ThreadPool α} (task : α) : s.stop = true → Moves s (.refused task) s
  | take {s : ThreadPool α} {i task rest before after} :
      s.threads = before ++ .awake :: after → s.tasks = task :: rest →
      Moves s (.taken i task) { s with threads := before ++ .running task :: after, tasks := rest }
  | sleep {s : ThreadPool α} {i before after} :
      s.threads = before ++ .awake :: after → s.tasks = [] → s.stop = false →
      Moves s (.slept i) { s with threads := before ++ .asleep :: after }
  | exit {s : ThreadPool α} {i before after} :
      s.threads = before ++ .awake :: after → s.tasks = [] → s.stop = true →
      Moves s (.exited i) { s with threads := before ++ .exited :: after }
  | finish {s : ThreadPool α} {i task before after} :
      s.threads = before ++ .running task :: after →
      Moves s (.executed i task) { s with threads := before ++ .awake :: after }
  | wake {s : ThreadPool α} {i before after} :
      s.threads = before ++ .asleep :: after →
      Moves s (.woken i) { s with threads := before ++ .awake :: after }
  | notify {s : ThreadPool α} {notices before after} : s.notices = notices + 1 →
      s.threads = before ++ .asleep :: after →
      Moves s .notified { s with threads := before ++ .awake :: after, notices }
  | notifyNobody {s : ThreadPool α} {notices} : s.notices = notices + 1 →
      .asleep ∉ s.threads → Moves s .notified { s with notices }
  | destroy {s : ThreadPool α} : s.stop = false →
      Moves s .stopped { s with stop := true, notifyAll := true }
  | notifyAll {s : ThreadPool α} : s.notifyAll = true →
      Moves s .notified { s with threads := s.threads.map Worker.wakeUp, notifyAll := false }

section Inversion

variable {s s' : ThreadPool α} {e : Event α}

theorem any_isAsleep_iff {threads : List (Worker α)} :
    threads.any Worker.isAsleep = true ↔ .asleep ∈ threads := by
  rw [List.any_eq_true]
  constructor
  · rintro ⟨worker, member, sleeping⟩
    cases worker with
    | asleep => exact member
    | awake => cases sleeping
    | running task => cases sleeping
    | exited => cases sleeping
  · exact fun member => ⟨.asleep, member, rfl⟩

theorem exists_around {threads : List (Worker α)} {i : Nat} {worker : Worker α}
    (found : threads[i]? = some worker) : ∃ before after,
      threads = before ++ worker :: after ∧ ∀ new, threads.set i new = before ++ new :: after := by
  obtain ⟨inside, rfl⟩ := List.getElem?_eq_some_iff.mp found
  refine ⟨threads.take i, threads.drop (i + 1), ?_, ?_⟩
  · rw [List.getElem_cons_drop, List.take_append_drop]
  · intro new
    rw [List.set_eq_take_append_cons_drop, if_pos inside]

theorem getElem?_around {before after : List (Worker α)} {i : Nat} (elsewhere : i ≠ before.length)
    (new old : Worker α) : (before ++ new :: after)[i]? = (before ++ old :: after)[i]? := by
  rcases Nat.lt_or_gt_of_ne elsewhere with front | back
  · rw [List.getElem?_append_left front, List.getElem?_append_left front]
  · obtain ⟨k, rfl⟩ := Nat.exists_eq_add_of_lt back
    rw [List.getElem?_append_right (by omega), List.getElem?_append_right (by omega)]
    simp [Nat.add_assoc]

theorem wakeUp_eq_some {i : Nat} (woken : s.wakeUp i = some s') : ∃ before after,
    s.threads = before ++ .asleep :: after ∧
      s' = { s with threads := before ++ .awake :: after } := by
  unfold wakeUp at woken
  split at woken
  · next found =>
    obtain ⟨before, after, split, replaced⟩ := exists_around found
    rw [replaced] at woken
    exact ⟨before, after, split, (Option.some.inj woken).symm⟩
  · cases woken

theorem lock_moves {i : Nat} (locked : s.lock i = some (e, s')) : Moves s e s' := by
  unfold lock at locked
  split at locked
  · next found =>
    obtain ⟨before, after, split, replaced⟩ := exists_around found
    cases tasks : s.tasks with
    | nil =>
      cases stopped : s.stop with
      | false =>
        simp only [critical, tasks, stopped, replaced, lockEvent] at locked
        obtain ⟨rfl, rfl⟩ := locked
        simpa [tasks, stopped] using Moves.sleep (i := i) split tasks stopped
      | true =>
        simp only [critical, tasks, stopped, replaced, lockEvent] at locked
        obtain ⟨rfl, rfl⟩ := locked
        simpa [tasks, stopped] using Moves.exit (i := i) split tasks stopped
    | cons task rest =>
      simp only [critical, tasks, replaced, lockEvent] at locked
      obtain ⟨rfl, rfl⟩ := locked
      exact .take split tasks
  · cases locked

theorem finish_moves {i : Nat} (finished : s.finish i = some (e, s')) : Moves s e s' := by
  unfold finish at finished
  split at finished
  · next found =>
    obtain ⟨before, after, split, replaced⟩ := exists_around found
    rw [replaced] at finished
    obtain ⟨rfl, rfl⟩ := finished
    exact .finish split
  · cases finished

theorem notifyOne_moves {i : Nat} (notified : s.notifyOne i = some s') :
    Moves s .notified s' := by
  unfold notifyOne at notified
  split at notified
  · cases notified
  · next left =>
    split at notified
    · obtain ⟨before, after, split, rfl⟩ := wakeUp_eq_some notified
      exact .notify left split
    · next nobody =>
      obtain rfl := Option.some.inj notified
      exact .notifyNobody left (any_isAsleep_iff.not.mp nobody)

theorem step_moves {action : Action α} (stepped : s.step action = some (e, s')) :
    Moves s e s' := by
  cases action with
  | push task =>
    simp only [step, push, Option.some.injEq] at stepped
    split at stepped
    · next stopped =>
      obtain ⟨rfl, rfl⟩ := stepped
      exact .refuse task stopped
    · next going =>
      obtain ⟨rfl, rfl⟩ := stepped
      exact .accept task (Bool.eq_false_iff.mpr going)
  | lock i => exact lock_moves stepped
  | finish i => exact finish_moves stepped
  | notifyOne i =>
    obtain ⟨_, notified, equal⟩ := Option.map_eq_some_iff.mp stepped
    obtain ⟨rfl, rfl⟩ := equal
    exact notifyOne_moves notified
  | wakeUp i =>
    obtain ⟨_, woken, equal⟩ := Option.map_eq_some_iff.mp stepped
    obtain ⟨rfl, rfl⟩ := equal
    obtain ⟨before, after, split, rfl⟩ := wakeUp_eq_some woken
    exact .wake split
  | destroy =>
    simp only [step] at stepped
    split at stepped
    · cases stepped
    · next going =>
      obtain ⟨rfl, rfl⟩ := stepped
      exact .destroy (Bool.eq_false_iff.mpr going)
  | notifyAll =>
    simp only [step] at stepped
    split at stepped
    · next pending =>
      obtain ⟨rfl, rfl⟩ := stepped
      exact .notifyAll pending
    · cases stepped

theorem run_trace {actions : List (Action α)} {es : List (Event α)}
    (ran : s.run actions = some (es, s')) : Trace Moves s es s' := by
  induction actions generalizing s es with
  | nil =>
    obtain ⟨rfl, rfl⟩ := ran
    exact .nil _
  | cons action actions ih =>
    rw [run] at ran
    split at ran
    · cases ran
    · next stepped =>
      obtain ⟨⟨rest, last⟩, ranOn, equal⟩ := Option.map_eq_some_iff.mp ran
      obtain ⟨rfl, rfl⟩ := equal
      exact .cons (step_moves stepped) (ih ranOn)

end Inversion

section Ledgers

variable {s s' : ThreadPool α} {e : Event α}

def accepted (es : List (Event α)) : List α := es.flatMap Event.accepted?

def taken (es : List (Event α)) : List α := es.flatMap Event.taken?

def executed (es : List (Event α)) : List α := es.flatMap Event.executed?

variable {es : List (Event α)}

/-- The queue is first in, first out. -/
theorem Moves.queue (moves : Moves s e s') : e.taken? ++ s'.tasks = s.tasks ++ e.accepted? := by
  cases moves with
  | take _ first => simp [Event.taken?, Event.accepted?, first]
  | _ => simp [Event.taken?, Event.accepted?]

def hands (threads : List (Worker α)) : List α := threads.filterMap Worker.task?

theorem hands_around (before after : List (Worker α)) (worker : Worker α) :
    (hands (before ++ worker :: after)).Perm (worker.task?.toList ++ hands (before ++ after)) := by
  rw [hands, hands, List.filterMap_append, List.filterMap_append, List.filterMap_cons]
  cases worker.task? with
  | none => exact List.Perm.refl _
  | some task => exact List.perm_middle

/-- Another worker in one place: a task goes with the old one and comes with the new one. -/
theorem hands_replace (before after : List (Worker α)) (old new : Worker α) :
    (old.task?.toList ++ hands (before ++ new :: after)).Perm
      (hands (before ++ old :: after) ++ new.task?.toList) := by
  refine ((hands_around before after new).append_left _).trans ?_
  refine (List.perm_append_comm.append_left _).trans ?_
  rw [← List.append_assoc]
  exact (hands_around before after old).symm.append_right _

theorem hands_wakeUp (threads : List (Worker α)) :
    hands (threads.map Worker.wakeUp) = hands threads := by
  rw [hands, List.filterMap_map]
  exact List.filterMap_congr fun worker _ => by cases worker <;> rfl

theorem Moves.hands (moves : Moves s e s') :
    (e.executed? ++ s'.inHand).Perm (s.inHand ++ e.taken?) := by
  have replaced {before after : List (Worker α)} (old new : Worker α)
      (around : s.threads = before ++ old :: after) :
      (old.task?.toList ++ ThreadPool.hands (before ++ new :: after)).Perm
        (s.inHand ++ new.task?.toList) := by
    rw [inHand, around]
    exact hands_replace before after old new
  cases moves with
  | take around _ => exact replaced .awake (.running _) around
  | finish around => exact replaced (.running _) .awake around
  | sleep around => exact replaced .awake .asleep around
  | exit around => exact replaced .awake .exited around
  | wake around => exact replaced .asleep .awake around
  | notify _ around => exact replaced .asleep .awake around
  | notifyAll => exact List.Perm.of_eq ((hands_wakeUp s.threads).trans (List.append_nil _).symm)
  | _ => exact List.Perm.of_eq (List.append_nil _).symm

theorem Moves.running (moves : Moves s e s') (noExecution : e.executed? = []) {i : Nat} {task : α}
    (here : s.threads[i]? = some (.running task)) : s'.threads[i]? = some (.running task) := by
  have replaced {before after : List (Worker α)} {old : Worker α} (new : Worker α)
      (around : s.threads = before ++ old :: after) (other : old ≠ .running task) :
      (before ++ new :: after)[i]? = some (.running task) := by
    rw [around] at here
    have elsewhere : i ≠ before.length := by
      rintro rfl
      exact other (by simpa using here)
    rwa [getElem?_around elsewhere new old]
  cases moves with
  | take around _ => exact replaced _ around (by simp)
  | sleep around => exact replaced _ around (by simp)
  | exit around => exact replaced _ around (by simp)
  | wake around => exact replaced _ around (by simp)
  | notify _ around => exact replaced _ around (by simp)
  | finish around => cases noExecution
  | notifyAll => rw [List.getElem?_map, here]; rfl
  | _ => exact here

/-- Queued tasks and those in hand are not told apart: only pushes and executions count. -/
theorem Moves.unfinished (moves : Moves s e s') :
    (e.executed? ++ (s'.inHand ++ s'.tasks)).Perm ((s.inHand ++ s.tasks) ++ e.accepted?) := by
  have hands : (e.executed? ++ s'.inHand ++ s'.tasks).Perm (s.inHand ++ e.taken? ++ s'.tasks) :=
    moves.hands.append_right _
  rwa [List.append_assoc, List.append_assoc, moves.queue, ← List.append_assoc s.inHand] at hands

theorem accepted_eq (trace : Trace Moves s es s') :
    taken es ++ s'.tasks = s.tasks ++ accepted es :=
  trace.ledger_eq fun _ _ _ => Moves.queue

theorem taken_perm (trace : Trace Moves s es s') :
    (executed es ++ s'.inHand).Perm (s.inHand ++ taken es) :=
  trace.ledger_perm fun _ _ _ => Moves.hands

end Ledgers

section Invariant

variable {s s' : ThreadPool α} {e : Event α} {es : List (Event α)}

def Up : Worker α → Prop
  | .awake | .running _ => True
  | .asleep | .exited => False

structure Sound (s : ThreadPool α) : Prop where
  staffed : s.threads ≠ []
  /-- Nobody has returned while there was a task. -/
  exits : .exited ∈ s.threads → s.stop = true ∧ s.tasks = []
  /-- Tasks are not slept through. -/
  watched : s.tasks ≠ [] → 0 < s.notices ∨ ∃ worker ∈ s.threads, Up worker
  /-- Neither is the end. -/
  alarmed : s.stop = true → s.notifyAll = true ∨ .asleep ∉ s.threads

theorem sound_new (numThreads hardwareConcurrency : Nat) :
    (new numThreads hardwareConcurrency : ThreadPool α).Sound where
  staffed := by
    simp only [new, ne_eq, List.replicate_eq_nil_iff]
    split
    · split <;> omega
    · assumption
  exits member := by simp [new] at member
  watched some' := absurd rfl some'
  alarmed stopped := by cases stopped

theorem mem_around {before after : List (Worker α)} {new worker : Worker α} (old : Worker α)
    (member : worker ∈ before ++ new :: after) :
    worker = new ∨ worker ∈ before ++ old :: after := by
  rcases List.mem_append.mp member with front | back
  · exact Or.inr (List.mem_append_left _ front)
  · rcases List.mem_cons.mp back with middle | behind
    · exact Or.inl middle
    · exact Or.inr (List.mem_append_right _ (List.mem_cons_of_mem _ behind))

/-- One worker goes over to another place. He returns or sleeps only as the lock lets him, and
is up when there are tasks. -/
theorem Sound.replace (sound : s.Sound) {before after : List (Worker α)} {old new : Worker α}
    (around : s.threads = before ++ old :: after) (threads : s'.threads = before ++ new :: after)
    (sameStop : s'.stop = s.stop) (sameAlarm : s'.notifyAll = s.notifyAll)
    (noMore : s.tasks = [] → s'.tasks = []) (up : s'.tasks ≠ [] → Up new)
    (returns : new = .exited → s.stop = true ∧ s'.tasks = [])
    (sleeps : new = .asleep → s.stop = false) : s'.Sound where
  staffed := by simp [threads]
  exits gone := by
    rw [threads] at gone
    rw [sameStop]
    rcases mem_around old gone with here | earlier
    · exact returns here.symm
    · have := sound.exits (around ▸ earlier)
      exact ⟨this.1, noMore this.2⟩
  watched some' :=
    Or.inr ⟨new, threads ▸ List.mem_append_right _ List.mem_cons_self, up some'⟩
  alarmed stopped := by
    rw [sameAlarm]
    rw [sameStop] at stopped
    refine (sound.alarmed stopped).imp_right ?_
    intro nobody sleeping
    rw [threads] at sleeping
    rcases mem_around old sleeping with here | earlier
    · exact absurd (sleeps here.symm) (by simp [stopped])
    · exact nobody (around ▸ earlier)

theorem wakeUp_eq_exited {worker : Worker α} : worker.wakeUp = .exited ↔ worker = .exited := by
  cases worker <;> simp [Worker.wakeUp]

theorem wakeUp_ne_asleep (worker : Worker α) : worker.wakeUp ≠ .asleep := by
  cases worker <;> simp [Worker.wakeUp]

theorem Up.wakeUp {worker : Worker α} (up : Up worker) : Up worker.wakeUp := by
  cases worker with
  | awake => trivial
  | running task => trivial
  | asleep => cases up
  | exited => cases up

theorem up_of_ne {worker : Worker α} (notAsleep : worker ≠ .asleep) (notGone : worker ≠ .exited) :
    Up worker := by
  cases worker with
  | awake => trivial
  | running task => trivial
  | asleep => exact notAsleep rfl
  | exited => exact notGone rfl

theorem Sound.step (sound : s.Sound) (moves : Moves s e s') : s'.Sound := by
  cases moves with
  | accept task going =>
    exact {
      staffed := sound.staffed
      exits := fun gone => absurd (sound.exits gone).1 (by simp [going])
      watched := fun _ => Or.inl (Nat.succ_pos _)
      alarmed := fun stopped => absurd stopped (by simp [going]) }
  | refuse => exact sound
  | take around first =>
    exact sound.replace around rfl rfl rfl (fun empty => by simp [first] at empty)
      (fun _ => trivial) nofun nofun
  | sleep around empty going =>
    exact sound.replace around rfl rfl rfl id (fun some' => absurd empty some') nofun
      (fun _ => going)
  | exit around empty stopped =>
    exact sound.replace around rfl rfl rfl id (fun some' => absurd empty some')
      (fun _ => ⟨stopped, empty⟩) nofun
  | finish around => exact sound.replace around rfl rfl rfl id (fun _ => trivial) nofun nofun
  | wake around => exact sound.replace around rfl rfl rfl id (fun _ => trivial) nofun nofun
  | notify _ around => exact sound.replace around rfl rfl rfl id (fun _ => trivial) nofun nofun
  | notifyNobody _ nobody =>
    refine ⟨sound.staffed, sound.exits, ?_, sound.alarmed⟩
    intro some'
    obtain ⟨worker, member⟩ := List.exists_mem_of_ne_nil _ sound.staffed
    refine Or.inr ⟨worker, member, up_of_ne ?_ ?_⟩
    · rintro rfl
      exact nobody member
    · rintro rfl
      exact some' (sound.exits member).2
  | destroy going =>
    refine ⟨sound.staffed, ?_, sound.watched, fun _ => Or.inl rfl⟩
    intro gone
    exact absurd (sound.exits gone).1 (by simp [going])
  | notifyAll pending =>
    refine ⟨by simpa using sound.staffed, ?_, ?_, fun _ => Or.inr ?_⟩
    · intro gone
      obtain ⟨worker, member, same⟩ := List.mem_map.mp gone
      exact sound.exits (wakeUp_eq_exited.mp same ▸ member)
    · intro some'
      refine (sound.watched some').imp_right ?_
      rintro ⟨worker, member, up⟩
      exact ⟨_, List.mem_map_of_mem member, up.wakeUp⟩
    · intro sleeping
      obtain ⟨worker, -, same⟩ := List.mem_map.mp sleeping
      exact wakeUp_ne_asleep worker same

theorem Sound.trace (sound : s.Sound) (trace : Trace Moves s es s') : s'.Sound :=
  trace.invariant (fun _ _ _ moves sound => sound.step moves) sound

end Invariant

section Progress

variable {s s' : ThreadPool α} {e : Event α} {es : List (Event α)}

def rank : Worker α → Nat
  | .asleep | .exited => 0
  | .awake => 1
  | .running _ => 2

def work (s : ThreadPool α) : Nat :=
  (s.threads.map rank).sum + 2 * s.tasks.length + 2 * s.notices +
    if s.notifyAll then s.threads.length + 1 else 0

theorem sum_rank_wakeUp_le (threads : List (Worker α)) :
    ((threads.map Worker.wakeUp).map rank).sum ≤ (threads.map rank).sum + threads.length := by
  induction threads with
  | nil => exact Nat.le_refl _
  | cons worker threads ih =>
    have one : rank worker.wakeUp ≤ rank worker + 1 := by
      cases worker <;> simp [Worker.wakeUp, rank]
    simp only [List.map_cons, List.sum_cons, List.length_cons]
    omega

theorem sum_rank_around (before after : List (Worker α)) (worker : Worker α) :
    ((before ++ worker :: after).map rank).sum =
      (before.map rank).sum + rank worker + (after.map rank).sum := by
  rw [List.map_append, List.sum_append, List.map_cons, List.sum_cons, Nat.add_assoc]

theorem work_lt_of_replace {before after : List (Worker α)} {old new : Worker α}
    (around : s.threads = before ++ old :: after) (threads : s'.threads = before ++ new :: after)
    (sameAlarm : s'.notifyAll = s.notifyAll)
    (less : rank new + 2 * s'.tasks.length + 2 * s'.notices <
      rank old + 2 * s.tasks.length + 2 * s.notices) : s'.work < s.work := by
  have sameLength : s'.threads.length = s.threads.length := by
    rw [around, threads, List.length_append, List.length_append, List.length_cons, List.length_cons]
  rw [work, work, sameAlarm, sameLength, around, threads, sum_rank_around, sum_rank_around]
  omega

/-- What a worker does, and what a notification causes, was counted before. -/
theorem Moves.lowers (moves : Moves s e s') (isWork : e.isWork = true) : s'.work < s.work := by
  cases moves with
  | take around first => exact work_lt_of_replace around rfl rfl (by simp [rank, first]; omega)
  | sleep around => exact work_lt_of_replace around rfl rfl (by simp [rank])
  | exit around => exact work_lt_of_replace around rfl rfl (by simp [rank])
  | finish around => exact work_lt_of_replace around rfl rfl (by simp [rank])
  | notify left around => exact work_lt_of_replace around rfl rfl (by simp [rank, left]; omega)
  | notifyNobody left =>
    simp only [work, left]
    omega
  | notifyAll pending =>
    have woken := sum_rank_wakeUp_le s.threads
    simp only [work, pending, if_true, Bool.false_eq_true, if_false]
    omega
  | accept => cases isWork
  | refuse => cases isWork
  | wake => cases isWork
  | destroy => cases isWork

def Stalled (s : ThreadPool α) : Prop :=
  ∀ action e s', s.step action = some (e, s') → e.isWork = false

theorem lockEvent_isWork (i : Nat) (worker : Worker α) : (lockEvent i worker).isWork = true := by
  cases worker <;> rfl

theorem Stalled.nobody_up (stalled : s.Stalled) {worker : Worker α}
    (member : worker ∈ s.threads) : ¬Up worker := by
  obtain ⟨i, inside, rfl⟩ := List.getElem_of_mem member
  have found := List.getElem?_eq_getElem inside
  intro up
  cases place : s.threads[i] with
  | awake =>
    rw [place] at found
    have idle := stalled (.lock i) _ _ (by rw [step, lock, found])
    rw [lockEvent_isWork] at idle
    cases idle
  | running task =>
    rw [place] at found
    cases stalled (.finish i) _ _ (by rw [step, finish, found])
  | asleep =>
    rw [place] at up
    exact up
  | exited =>
    rw [place] at up
    exact up

/-- A notification that is due can be made: it finds somebody asleep, or nobody is. -/
theorem notifyOne_possible (due : s.notices ≠ 0) : ∃ i s', s.notifyOne i = some s' := by
  obtain ⟨notices, left⟩ := Nat.exists_eq_succ_of_ne_zero due
  by_cases sleeping : s.threads.any Worker.isAsleep = true
  · obtain ⟨i, inside, asleep⟩ := List.getElem_of_mem (any_isAsleep_iff.mp sleeping)
    have found := List.getElem?_eq_getElem inside
    rw [asleep] at found
    exact ⟨i, _, by simp only [notifyOne, left, sleeping, if_true, wakeUp, found]; rfl⟩
  · exact ⟨0, _, by simp only [notifyOne, left, sleeping, Bool.false_eq_true, if_false]; rfl⟩

theorem Stalled.no_notices (stalled : s.Stalled) : s.notices = 0 := by
  by_contra due
  obtain ⟨i, s', possible⟩ := notifyOne_possible due
  cases stalled (.notifyOne i) .notified s' (by rw [step, possible, Option.map_some])

theorem Stalled.no_alarm (stalled : s.Stalled) : s.notifyAll = false := by
  by_contra pending
  cases stalled .notifyAll .notified _ (by rw [step, if_pos (by simpa using pending)])

/-- When nothing can go on, no task is left. -/
theorem Sound.tasks_of_stalled (sound : s.Sound) (stalled : s.Stalled) : s.tasks = [] := by
  by_contra some'
  rcases sound.watched some' with pending | ⟨worker, member, up⟩
  · rw [stalled.no_notices] at pending
    exact Nat.lt_irrefl 0 pending
  · exact stalled.nobody_up member up

theorem inHand_of_nobody_up (nobody : ∀ worker ∈ s.threads, ¬Up worker) : s.inHand = [] := by
  rw [inHand, List.filterMap_eq_nil_iff]
  intro worker member
  cases worker with
  | running task => exact absurd trivial (nobody _ member)
  | awake => rfl
  | asleep => rfl
  | exited => rfl

theorem Sound.exited_of_stalled (sound : s.Sound) (stalled : s.Stalled) (stopped : s.stop = true)
    {worker : Worker α} (member : worker ∈ s.threads) : worker = .exited := by
  have nobodyAsleep : .asleep ∉ s.threads :=
    (sound.alarmed stopped).resolve_left (by simp [stalled.no_alarm])
  by_contra present
  refine stalled.nobody_up member (up_of_ne ?_ present)
  rintro rfl
  exact nobodyAsleep member

theorem accepted_of_stopped (trace : Trace Moves s es s') (stopped : s.stop = true) :
    accepted es = [] := by
  induction trace with
  | nil => rfl
  | @cons s t u e es moves _ ih =>
    have goesOn : e.accepted? = [] ∧ t.stop = true := by
      cases moves with
      | accept task going => exact absurd stopped (by simp [going])
      | destroy going => exact absurd stopped (by simp [going])
      | _ => exact ⟨rfl, stopped⟩
    rw [accepted, List.flatMap_cons, goesOn.1]
    exact ih goesOn.2

end Progress

section Executions

variable {numThreads hardwareConcurrency : Nat} {s : ThreadPool α} {es : List (Event α)}

theorem inHand_new : (new numThreads hardwareConcurrency : ThreadPool α).inHand = [] := by
  simp [inHand, new, Worker.task?]

/-- Every accepted task is in one place: executed, in hand or queued. -/
theorem accepted_perm (trace : Trace Moves (new numThreads hardwareConcurrency) es s) :
    (accepted es).Perm (executed es ++ s.inHand ++ s.tasks) := by
  have queue : taken es ++ s.tasks = accepted es := accepted_eq trace
  have hands := taken_perm trace
  rw [inHand_new, List.nil_append] at hands
  rw [← queue]
  exact hands.symm.append_right s.tasks

theorem executed_perm (trace : Trace Moves (new numThreads hardwareConcurrency) es s)
    (nobody : ∀ worker ∈ s.threads, ¬Up worker) (empty : s.tasks = []) :
    (executed es).Perm (accepted es) := by
  have places := accepted_perm trace
  rw [inHand_of_nobody_up nobody, empty, List.append_nil, List.append_nil] at places
  exact places.symm

/-- Whoever returns leaves nothing behind: all that is ever accepted has been taken. -/
theorem taken_of_exited {before after : List (Event α)} {i : Nat}
    (trace : Trace Moves (new numThreads hardwareConcurrency) (before ++ .exited i :: after) s) :
    taken before = accepted (before ++ .exited i :: after) := by
  obtain ⟨t, first, second⟩ := Trace.append_iff.mp trace
  cases second with
  | cons moves rest =>
    cases moves with
    | exit _ empty stopped =>
      have queue : taken before ++ t.tasks = accepted before := accepted_eq first
      rw [empty, List.append_nil] at queue
      have later : accepted after = [] := accepted_of_stopped rest stopped
      rw [queue, accepted, accepted, List.flatMap_append, List.flatMap_cons]
      exact (List.append_nil _).symm.trans (congrArg _ later.symm)

/-- In any run of a pool with any number of workers: tasks are taken in the order of the accepted
pushes; each is in one place, and in one only; no worker returns with a task left; when all
have returned, or nothing more can be done, each has been executed just once; and what the
pool can do by itself is bounded, so that it comes to this end whatever the order of the steps. -/
theorem tasks_executed_once (numThreads hardwareConcurrency : Nat) (actions : List (Action α))
    (ran : (new numThreads hardwareConcurrency).run actions = some (es, s)) :
    accepted es = taken es ++ s.tasks ∧
      (accepted es).Perm (executed es ++ s.inHand ++ s.tasks) ∧
      (∀ before i after, es = before ++ .exited i :: after → taken before = accepted es) ∧
      (.exited ∈ s.threads → s.tasks = []) ∧
      ((∀ worker ∈ s.threads, worker = .exited) → (executed es).Perm (accepted es)) ∧
      (s.Stalled → (executed es).Perm (accepted es) ∧
        (s.stop = true → ∀ worker ∈ s.threads, worker = .exited)) ∧
      ∀ more es' s', s.run more = some (es', s') → (∀ e ∈ es', e.isWork = true) →
        es'.length ≤ s.work := by
  have trace := run_trace ran
  have sound := (sound_new numThreads hardwareConcurrency).trace trace
  have queue : taken es ++ s.tasks = accepted es := accepted_eq trace
  refine ⟨queue.symm, accepted_perm trace, ?_, fun gone => (sound.exits gone).2, ?_, ?_, ?_⟩
  · rintro before i after rfl
    exact taken_of_exited trace
  · intro gone
    obtain ⟨worker, member⟩ := List.exists_mem_of_ne_nil _ sound.staffed
    have empty : s.tasks = [] := (sound.exits (gone worker member ▸ member)).2
    refine executed_perm trace (fun other found up => ?_) empty
    rw [gone other found] at up
    exact up
  · intro stalled
    refine ⟨executed_perm trace (fun _ => stalled.nobody_up) (sound.tasks_of_stalled stalled), ?_⟩
    exact fun stopped _ => sound.exited_of_stalled stalled stopped
  · intro more es' s' ranOn allWork
    have lower (s : ThreadPool α) (e : Event α) (t : ThreadPool α) (moves : Moves s e t)
        (isWork : e.isWork = true) : t.work < s.work := moves.lowers isWork
    exact (run_trace ranOn).length_le_rank lower allWork

def twoWorkers : List (Event Nat) :=
  [.accepted 1, .accepted 2, .notified, .taken 0 1, .taken 1 2, .executed 1 2, .stopped, .refused 3,
    .executed 0 1, .notified, .exited 0, .exited 1]

theorem tasks_executed_once_example : (executed twoWorkers).Perm (accepted twoWorkers) :=
  (tasks_executed_once 2 0 [.push 1, .push 2, .notifyOne 0, .lock 0, .lock 1, .finish 1, .destroy,
    .push 3, .finish 0, .notifyAll, .lock 0, .lock 1] rfl).2.2.2.2.1 (by decide)

end Executions

end ThreadPool

end HzMq
