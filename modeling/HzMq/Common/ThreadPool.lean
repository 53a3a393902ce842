import HzMq.Library.Trace

/-!
# The thread pool (`thread_pool.cpp`)

A critical section is one step, as is each call to the condition variable and the end
of a task. The scheduler chooses the steps; a sleeping worker may also wake up by
itself. What a step shows to the outside is its event.
-/

namespace HzMq

universe u

inductive Worker (α : Type u)
  /-- In front of the lock. -/
  | awake
  /-- Blocked in `wait`. -/
  | asleep
  /-- Outside the lock, in the task it took. -/
  | running (task : α)
  /-- Returned. -/
  | exited
  deriving DecidableEq

structure ThreadPool (α : Type u) where
  threads : List (Worker α)
  tasks : List α := []
  stop : Bool := false
  /-- How many pushes have left the lock and not yet called `notify_one`. -/
  notices : Nat := 0
  /-- The destructor has left the lock and not yet called `notify_all`. -/
  notifyAll : Bool := false

namespace Worker

variable {α : Type u}

def isAsleep : Worker α → Bool
  | .asleep => true
  | _ => false

def wakeUp : Worker α → Worker α
  | .asleep => .awake
  | worker => worker

def task? : Worker α → Option α
  | .running task => some task
  | _ => none

end Worker

namespace ThreadPool

variable {α : Type u}

inductive Action (α : Type u)
  | push (task : α)
  /-- The worker in front of the lock gets it. -/
  | lock (worker : Nat)
  | finish (worker : Nat)
  /-- A push calls `notify_one`, which wakes this worker if any is asleep. -/
  | notifyOne (worker : Nat)
  | wakeUp (worker : Nat)
  | destroy
  | notifyAll

inductive Event (α : Type u)
  | accepted (task : α)
  | refused (task : α)
  | taken (worker : Nat) (task : α)
  | executed (worker : Nat) (task : α)
  | slept (worker : Nat)
  | exited (worker : Nat)
  | notified
  /-- A worker has woken up by itself. -/
  | woken (worker : Nat)
  | stopped

/-- The constructor: at least one worker. -/
def new (numThreads hardwareConcurrency : Nat) : ThreadPool α :=
  let numThreads :=
    if numThreads = 0 then (if hardwareConcurrency = 0 then 1 else hardwareConcurrency)
    else numThreads
  { threads := List.replicate numThreads .awake }

def push (s : ThreadPool α) (task : α) : Event α × ThreadPool α :=
  if s.stop then (.refused task, s)
  else (.accepted task, { s with tasks := s.tasks ++ [task], notices := s.notices + 1 })

/-- What a worker becomes under the lock, and what it leaves of the tasks: it waits for a task
or for `stop`, returns when it is stopped and no task is left, and else takes the first. -/
def critical (stop : Bool) : List α → Worker α × List α
  | [] => (if stop then .exited else .asleep, [])
  | task :: rest => (.running task, rest)

def lockEvent (i : Nat) : Worker α → Event α
  | .running task => .taken i task
  | .exited => .exited i
  | _ => .slept i

def lock (s : ThreadPool α) (i : Nat) : Option (Event α × ThreadPool α) :=
  match s.threads[i]? with
  | some .awake =>
    let (worker, tasks) := critical s.stop s.tasks
    some (lockEvent i worker, { s with threads := s.threads.set i worker, tasks })
  | _ => none

def finish (s : ThreadPool α) (i : Nat) : Option (Event α × ThreadPool α) :=
  match s.threads[i]? with
  | some (.running task) =>
    some (.executed i task, { s with threads := s.threads.set i .awake })
  | _ => none

def wakeUp (s : ThreadPool α) (i : Nat) : Option (ThreadPool α) :=
  match s.threads[i]? with
  | some .asleep => some { s with threads := s.threads.set i .awake }
  | _ => none

def notifyOne (s : ThreadPool α) (i : Nat) : Option (ThreadPool α) :=
  match s.notices with
  | 0 => none
  | notices + 1 =>
    if s.threads.any Worker.isAsleep then wakeUp { s with notices } i else some { s with notices }

def step (s : ThreadPool α) : Action α → Option (Event α × ThreadPool α)
  | .push task => some (s.push task)
  | .lock i => s.lock i
  | .finish i => s.finish i
  | .notifyOne i => (s.notifyOne i).map fun s => (.notified, s)
  | .wakeUp i => (s.wakeUp i).map fun s => (.woken i, s)
  | .destroy => if s.stop then none else some (.stopped, { s with stop := true, notifyAll := true })
  | .notifyAll =>
    if s.notifyAll then
      some (.notified, { s with threads := s.threads.map Worker.wakeUp, notifyAll := false })
    else none

def run (s : ThreadPool α) : List (Action α) → Option (List (Event α) × ThreadPool α)
  | [] => some ([], s)
  | action :: actions =>
    match s.step action with
    | none => none
    | some (event, s) => (run s actions).map fun rest => (event :: rest.1, rest.2)

def inHand (s : ThreadPool α) : List α := s.threads.filterMap Worker.task?

namespace Event

def accepted? : Event α → List α
  | .accepted task => [task]
  | _ => []

def taken? : Event α → List α
  | .taken _ task => [task]
  | _ => []

def executed? : Event α → List α
  | .executed _ task => [task]
  | _ => []

def isWork : Event α → Bool
  | .taken .. | .executed .. | .slept _ | .exited _ | .notified => true
  | .accepted _ | .refused _ | .woken _ | .stopped => false

end Event

end ThreadPool

end HzMq
