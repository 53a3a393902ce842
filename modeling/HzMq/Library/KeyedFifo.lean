import HzMq.Library.Trace
import Mathlib.Logic.Function.Basic
import Mathlib.Data.List.Perm.Basic

/-!
# Keyed queues, abstractly

A family of queues indexed by a key. `BagStep` appends at the end of one queue
or takes an element of one queue from anywhere; `FifoStep` takes only the
first. Whatever the order of the steps, what was taken from a queue together
with what it still holds is what it held plus what was appended; for FIFO
steps the two sequences are even equal.
-/

namespace KeyedFifo

universe u v

variable {κ : Type u} {μ : Type v} [DecidableEq κ]

inductive Event (κ : Type u) (μ : Type v)
  | put (key : κ) (item : μ)
  | take (key : κ) (item : μ)

abbrev Queues (κ : Type u) (μ : Type v) := κ → List μ

def puts (key : κ) (events : List (Event κ μ)) : List μ :=
  events.filterMap fun
    | .put k m => if k = key then some m else none
    | .take _ _ => none

def takes (key : κ) (events : List (Event κ μ)) : List μ :=
  events.filterMap fun
    | .put _ _ => none
    | .take k m => if k = key then some m else none

inductive FifoStep : Queues κ μ → Event κ μ → Queues κ μ → Prop
  | put {s : Queues κ μ} (k : κ) (m : μ) :
      FifoStep s (.put k m) (Function.update s k (s k ++ [m]))
  | take {s : Queues κ μ} (k : κ) (m : μ) (rest : List μ) : s k = m :: rest →
      FifoStep s (.take k m) (Function.update s k rest)

inductive BagStep : Queues κ μ → Event κ μ → Queues κ μ → Prop
  | put {s : Queues κ μ} (k : κ) (m : μ) :
      BagStep s (.put k m) (Function.update s k (s k ++ [m]))
  | take {s : Queues κ μ} (k : κ) (m : μ) (before after : List μ) : s k = before ++ m :: after →
      BagStep s (.take k m) (Function.update s k (before ++ after))

/-- Runs of either kind of step. -/
inductive Steps (step : Queues κ μ → Event κ μ → Queues κ μ → Prop) :
    Queues κ μ → List (Event κ μ) → Queues κ μ → Prop
  | nil (s) : Steps step s [] s
  | cons {s t u e es} : step s e t → Steps step t es u → Steps step s (e :: es) u

omit [DecidableEq κ] in
theorem Steps.append {step : Queues κ μ → Event κ μ → Queues κ μ → Prop} {s t u : Queues κ μ}
    {es fs : List (Event κ μ)} (first : Steps step s es t) (second : Steps step t fs u) :
    Steps step s (es ++ fs) u := by
  induction first with
  | nil => exact second
  | cons one _ ih => exact .cons one (ih second)

omit [DecidableEq κ] in
theorem Steps.one {step : Queues κ μ → Event κ μ → Queues κ μ → Prop} {s t : Queues κ μ}
    {e : Event κ μ} (h : step s e t) : Steps step s [e] t := .cons h (.nil t)

omit [DecidableEq κ] in
theorem Steps.trace {step : Queues κ μ → Event κ μ → Queues κ μ → Prop} {s t : Queues κ μ}
    {es : List (Event κ μ)} (run : Steps step s es t) : Trace step s es t := by
  induction run with
  | nil s => exact .nil s
  | cons one _ ih => exact .cons one ih

@[simp] theorem puts_nil (key : κ) : puts key ([] : List (Event κ μ)) = [] := rfl

@[simp] theorem takes_nil (key : κ) : takes key ([] : List (Event κ μ)) = [] := rfl

@[simp] theorem puts_append (key : κ) (es fs : List (Event κ μ)) :
    puts key (es ++ fs) = puts key es ++ puts key fs := List.filterMap_append

@[simp] theorem takes_append (key : κ) (es fs : List (Event κ μ)) :
    takes key (es ++ fs) = takes key es ++ takes key fs := List.filterMap_append

theorem puts_eq_flatMap (key : κ) (es : List (Event κ μ)) :
    puts key es = es.flatMap fun e => puts key [e] := by
  induction es with
  | nil => rfl
  | cons e es ih => rw [List.flatMap_cons, ← ih, ← puts_append, List.singleton_append]

theorem takes_eq_flatMap (key : κ) (es : List (Event κ μ)) :
    takes key es = es.flatMap fun e => takes key [e] := by
  induction es with
  | nil => rfl
  | cons e es ih => rw [List.flatMap_cons, ← ih, ← takes_append, List.singleton_append]

theorem takes_log (key : κ) (log : List (κ × μ)) :
    takes key (log.map fun e => Event.put e.1 e.2) = [] := by
  simp [takes, List.filterMap_map]

theorem puts_log (key : κ) (log : List (κ × μ)) :
    puts key (log.map fun e => Event.put e.1 e.2) =
      (log.filter fun e => e.1 = key).map Prod.snd := by
  induction log with
  | nil => rfl
  | cons e log ih =>
    by_cases here : e.1 = key
    · simpa [puts, here] using ih
    · simpa [puts, here] using ih

theorem FifoStep.ledger {s t : Queues κ μ} {e : Event κ μ} (h : FifoStep s e t) (key : κ) :
    takes key [e] ++ t key = s key ++ puts key [e] := by
  cases h with
  | put k m =>
    by_cases same : k = key
    · subst same
      simp [takes, puts]
    · simp [takes, puts, same, Function.update_of_ne (Ne.symm same)]
  | take k m rest held =>
    by_cases same : k = key
    · subst same
      simp [takes, puts, held]
    · simp [takes, puts, same, Function.update_of_ne (Ne.symm same)]

/-- In a FIFO run the taken elements and then the remaining ones are, in order,
the initial ones and then the appended ones. -/
theorem Steps.fifo_ledger {s t : Queues κ μ} {es : List (Event κ μ)}
    (run : Steps FifoStep s es t) (key : κ) :
    takes key es ++ t key = s key ++ puts key es := by
  have balance (s : Queues κ μ) (e : Event κ μ) (t : Queues κ μ) (one : FifoStep s e t) :
      takes key [e] ++ t key = s key ++ puts key [e] := one.ledger key
  rw [takes_eq_flatMap, puts_eq_flatMap]
  exact Trace.ledger_eq balance run.trace

theorem FifoStep.bagStep {s t : Queues κ μ} {e : Event κ μ} (h : FifoStep s e t) :
    BagStep s e t := by
  cases h with
  | put k m => exact .put k m
  | take k m rest held => exact .take k m [] rest held

theorem Steps.bag {s t : Queues κ μ} {es : List (Event κ μ)} (run : Steps FifoStep s es t) :
    Steps BagStep s es t := by
  induction run with
  | nil s => exact .nil s
  | cons one _ ih => exact .cons one.bagStep ih

theorem BagStep.ledger {s t : Queues κ μ} {e : Event κ μ} (h : BagStep s e t) (key : κ) :
    (takes key [e] ++ t key).Perm (s key ++ puts key [e]) := by
  cases h with
  | put k m =>
    by_cases same : k = key
    · subst same
      simp [takes, puts]
    · simp [takes, puts, same, Function.update_of_ne (Ne.symm same)]
  | take k m before after held =>
    by_cases same : k = key
    · subst same
      simpa [takes, puts, held] using List.perm_middle.symm
    · simp [takes, puts, same, Function.update_of_ne (Ne.symm same)]

/-- The accounting law: nothing is lost and nothing is counted twice. -/
theorem Steps.bag_ledger {s t : Queues κ μ} {es : List (Event κ μ)}
    (run : Steps BagStep s es t) (key : κ) :
    (takes key es ++ t key).Perm (s key ++ puts key es) := by
  have balance (s : Queues κ μ) (e : Event κ μ) (t : Queues κ μ) (one : BagStep s e t) :
      (takes key [e] ++ t key).Perm (s key ++ puts key [e]) := one.ledger key
  rw [takes_eq_flatMap, puts_eq_flatMap]
  exact Trace.ledger_perm balance run.trace

section Log

variable {log : List (κ × μ)}

/-- A log has no entry for a key it does not name. -/
theorem log_filter_absent {key : κ} (absent : key ∉ log.map Prod.fst) :
    log.filter (fun e => e.1 = key) = [] := by
  rw [List.filter_eq_nil_iff]
  intro e inLog named
  exact absent (List.mem_map.mpr ⟨e, inLog, by simpa using named⟩)

/-- It has just one for a key it names once. -/
theorem log_filter_singleton (distinct : (log.map Prod.fst).Nodup) {e : κ × μ}
    (member : e ∈ log) : log.filter (fun x => x.1 = e.1) = [e] := by
  induction log with
  | nil => cases member
  | cons x log ih =>
    obtain ⟨fresh, rest⟩ := List.nodup_cons.mp distinct
    rcases List.mem_cons.mp member with rfl | later
    · simp [log_filter_absent fresh]
    · have other : x.1 ≠ e.1 := fun same => fresh (same ▸ List.mem_map_of_mem later)
      simp [other, ih rest later]

theorem log_filter_length_le_one (distinct : (log.map Prod.fst).Nodup) (key : κ) :
    (log.filter fun e => e.1 = key).length ≤ 1 := by
  by_cases named : key ∈ log.map Prod.fst
  · obtain ⟨e, inLog, rfl⟩ := List.mem_map.mp named
    exact Nat.le_of_eq (congrArg List.length (log_filter_singleton distinct inLog))
  · rw [log_filter_absent named]
    exact Nat.zero_le 1

end Log

end KeyedFifo
