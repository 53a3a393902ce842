import Mathlib.Order.Basic

/-!
# Runs of a state machine

A machine is a function `step : σ → α → σ`. `Along P` says that every step of a
run meets `P` at the state before it; an invariant that such steps keep holds
at the end of the run.
-/

namespace Machine

universe u v w

variable {σ : Type u} {α : Type v}

def exec (step : σ → α → σ) (s : σ) (inputs : List α) : σ := inputs.foldl step s

@[simp] theorem exec_nil (step : σ → α → σ) (s : σ) : exec step s [] = s := rfl

@[simp] theorem exec_cons (step : σ → α → σ) (s : σ) (a : α) (as : List α) :
    exec step s (a :: as) = exec step (step s a) as := rfl

theorem exec_append (step : σ → α → σ) (s : σ) (as bs : List α) :
    exec step s (as ++ bs) = exec step (exec step s as) bs := List.foldl_append

/-- A part of the state that moves by itself is the run of that part. -/
theorem exec_project {τ : Type w} {step : σ → α → σ} {step' : τ → α → τ} (part : σ → τ)
    (simulates : ∀ s a, part (step s a) = step' (part s) a) (s : σ) (as : List α) :
    part (exec step s as) = exec step' (part s) as := by
  induction as generalizing s with
  | nil => rfl
  | cons a as ih => rw [exec_cons, exec_cons, ih, simulates]

def Along (step : σ → α → σ) (P : σ → α → Prop) : σ → List α → Prop
  | _, [] => True
  | s, a :: as => P s a ∧ Along step P (step s a) as

instance decidableAlong (step : σ → α → σ) (P : σ → α → Prop) [∀ s a, Decidable (P s a)] :
    ∀ s as, Decidable (Along step P s as)
  | _, [] => isTrue trivial
  | s, a :: as =>
    have := decidableAlong step P (step s a) as
    inferInstanceAs (Decidable (P s a ∧ Along step P (step s a) as))

theorem along_of_forall {step : σ → α → σ} {P : σ → α → Prop} {as : List α}
    (every : ∀ a ∈ as, ∀ s, P s a) (s : σ) : Along step P s as := by
  induction as generalizing s with
  | nil => trivial
  | cons a as ih =>
    exact ⟨every a List.mem_cons_self s,
      ih (fun b member => every b (List.mem_cons_of_mem a member)) _⟩

theorem Along.and {step : σ → α → σ} {P Q : σ → α → Prop} {s : σ} {as : List α}
    (first : Along step P s as) (second : Along step Q s as) :
    Along step (fun s a => P s a ∧ Q s a) s as := by
  induction as generalizing s with
  | nil => trivial
  | cons a as ih => exact ⟨⟨first.1, second.1⟩, ih first.2 second.2⟩

theorem along_append {step : σ → α → σ} {P : σ → α → Prop} {s : σ} {as bs : List α} :
    Along step P s (as ++ bs) ↔ Along step P s as ∧ Along step P (exec step s as) bs := by
  induction as generalizing s with
  | nil => simp [Along]
  | cons a as ih => exact (and_congr_right fun _ => ih).trans and_assoc.symm

/-- The induction over a run: what every allowed step keeps, the run keeps. -/
theorem Along.invariant {step : σ → α → σ} {P : σ → α → Prop} {Inv : σ → Prop}
    (keep : ∀ s a, Inv s → P s a → Inv (step s a)) {s : σ} {as : List α}
    (start : Inv s) (h : Along step P s as) : Inv (exec step s as) := by
  induction as generalizing s with
  | nil => exact start
  | cons a as ih => exact ih (keep s a start h.1) h.2

section Rank

variable {step : σ → α → σ} {P : σ → α → Prop} {Inv : σ → Prop} {rank : σ → Nat}

/-- Steps that lower a number are at most as many. -/
theorem Along.length_le (keep : ∀ s a, Inv s → P s a → Inv (step s a))
    (lower : ∀ s a, Inv s → P s a → rank (step s a) < rank s) {s : σ} {as : List α}
    (start : Inv s) (h : Along step P s as) : as.length ≤ rank s := by
  induction as generalizing s with
  | nil => exact Nat.zero_le _
  | cons a as ih =>
    exact Nat.succ_le_of_lt
      (Nat.lt_of_le_of_lt (ih (keep s a start h.1) h.2) (lower s a start h.1))

/-- Made for as long as there is one, they come to an end. -/
theorem exists_along_settled (keep : ∀ s a, Inv s → P s a → Inv (step s a))
    (lower : ∀ s a, Inv s → P s a → rank (step s a) < rank s) {s : σ} (start : Inv s) :
    ∃ as, Along step P s as ∧ ∀ a, ¬P (exec step s as) a := by
  induction left : rank s using Nat.strongRecOn generalizing s with
  | _ n ih =>
    subst left
    by_cases settled : ∀ a, ¬P s a
    · exact ⟨[], trivial, settled⟩
    · obtain ⟨a, possible⟩ := not_forall_not.mp settled
      obtain ⟨as, along, ends⟩ := ih _ (lower s a start possible) (keep s a start possible) rfl
      exact ⟨a :: as, ⟨possible, along⟩, ends⟩

end Rank

/-- A condition that is exact for every step taken while the invariant holds is exact for
the run, when each step that meets the conclusion keeps the invariant. -/
theorem along_congr {step : σ → α → σ} {P Q : σ → α → Prop} (Inv : σ → Prop)
    (exact' : ∀ s a, Inv s → (P s a ↔ Q s a)) (keep : ∀ s a, Inv s → Q s a → Inv (step s a))
    {s : σ} (start : Inv s) (as : List α) : Along step P s as ↔ Along step Q s as := by
  induction as generalizing s with
  | nil => exact Iff.rfl
  | cons a as ih =>
    constructor
    · intro h
      have met := (exact' s a start).mp h.1
      exact ⟨met, (ih (keep s a start met)).mp h.2⟩
    · intro h
      exact ⟨(exact' s a start).mpr h.1, (ih (keep s a start h.1)).mpr h.2⟩

theorem along_project {τ : Type w} {step : σ → α → σ} {step' : τ → α → τ} (part : σ → τ)
    (simulates : ∀ s a, part (step s a) = step' (part s) a) (P : τ → α → Prop) (s : σ)
    (as : List α) : Along step (fun s a => P (part s) a) s as ↔ Along step' P (part s) as := by
  induction as generalizing s with
  | nil => exact Iff.rfl
  | cons a as ih =>
    have rest := ih (step s a)
    rw [simulates] at rest
    exact and_congr Iff.rfl rest

/-- Somewhere in the run there is a step of the first kind, and one of the second kind
there or later. -/
def Follows (first second : α → Prop) (as : List α) : Prop :=
  ∃ before a after, as = before ++ a :: after ∧ first a ∧ ∃ b ∈ a :: after, second b

/-- What is switched off stays off until it is prepared by a step of the first kind and
then switched on by one of the second. -/
theorem exec_until {step : σ → α → σ} (Inv Unprepared Off : σ → Prop) {first second : α → Prop}
    (keep : ∀ s a, Inv s → Inv (step s a))
    (unprepared : ∀ s a, Inv s → Unprepared s → ¬first a → Unprepared (step s a))
    (off : ∀ s a, Inv s → Off s → ¬second a → Off (step s a))
    (off_of_unprepared : ∀ s, Inv s → Unprepared s → Off s) {s : σ} {as : List α}
    (start : Inv s) (before : Unprepared s) (never : ¬Follows first second as) :
    Off (exec step s as) := by
  have stays (as : List α) (s : σ) (start : Inv s) (isOff : Off s)
      (none : ∀ a ∈ as, ¬second a) : Off (exec step s as) := by
    induction as generalizing s with
    | nil => exact isOff
    | cons a as ih =>
      exact ih _ (keep s a start) (off s a start isOff (none a List.mem_cons_self))
        fun b member => none b (List.mem_cons_of_mem a member)
  induction as generalizing s with
  | nil => exact off_of_unprepared s start before
  | cons a as ih =>
    by_cases prepares : first a
    · refine stays (a :: as) s start (off_of_unprepared s start before) ?_
      intro b member on
      exact never ⟨[], a, as, rfl, prepares, b, member, on⟩
    · refine ih (keep s a start) (unprepared s a start before prepares) ?_
      rintro ⟨init, b, after, rfl, found⟩
      exact never ⟨a :: init, b, after, rfl, found⟩

inductive Reachable (initial : σ → Prop) (step : σ → α → σ) : σ → Prop
  | start {s} : initial s → Reachable initial step s
  | next {s} (a : α) : Reachable initial step s → Reachable initial step (step s a)

theorem Reachable.invariant {initial : σ → Prop} {step : σ → α → σ} {Inv : σ → Prop}
    (start : ∀ s, initial s → Inv s) (keep : ∀ s a, Inv s → Inv (step s a)) {s : σ}
    (reached : Reachable initial step s) : Inv s := by
  induction reached with
  | start h => exact start _ h
  | next a _ ih => exact keep _ a ih

theorem Reachable.exec {initial : σ → Prop} {step : σ → α → σ} {s : σ}
    (reached : Reachable initial step s) (as : List α) :
    Reachable initial step (exec step s as) := by
  induction as generalizing s with
  | nil => exact reached
  | cons a as ih => exact ih (reached.next a)

end Machine
