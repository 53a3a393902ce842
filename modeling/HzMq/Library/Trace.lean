import Mathlib.Data.List.Perm.Basic

/-!
# Traces of labelled steps

A step relation whose labels say what happened. What is held in a state, what comes
in and what goes out are lists; a law that balances them for one step balances them
for a whole trace. Steps that lower a number end.
-/

universe u v w

/-- The labels of the steps from one state to another. -/
inductive Trace {σ : Type u} {ε : Type v} (step : σ → ε → σ → Prop) : σ → List ε → σ → Prop
  | nil (s : σ) : Trace step s [] s
  | cons {s t u : σ} {e : ε} {es : List ε} : step s e t → Trace step t es u →
      Trace step s (e :: es) u

namespace Trace

variable {σ : Type u} {ε : Type v} {μ : Type w} {step : σ → ε → σ → Prop} {s t : σ} {es : List ε}

/-- What each step keeps, the trace keeps. -/
theorem invariant {Inv : σ → Prop} (keep : ∀ s e t, step s e t → Inv s → Inv t)
    (trace : Trace step s es t) (start : Inv s) : Inv t := by
  induction trace with
  | nil => exact start
  | cons one _ ih => exact ih (keep _ _ _ one start)

theorem append_iff {es fs : List ε} :
    Trace step s (es ++ fs) t ↔ ∃ u, Trace step s es u ∧ Trace step u fs t := by
  induction es generalizing s with
  | nil =>
    constructor
    · exact fun trace => ⟨s, .nil s, trace⟩
    · rintro ⟨_, _ | _, trace⟩
      exact trace
  | cons e es ih =>
    constructor
    · rintro (_ | ⟨one, rest⟩)
      obtain ⟨u, first, second⟩ := ih.mp rest
      exact ⟨u, .cons one first, second⟩
    · rintro ⟨u, _ | ⟨one, first⟩, second⟩
      exact .cons one (ih.mpr ⟨u, first, second⟩)

section Ledger

variable {held : σ → List μ} {ins outs : ε → List μ}

/-- In order: what went out and what is held is what was held and what came in. -/
theorem ledger_eq (balance : ∀ s e t, step s e t → outs e ++ held t = held s ++ ins e)
    (trace : Trace step s es t) : es.flatMap outs ++ held t = held s ++ es.flatMap ins := by
  induction trace with
  | nil => simp
  | @cons s t u e es one _ ih =>
    calc (e :: es).flatMap outs ++ held u = outs e ++ (es.flatMap outs ++ held u) := by
          rw [List.flatMap_cons, List.append_assoc]
      _ = (outs e ++ held t) ++ es.flatMap ins := by rw [ih, List.append_assoc]
      _ = held s ++ (e :: es).flatMap ins := by
          rw [balance s e t one, List.flatMap_cons, List.append_assoc]

/-- In any order: nothing is lost and nothing is counted twice. -/
theorem ledger_perm (balance : ∀ s e t, step s e t → (outs e ++ held t).Perm (held s ++ ins e))
    (trace : Trace step s es t) :
    (es.flatMap outs ++ held t).Perm (held s ++ es.flatMap ins) := by
  induction trace with
  | nil => simp
  | @cons s t u e es one _ ih =>
    rw [List.flatMap_cons, List.flatMap_cons, List.append_assoc, ← List.append_assoc (held s)]
    refine (ih.append_left (outs e)).trans ?_
    rw [← List.append_assoc]
    exact (balance s e t one).append_right _

end Ledger

/-- Steps that lower a rank are at most as many as the rank. -/
theorem length_le_rank {rank : σ → Nat} {Lowers : ε → Prop}
    (lower : ∀ s e t, step s e t → Lowers e → rank t < rank s) (trace : Trace step s es t)
    (all : ∀ e ∈ es, Lowers e) : es.length ≤ rank s := by
  induction trace with
  | nil => exact Nat.zero_le _
  | cons one _ ih =>
    obtain ⟨first, later⟩ := List.forall_mem_cons.mp all
    exact Nat.succ_le_of_lt (Nat.lt_of_le_of_lt (ih later) (lower _ _ _ one first))

end Trace
