import Mathlib.Logic.Basic

/-!
# Loops with breaks

The body of a `while (true)` is a function that either leaves the loop with an
answer or goes on in a new state. `Ends` says that the loop is left after
finitely many rounds; `run` cuts it off after a given number.
-/

namespace Loop

universe u v

variable {σ : Type u} {β : Type v}

inductive Ends (round : σ → σ ⊕ β) : σ → β → Prop
  | leave {s : σ} {b : β} : round s = .inr b → Ends round s b
  | again {s s' : σ} {b : β} : round s = .inl s' → Ends round s' b → Ends round s b

/-- The first so many rounds; `cut` is the answer when these were not enough. -/
def run (round : σ → σ ⊕ β) (cut : σ → β) : Nat → σ → β
  | 0, s => cut s
  | fuel + 1, s =>
    match round s with
    | .inr b => b
    | .inl s' => run round cut fuel s'

variable {round : σ → σ ⊕ β} {s : σ} {b b' : β}

theorem Ends.unique (ends : Ends round s b) (ends' : Ends round s b') : b = b' := by
  induction ends with
  | leave left =>
    cases ends' with
    | leave left' => exact Sum.inr.inj (left.symm.trans left')
    | again goes' _ => cases left.symm.trans goes'
  | again goes _ ih =>
    cases ends' with
    | leave left' => cases goes.symm.trans left'
    | again goes' rest =>
      obtain rfl := Sum.inl.inj (goes.symm.trans goes')
      exact ih rest

/-- What the rounds keep holds when the loop is left, or cut off. -/
theorem run_rule {cut : σ → β} (Inv : σ → Prop) (Post : β → Prop)
    (again : ∀ s s', Inv s → round s = .inl s' → Inv s')
    (leave : ∀ s b, Inv s → round s = .inr b → Post b) (cut' : ∀ s, Inv s → Post (cut s))
    (fuel : Nat) (start : Inv s) : Post (run round cut fuel s) := by
  induction fuel generalizing s with
  | zero => exact cut' s start
  | succ fuel ih =>
    rw [run]
    cases result : round s with
    | inr b => exact leave s b start result
    | inl s' => exact ih (again s s' start result)

/-- When every round that goes on makes a number smaller, the loop ends within that many
rounds. -/
theorem ends_run (measure : σ → Nat)
    (decreases : ∀ s s', round s = .inl s' → measure s' < measure s) (cut : σ → β) {fuel : Nat}
    (enough : measure s < fuel) : Ends round s (run round cut fuel s) := by
  induction fuel generalizing s with
  | zero => omega
  | succ fuel ih =>
    rw [run]
    cases result : round s with
    | inr b => exact .leave result
    | inl s' =>
      have smaller := decreases s s' result
      exact .again result (ih (by omega))

theorem ends_iff_run (measure : σ → Nat)
    (decreases : ∀ s s', round s = .inl s' → measure s' < measure s) (cut : σ → β) {fuel : Nat}
    (enough : measure s < fuel) : Ends round s b ↔ b = run round cut fuel s := by
  have ends := ends_run measure decreases cut enough
  constructor
  · intro other
    exact other.unique ends
  · rintro rfl
    exact ends

end Loop
