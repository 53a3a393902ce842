import HzMq.Library.Run

/-!
# Registers

A register is a part of the state that some steps write and that all other steps
leave alone. After a run it holds what was written last, or what it held at the
start when the run never writes.
-/

namespace Machine

universe u v w

variable {σ : Type u} {α : Type v} {τ : Type w}

structure Register (step : σ → α → σ) (τ : Type w) where
  read : σ → τ
  /-- What a step writes; `none` when it leaves the register alone. -/
  write : σ → α → Option τ
  read_step : ∀ s a, read (step s a) = (write s a).getD (read s)

namespace Register

variable {step : σ → α → σ} (reg : Register step τ)

def Untouched : σ → List α → Prop := Along step fun s a => reg.write s a = none

def Last (s : σ) (as : List α) (v : τ) : Prop :=
  ∃ before a after, as = before ++ a :: after ∧ reg.write (exec step s before) a = some v ∧
    reg.Untouched (exec step s (before ++ [a])) after

theorem read_of_untouched {s : σ} {as : List α} (quiet : reg.Untouched s as) :
    reg.read (exec step s as) = reg.read s := by
  induction as generalizing s with
  | nil => rfl
  | cons a as ih =>
    rw [exec_cons, ih quiet.2, reg.read_step, quiet.1, Option.getD_none]

theorem read_of_last {s : σ} {as : List α} {v : τ} (last : reg.Last s as v) :
    reg.read (exec step s as) = v := by
  obtain ⟨before, a, after, rfl, written, quiet⟩ := last
  rw [← List.singleton_append, ← List.append_assoc, exec_append, reg.read_of_untouched quiet,
    exec_append, exec_cons, exec_nil, reg.read_step, written, Option.getD_some]

theorem untouched_or_last (s : σ) (as : List α) : reg.Untouched s as ∨ ∃ v, reg.Last s as v := by
  induction as generalizing s with
  | nil => exact Or.inl trivial
  | cons a as ih =>
    rcases ih (step s a) with quiet | ⟨v, before, b, after, rfl, written, quiet⟩
    · cases written : reg.write s a with
      | none => exact Or.inl ⟨written, quiet⟩
      | some v => exact Or.inr ⟨v, [], a, as, rfl, written, quiet⟩
    · exact Or.inr ⟨v, a :: before, b, after, rfl, written, quiet⟩

/-- The register holds a value exactly when it was written last, or was there and stayed. -/
theorem read_exec_iff (s : σ) (as : List α) (v : τ) :
    reg.read (exec step s as) = v ↔
      reg.Last s as v ∨ (reg.Untouched s as ∧ reg.read s = v) := by
  constructor
  · rintro rfl
    rcases reg.untouched_or_last s as with quiet | ⟨v, last⟩
    · exact Or.inr ⟨quiet, (reg.read_of_untouched quiet).symm⟩
    · rw [reg.read_of_last last]
      exact Or.inl last
  · rintro (last | ⟨quiet, start⟩)
    · exact reg.read_of_last last
    · rw [reg.read_of_untouched quiet, start]

end Register

end Machine
