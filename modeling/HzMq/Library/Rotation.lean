import Mathlib.Algebra.Order.Floor.Div
import Mathlib.Data.Int.CardIntervalMod

/-!
# Taking turns

The elements of a list are given out one after the other, and from the first again
after the last. The place to start at is a number of any size, taken modulo the
length. However many turns there are, two elements differ by one turn at most.
-/

namespace Rotation

universe u

variable {α : Type u}

/-- Whose turn it is at a place of the rota. -/
def turn (xs : List α) (place : Nat) : Option α := xs[place % xs.length]?

def turns (xs : List α) (place k : Nat) : List (Option α) :=
  (List.range k).map fun i => turn xs (place + i)

@[simp] theorem turns_zero (xs : List α) (place : Nat) : turns xs place 0 = [] := rfl

theorem turns_succ (xs : List α) (place k : Nat) :
    turns xs place (k + 1) = turn xs place :: turns xs (place + 1) k := by
  rw [turns, List.range_succ_eq_map, List.map_cons, List.map_map]
  refine congrArg _ (List.map_congr_left fun i _ => ?_)
  rw [Function.comp_apply, Nat.add_right_comm, Nat.add_assoc]

theorem turns_mod (xs : List α) (place k : Nat) :
    turns xs (place % xs.length) k = turns xs place k := by
  simp [turns, turn]

variable {xs : List α} {place : Nat}

/-- The turns of an element are a residue class of turns. -/
theorem turn_eq_some_iff (distinct : xs.Nodup) {j : Nat} (inside : j < xs.length) (i : Nat) :
    turn xs (place + i) = some xs[j] ↔
      i ≡ j + (xs.length - place % xs.length) [MOD xs.length] := by
  have positive : 0 < xs.length := Nat.zero_lt_of_lt inside
  have small := Nat.mod_lt (place + i) positive
  have onPlace : turn xs (place + i) = some xs[j] ↔ place + i ≡ j [MOD xs.length] := by
    rw [turn, List.getElem?_eq_getElem small, Option.some.injEq, distinct.getElem_inj_iff,
      Nat.ModEq, Nat.mod_eq_of_lt inside]
  have wraps : place + (j + (xs.length - place % xs.length)) =
      j + xs.length * (place / xs.length + 1) := by
    have split := Nat.mod_add_div place xs.length
    have below := Nat.mod_lt place positive
    rw [Nat.mul_add, Nat.mul_one]
    omega
  have around : place + (j + (xs.length - place % xs.length)) ≡ j [MOD xs.length] := by
    rw [wraps, Nat.ModEq, Nat.add_mul_mod_self_left]
  rw [onPlace]
  constructor
  · exact fun same => Nat.ModEq.add_left_cancel' place (same.trans around.symm)
  · exact fun same => (same.add_left place).trans around

variable [DecidableEq α]

/-- In any number of turns each element gets its share, rounded down or up. -/
theorem count_turns (distinct : xs.Nodup) {x : α} (member : x ∈ xs) (place k : Nat) :
    (turns xs place k).count (some x) = k / xs.length ∨
      (turns xs place k).count (some x) = k ⌈/⌉ xs.length := by
  obtain ⟨j, inside, rfl⟩ := List.getElem_of_mem member
  have positive : 0 < xs.length := Nat.zero_lt_of_lt inside
  have counted : (turns xs place k).count (some xs[j]) =
      k.count (· ≡ j + (xs.length - place % xs.length) [MOD xs.length]) := by
    rw [turns, List.count, List.countP_map, Nat.count]
    refine List.countP_congr ?_
    intro i _
    simpa using turn_eq_some_iff distinct inside i
  rw [counted, Nat.count_modEq_card _ positive]
  split
  · next more =>
    right
    have split := Nat.mod_add_div k xs.length
    rw [Nat.ceilDiv_eq_add_pred_div]
    have up : k + xs.length - 1 =
        (k % xs.length - 1) + xs.length * (k / xs.length + 1) := by
      rw [Nat.mul_add, Nat.mul_one]
      omega
    have below : k % xs.length - 1 < xs.length := by
      have := Nat.mod_lt k positive
      omega
    rw [up, Nat.add_mul_div_left _ _ positive, Nat.div_eq_of_lt below, Nat.zero_add]
  · exact Or.inl (Nat.add_zero _)

end Rotation
