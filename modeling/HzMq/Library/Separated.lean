import Mathlib.Data.List.Basic

/-!
# Texts with separators

The first separator cuts a text into the piece before it and the text behind it.
Cutting off one piece after the other gives the pieces of `List.splitOn`.
-/

namespace Separated

universe u

variable {α : Type u} [DecidableEq α] {sep : α} {text before after : List α}

theorem not_mem_of_mem_splitOn {piece : List α} (member : piece ∈ text.splitOn sep) :
    sep ∉ piece := by
  induction text generalizing piece with
  | nil =>
    obtain rfl : piece = [] := by simpa using member
    exact List.not_mem_nil
  | cons c cs ih =>
    rw [List.splitOn_cons_eq_if_modifyHead] at member
    split at member
    · rcases List.mem_cons.mp member with rfl | later
      · exact List.not_mem_nil
      · exact ih later
    · next other =>
      obtain ⟨first, rest, pieces⟩ := List.exists_cons_of_ne_nil (List.splitOn_ne_nil sep cs)
      rw [pieces] at ih member
      rcases List.mem_cons.mp member with rfl | later
      · rw [List.mem_cons, not_or]
        exact ⟨fun same => other (beq_iff_eq.mpr same.symm), ih List.mem_cons_self⟩
      · exact ih (List.mem_cons_of_mem first later)

/-- A text that does not end with the separator ends as its last piece does. -/
theorem splitOn_concat {c : α} (inside : c ≠ sep) (text : List α) :
    ∃ init last, (text ++ [c]).splitOn sep = init ++ [last ++ [c]] := by
  induction text with
  | nil => exact ⟨[], [], by simp [List.splitOn_cons_eq_if_modifyHead, inside]⟩
  | cons x text ih =>
    obtain ⟨init, last, split⟩ := ih
    rw [List.cons_append, List.splitOn_cons_eq_if_modifyHead, split]
    by_cases cut : x = sep
    · exact ⟨[] :: init, last, by simp [cut]⟩
    · cases init with
      | nil => exact ⟨[], x :: last, by simp [cut]⟩
      | cons first init => exact ⟨(x :: first) :: init, last, by simp [cut]⟩

theorem idxOf?_append_cons (fresh : sep ∉ before) (after : List α) :
    (before ++ sep :: after).idxOf? sep = some before.length := by
  induction before with
  | nil => simp [List.idxOf?_cons]
  | cons c cs ih =>
    obtain ⟨other, later⟩ := not_or.mp (List.mem_cons.not.mp fresh)
    rw [List.cons_append, List.idxOf?_cons, if_neg (by simpa using Ne.symm other), ih later]
    rfl

theorem idxOf?_eq_some_iff {i : Nat} : text.idxOf? sep = some i ↔
    ∃ before after, text = before ++ sep :: after ∧ sep ∉ before ∧ before.length = i := by
  constructor
  · intro found
    have member : sep ∈ text := List.isSome_idxOf?.mp (Option.isSome_of_eq_some found)
    obtain ⟨before, after, rfl, fresh⟩ := List.eq_append_cons_of_mem member
    rw [idxOf?_append_cons fresh] at found
    exact ⟨before, after, rfl, fresh, Option.some.inj found⟩
  · rintro ⟨before, after, rfl, fresh, rfl⟩
    exact idxOf?_append_cons fresh after

end Separated
