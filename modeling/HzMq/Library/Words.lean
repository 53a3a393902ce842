import Mathlib.Data.List.Basic
import Mathlib.Data.List.TakeWhile

/-!
# Words between blanks

Reading a word skips blanks and takes what comes before the next one. Reading words
until there is none gives the nonempty pieces between the blanks, as `List.splitOnP`
cuts them.
-/

namespace Words

universe u

variable {α : Type u} (blank : α → Bool)

/-- The first word, which is empty when there is none, and what is behind it. -/
def next (text : List α) : List α × List α :=
  let text := text.dropWhile blank
  (text.takeWhile fun c => !blank c, text.dropWhile fun c => !blank c)

/-- All words, of which there are no more than `fuel`. -/
def all : Nat → List α → List (List α)
  | 0, _ => []
  | fuel + 1, text =>
    let (word, rest) := next blank text
    if word.isEmpty then [] else word :: all fuel rest

def pieces (text : List α) : List (List α) :=
  (text.splitOnP blank).filter fun piece => !piece.isEmpty

def IsWord (word : List α) : Prop := word ≠ [] ∧ ∀ c ∈ word, blank c = false

variable {blank} {text word rest : List α}

def Breaks (blank : α → Bool) (text : List α) : Prop := ∀ c ∈ text.head?, blank c = true

theorem breaks_cons {c : α} (isBlank : blank c = true) (text : List α) :
    Breaks blank (c :: text) := by
  intro x member
  obtain rfl : c = x := by simpa using member
  exact isBlank

theorem next_append (isWord : IsWord blank word) (breaks : Breaks blank rest) :
    next blank (word ++ rest) = (word, rest) := by
  obtain ⟨nonempty, solid⟩ := isWord
  obtain ⟨c, cs, rfl⟩ := List.exists_cons_of_ne_nil nonempty
  have start : ((c :: cs) ++ rest).dropWhile blank = (c :: cs) ++ rest := by
    simp [solid c List.mem_cons_self]
  have inside : ∀ x ∈ c :: cs, (!blank x) = true := fun x member => by simp [solid x member]
  rw [next, start, List.takeWhile_append_of_pos inside, List.dropWhile_append_of_pos inside]
  cases rest with
  | nil => simp
  | cons x xs =>
    have stop : blank x = true := breaks x rfl
    simp [stop]

theorem next_blank {c : α} (isBlank : blank c = true) (text : List α) :
    next blank (c :: text) = next blank text := by
  simp [next, isBlank]

section Pieces

theorem pieces_blank {c : α} (isBlank : blank c = true) (text : List α) :
    pieces blank (c :: text) = pieces blank text := by
  rw [pieces, List.splitOnP_cons_eq_if_modifyHead, if_pos isBlank]
  rfl

theorem pieces_append (isWord : IsWord blank word) (breaks : Breaks blank rest) :
    pieces blank (word ++ rest) = word :: pieces blank rest := by
  have full (more : List (List α)) : (word :: more).filter (fun piece => !piece.isEmpty) =
      word :: more.filter fun piece => !piece.isEmpty :=
    List.filter_cons_of_pos (by simpa using isWord.1)
  cases rest with
  | nil =>
    rw [List.append_nil, pieces, List.splitOnP_eq_singleton isWord.2, full]
    rfl
  | cons c rest =>
    have stop : blank c = true := breaks c rfl
    rw [pieces_blank stop, pieces,
      List.splitOnP_append_cons_of_forall_mem isWord.2 c stop, full]
    rfl

theorem breaks_dropWhile (text : List α) :
    Breaks blank (text.dropWhile fun c => !blank c) := by
  intro c member
  have found := List.head?_dropWhile_not (fun c => !blank c) text
  rw [Option.mem_def.mp member] at found
  simpa using found

variable (blank) in
/-- What is read is a word, up to a break, unless there are only blanks left. -/
theorem next_spec (text : List α) :
    next blank text = ([], []) ∧ pieces blank text = [] ∨
      IsWord blank (next blank text).1 ∧ (next blank text).2.length < text.length ∧
        pieces blank text = (next blank text).1 :: pieces blank (next blank text).2 := by
  induction text with
  | nil => exact Or.inl ⟨rfl, rfl⟩
  | cons c cs ih =>
    cases isBlank : blank c with
    | true =>
      rw [next_blank isBlank, pieces_blank isBlank]
      refine ih.imp_right (And.imp_right (And.imp_left ?_))
      exact fun shorter => Nat.lt_succ_of_lt shorter
    | false =>
      right
      have read : next blank (c :: cs) =
          (c :: cs.takeWhile (fun x => !blank x), cs.dropWhile fun x => !blank x) := by
        simp [next, isBlank]
      have isWord : IsWord blank (c :: cs.takeWhile fun x => !blank x) := by
        refine ⟨List.cons_ne_nil _ _, List.forall_mem_cons.mpr ⟨isBlank, ?_⟩⟩
        intro x member
        simpa using List.mem_takeWhile_imp member
      have split := pieces_append isWord (breaks_dropWhile cs)
      rw [List.cons_append, List.takeWhile_append_dropWhile] at split
      rw [read]
      exact ⟨isWord, Nat.lt_succ_of_le (List.dropWhile_suffix _).length_le, split⟩

theorem fst_next (text : List α) : (next blank text).1 = (pieces blank text).headD [] := by
  rcases next_spec blank text with ⟨nothing, none⟩ | ⟨-, -, split⟩
  · rw [nothing, none]
    rfl
  · rw [split, List.headD_cons]

theorem pieces_snd_next (text : List α) :
    pieces blank (next blank text).2 = (pieces blank text).tail := by
  rcases next_spec blank text with ⟨nothing, none⟩ | ⟨-, -, split⟩
  · rw [nothing, none]
    rfl
  · rw [split, List.tail_cons]

/-- Reading until there is no word left reads the pieces. -/
theorem all_eq_pieces {fuel : Nat} (text : List α) (enough : text.length ≤ fuel) :
    all blank fuel text = pieces blank text := by
  induction fuel generalizing text with
  | zero =>
    obtain rfl := List.length_eq_zero_iff.mp (Nat.le_zero.mp enough)
    rfl
  | succ fuel ih =>
    have step : all blank (fuel + 1) text =
        if (next blank text).1.isEmpty then []
        else (next blank text).1 :: all blank fuel (next blank text).2 := rfl
    rw [step]
    rcases next_spec blank text with ⟨nothing, none⟩ | ⟨isWord, shorter, split⟩
    · rw [nothing, none]
      rfl
    · rw [split, if_neg (by simpa using isWord.1), ih _ (by omega)]

end Pieces

end Words
