import Mathlib.Data.List.Forall2
import Mathlib.Order.Basic

/-!
# Patterns of words

A pattern is a list of pieces. Each piece stands for a block of words that it
accepts, with bounds on how many these may be. A word list matches when it is cut
into such blocks.
-/

namespace WordPattern

universe u

variable {α : Type u}

structure Piece (α : Type u) where
  accepts : α → Bool
  least : Nat
  /-- No upper bound when there is none. -/
  most : Option Nat

namespace Piece

def one (accepts : α → Bool) : Piece α := ⟨accepts, 1, some 1⟩

def optional (accepts : α → Bool) : Piece α := ⟨accepts, 0, some 1⟩

def many (accepts : α → Bool) : Piece α := ⟨accepts, 0, none⟩

/-- The blocks a piece stands for. -/
structure Takes (piece : Piece α) (block : List α) : Prop where
  accepted : ∀ word ∈ block, piece.accepts word = true
  least : piece.least ≤ block.length
  most : ∀ n ∈ piece.most, block.length ≤ n

def Narrower (piece piece' : Piece α) : Prop := ∀ block, piece.Takes block → piece'.Takes block

theorem Narrower.refl (piece : Piece α) : piece.Narrower piece := fun _ taken => taken

theorem one_narrower_many (accepts : α → Bool) : (one accepts).Narrower (many accepts) :=
  fun _ taken => ⟨taken.accepted, Nat.zero_le _, by simp [many]⟩

theorem optional_narrower_many (accepts : α → Bool) :
    (optional accepts).Narrower (many accepts) :=
  fun _ taken => ⟨taken.accepted, Nat.zero_le _, by simp [many]⟩

theorem one_narrower {piece : Piece α} (accepts : α → Bool)
    (all : ∀ word, piece.accepts word = true) (least : piece.least ≤ 1)
    (most : ∀ n ∈ piece.most, 1 ≤ n) : (one accepts).Narrower piece := by
  intro block taken
  have single : block.length = 1 := Nat.le_antisymm (taken.most 1 rfl) taken.least
  exact ⟨fun word _ => all word, single ▸ least, fun n bound => single ▸ most n bound⟩

theorem takes_nil_iff (piece : Piece α) : piece.Takes [] ↔ piece.least = 0 :=
  ⟨fun taken => Nat.le_zero.mp taken.least, fun zero => ⟨by simp, Nat.le_of_eq zero, by simp⟩⟩

theorem takes_one_iff (accepts : α → Bool) (block : List α) :
    (one accepts).Takes block ↔ ∃ word, block = [word] ∧ accepts word = true := by
  constructor
  · rintro ⟨accepted, least, most⟩
    obtain ⟨word, rfl⟩ := List.length_eq_one_iff.mp (Nat.le_antisymm (most 1 rfl) least)
    exact ⟨word, rfl, accepted word List.mem_cons_self⟩
  · rintro ⟨word, rfl, accepted⟩
    exact ⟨by simpa [one] using accepted, Nat.le_refl 1, by simp [one]⟩

theorem takes_optional_iff (accepts : α → Bool) (block : List α) :
    (optional accepts).Takes block ↔ block = [] ∨ ∃ word, block = [word] ∧ accepts word = true := by
  constructor
  · rintro ⟨accepted, -, most⟩
    cases block with
    | nil => exact Or.inl rfl
    | cons word block =>
      obtain rfl : block = [] := by simpa [optional] using most
      exact Or.inr ⟨word, rfl, accepted word List.mem_cons_self⟩
  · rintro (rfl | ⟨word, rfl, accepted⟩)
    · exact (takes_nil_iff _).mpr rfl
    · exact ⟨by simpa [optional] using accepted, Nat.zero_le _, by simp [optional]⟩

end Piece

inductive Matches : List α → List (Piece α) → Prop
  | nil : Matches [] []
  | cons {block rest : List α} {piece : Piece α} {pieces : List (Piece α)} :
    piece.Takes block → Matches rest pieces → Matches (block ++ rest) (piece :: pieces)

variable {words : List α} {word : α} {piece : Piece α} {pieces pieces' : List (Piece α)}

theorem matches_no_pieces : Matches words [] ↔ words = [] :=
  ⟨fun matched => by cases matched; rfl, fun empty => empty ▸ .nil⟩

theorem matches_cons_iff : Matches words (piece :: pieces) ↔
    ∃ block rest, words = block ++ rest ∧ piece.Takes block ∧ Matches rest pieces := by
  constructor
  · rintro (_ | ⟨taken, later⟩)
    exact ⟨_, _, rfl, taken, later⟩
  · rintro ⟨block, rest, rfl, taken, later⟩
    exact .cons taken later

theorem matches_no_words : Matches [] pieces ↔ ∀ piece ∈ pieces, piece.least = 0 := by
  induction pieces with
  | nil => simp [matches_no_pieces]
  | cons piece pieces ih =>
    rw [matches_cons_iff, List.forall_mem_cons, ← ih, ← piece.takes_nil_iff]
    constructor
    · rintro ⟨block, rest, split, taken, later⟩
      obtain ⟨rfl, rfl⟩ := List.append_eq_nil_iff.mp split.symm
      exact ⟨taken, later⟩
    · rintro ⟨taken, later⟩
      exact ⟨[], [], rfl, taken, later⟩

theorem matches_one_iff (accepts : α → Bool) :
    Matches (word :: words) (.one accepts :: pieces) ↔
      accepts word = true ∧ Matches words pieces := by
  simp only [matches_cons_iff, Piece.takes_one_iff]
  constructor
  · rintro ⟨_, rest, split, ⟨first, rfl, accepted⟩, later⟩
    obtain ⟨rfl, rfl⟩ := List.cons.inj split
    exact ⟨accepted, later⟩
  · rintro ⟨accepted, later⟩
    exact ⟨[word], words, rfl, ⟨word, rfl, accepted⟩, later⟩

theorem matches_optional_iff (accepts : α → Bool) :
    Matches (word :: words) (.optional accepts :: pieces) ↔
      (accepts word = true ∧ Matches words pieces) ∨ Matches (word :: words) pieces := by
  simp only [matches_cons_iff, Piece.takes_optional_iff]
  constructor
  · rintro ⟨_, rest, split, rfl | ⟨first, rfl, accepted⟩, later⟩
    · exact Or.inr (split ▸ later)
    · obtain ⟨rfl, rfl⟩ := List.cons.inj split
      exact Or.inl ⟨accepted, later⟩
  · rintro (⟨accepted, later⟩ | later)
    · exact ⟨[word], words, rfl, Or.inr ⟨word, rfl, accepted⟩, later⟩
    · exact ⟨[], word :: words, rfl, Or.inl rfl, later⟩

/-- A last piece without bounds takes whatever is left. -/
theorem matches_many_last (accepts : α → Bool) (all : ∀ word ∈ words, accepts word = true) :
    Matches words [.many accepts] := by
  rw [matches_cons_iff]
  exact ⟨words, [], (List.append_nil words).symm, ⟨all, Nat.zero_le _, by simp [Piece.many]⟩, .nil⟩

theorem Matches.mono (narrower : List.Forall₂ Piece.Narrower pieces pieces')
    (matched : Matches words pieces) : Matches words pieces' := by
  induction narrower generalizing words with
  | nil => exact matched
  | cons first _ ih =>
    obtain ⟨block, rest, rfl, taken, later⟩ := matches_cons_iff.mp matched
    exact .cons (first block taken) (ih later)

theorem matches_append_iff : Matches words (pieces ++ pieces') ↔
    ∃ front back, words = front ++ back ∧ Matches front pieces ∧ Matches back pieces' := by
  induction pieces generalizing words with
  | nil =>
    constructor
    · exact fun matched => ⟨[], words, rfl, .nil, matched⟩
    · rintro ⟨front, back, rfl, first, second⟩
      obtain rfl := matches_no_pieces.mp first
      exact second
  | cons piece pieces ih =>
    rw [List.cons_append, matches_cons_iff]
    constructor
    · rintro ⟨block, rest, rfl, taken, later⟩
      obtain ⟨front, back, rfl, first, second⟩ := ih.mp later
      exact ⟨block ++ front, back, (List.append_assoc ..).symm, .cons taken first, second⟩
    · rintro ⟨front, back, rfl, first, second⟩
      obtain ⟨block, rest, rfl, taken, later⟩ := matches_cons_iff.mp first
      exact ⟨block, rest ++ back, List.append_assoc .., taken,
        ih.mpr ⟨rest, back, rfl, later, second⟩⟩

theorem Matches.append {more : List α} (front : Matches words pieces)
    (back : Matches more pieces') : Matches (words ++ more) (pieces ++ pieces') :=
  matches_append_iff.mpr ⟨words, more, rfl, front, back⟩

theorem matches_concat_one_iff (accepts : α → Bool) :
    Matches words (pieces ++ [.one accepts]) ↔
      ∃ front last, words = front ++ [last] ∧ accepts last = true ∧ Matches front pieces := by
  simp only [matches_append_iff, matches_cons_iff, matches_no_pieces, Piece.takes_one_iff]
  constructor
  · rintro ⟨front, _, rfl, first, _, _, rfl, ⟨last, rfl, accepted⟩, rfl⟩
    exact ⟨front, last, by simp, accepted, first⟩
  · rintro ⟨front, last, rfl, accepted, first⟩
    exact ⟨front, [last], rfl, first, [last], [], rfl, ⟨last, rfl, accepted⟩, rfl⟩

/-- Pieces for at most one word each match at most as many words as they are. -/
theorem Matches.length_le (bounded : ∀ piece ∈ pieces, piece.most = some 1)
    (matched : Matches words pieces) : words.length ≤ pieces.length := by
  induction matched with
  | nil => exact Nat.le_refl 0
  | @cons block rest piece pieces taken _ ih =>
    obtain ⟨first, later⟩ := List.forall_mem_cons.mp bounded
    have short := taken.most 1 first
    have rest := ih later
    rw [List.length_append, List.length_cons]
    omega

theorem Matches.length_eq (exact' : ∀ piece ∈ pieces, ∃ accepts, piece = .one accepts)
    (matched : Matches words pieces) : words.length = pieces.length := by
  induction matched with
  | nil => rfl
  | @cons block rest piece pieces taken _ ih =>
    obtain ⟨⟨accepts, rfl⟩, later⟩ := List.forall_mem_cons.mp exact'
    obtain ⟨word, rfl, -⟩ := (Piece.takes_one_iff accepts block).mp taken
    rw [List.singleton_append, List.length_cons, List.length_cons, ih later]

theorem Matches.tail (lenient : ∀ piece ∈ pieces, piece.least = 0)
    (matched : Matches (word :: words) pieces) : Matches words pieces := by
  induction pieces with
  | nil => cases matches_no_pieces.mp matched
  | cons piece pieces ih =>
    obtain ⟨here, later⟩ := List.forall_mem_cons.mp lenient
    obtain ⟨block, rest, split, taken, after⟩ := matches_cons_iff.mp matched
    cases block with
    | nil =>
      obtain rfl : rest = word :: words := split.symm
      exact .cons ((piece.takes_nil_iff).mpr here) (ih later after)
    | cons first block =>
      obtain ⟨-, rfl⟩ := List.cons.inj split
      refine .cons ⟨fun w member => taken.accepted w (List.mem_cons_of_mem _ member), ?_, ?_⟩
        after
      · exact here ▸ Nat.zero_le _
      · exact fun n bound => Nat.le_of_succ_le (taken.most n bound)

end WordPattern
