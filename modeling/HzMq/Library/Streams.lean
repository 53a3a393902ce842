import Mathlib.Data.List.Basic
import Mathlib.Logic.Function.Basic

/-!
# Many streams in one list

Items under way on several connections, in the order in which they were sent. Each
connection hands over its own items first in, first out; between connections nothing
is promised.
-/

namespace Streams

universe u v

variable {κ : Type u} {α : Type v} [DecidableEq κ] {key other : κ}

def on (key : κ) (items : List (κ × α)) : List α :=
  items.filterMap fun e => if e.1 = key then some e.2 else none

def pop (key : κ) (items : List (κ × α)) : Option α × List (κ × α) :=
  ((items.find? fun e => decide (e.1 = key)).map Prod.snd,
    items.eraseP fun e => decide (e.1 = key))

def cut (key : κ) (items : List (κ × α)) : List (κ × α) :=
  items.filter fun e => decide (e.1 ≠ key)

@[simp] theorem on_nil : on key ([] : List (κ × α)) = [] := rfl

@[simp] theorem on_append (items more : List (κ × α)) :
    on key (items ++ more) = on key items ++ on key more := List.filterMap_append

theorem on_cons_self (a : α) (items : List (κ × α)) :
    on key ((key, a) :: items) = a :: on key items :=
  List.filterMap_cons_some (if_pos rfl)

theorem on_cons_ne (differs : other ≠ key) (a : α) (items : List (κ × α)) :
    on key ((other, a) :: items) = on key items :=
  List.filterMap_cons_none (if_neg differs)

theorem mem_on {a : α} {items : List (κ × α)} : a ∈ on key items ↔ (key, a) ∈ items := by
  simp only [on, List.mem_filterMap, Option.ite_none_right_eq_some, Option.some.injEq]
  constructor
  · rintro ⟨e, member, rfl, rfl⟩
    exact member
  · intro member
    exact ⟨_, member, rfl, rfl⟩

theorem pop_fst (items : List (κ × α)) : (pop key items).1 = (on key items).head? := by
  induction items with
  | nil => rfl
  | cons e items ih =>
    obtain ⟨k, a⟩ := e
    by_cases same : k = key
    · subst same
      rw [on_cons_self, pop, List.find?_cons_of_pos (by simp)]
      rfl
    · rw [on_cons_ne same, ← ih, pop, pop, List.find?_cons_of_neg (by simpa using same)]

theorem on_pop_self (items : List (κ × α)) :
    on key (pop key items).2 = (on key items).tail := by
  induction items with
  | nil => rfl
  | cons e items ih =>
    obtain ⟨k, a⟩ := e
    by_cases same : k = key
    · subst same
      rw [on_cons_self, List.tail_cons, pop, List.eraseP_cons_of_pos (by simp)]
    · rw [on_cons_ne same, ← ih, pop, List.eraseP_cons_of_neg (by simpa using same),
        on_cons_ne same]
      rfl

theorem on_pop_ne (differs : key ≠ other) (items : List (κ × α)) :
    on other (pop key items).2 = on other items := by
  induction items with
  | nil => rfl
  | cons e items ih =>
    obtain ⟨k, a⟩ := e
    by_cases same : k = key
    · subst same
      rw [on_cons_ne differs, pop, List.eraseP_cons_of_pos (by simp)]
    · rw [pop, List.eraseP_cons_of_neg (by simpa using same)]
      by_cases mine : k = other
      · subst mine
        rw [on_cons_self, on_cons_self]
        exact congrArg _ ih
      · rw [on_cons_ne mine, on_cons_ne mine]
        exact ih

theorem on_of_pop {a : α} {items rest : List (κ × α)} (popped : pop key items = (some a, rest))
    (other : κ) : on other items = if other = key then a :: on key rest else on other rest := by
  obtain rfl : (pop key items).2 = rest := congrArg Prod.snd popped
  split
  · next same =>
    subst same
    have first : (on other items).head? = some a := by rw [← pop_fst, popped]
    rw [on_pop_self]
    exact (List.cons_head?_tail first).symm
  · next differs => rw [on_pop_ne (Ne.symm differs)]

theorem pop_sublist (items : List (κ × α)) : (pop key items).2.Sublist items :=
  List.eraseP_sublist

theorem mem_of_pop {a : α} {items rest : List (κ × α)} (popped : pop key items = (some a, rest)) :
    (key, a) ∈ items := by
  refine mem_on.mp ?_
  rw [on_of_pop popped, if_pos rfl]
  exact List.mem_cons_self

theorem subset_of_pop {a? : Option α} {items rest : List (κ × α)}
    (popped : pop key items = (a?, rest)) : rest ⊆ items := by
  obtain rfl : (pop key items).2 = rest := congrArg Prod.snd popped
  exact (pop_sublist items).subset

theorem cut_sublist (items : List (κ × α)) : (cut key items).Sublist items :=
  List.filter_sublist

end Streams
