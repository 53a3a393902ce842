import HzMq.Library.Run

/-!
# Machines with answers, and what refines them

A machine with answers says for an input what becomes visible and what the next
state is. One machine refines another when its inputs, as long as they are allowed, can
be read as inputs of the other or as silent, and the answers are the same; an
abstraction is the case in which its states map to those of the other. A simulation
relates the states of two machines and the inputs that are answered alike: it
compares two runs, step by step, whatever else differs between them. A machine keeps
up with another when it can follow each step by some of its own; the other may hold
back what it says for a while.
-/

namespace Machine

universe u v w

variable {σ : Type u} {τ : Type u} {α : Type v} {α' : Type v} {β : Type w}

def answers (act : σ → α → List β × σ) : σ → List α → List β
  | _, [] => []
  | s, a :: as => (act s a).1 ++ answers act (act s a).2 as

def final (act : σ → α → List β × σ) (s : σ) (as : List α) : σ :=
  exec (fun s a => (act s a).2) s as

@[simp] theorem answers_nil (act : σ → α → List β × σ) (s : σ) : answers act s [] = [] := rfl

@[simp] theorem answers_cons (act : σ → α → List β × σ) (s : σ) (a : α) (as : List α) :
    answers act s (a :: as) = (act s a).1 ++ answers act (act s a).2 as := rfl

@[simp] theorem final_nil (act : σ → α → List β × σ) (s : σ) : final act s [] = s := rfl

@[simp] theorem final_cons (act : σ → α → List β × σ) (s : σ) (a : α) (as : List α) :
    final act s (a :: as) = final act (act s a).2 as := rfl

/-- The inputs of a run as they are read, without the silent ones. -/
def readings (act : σ → α → List β × σ) (reads : σ → α → Option α') : σ → List α → List α'
  | _, [] => []
  | s, a :: as => (reads s a).toList ++ readings act reads (act s a).2 as

theorem readings_const (act : σ → α → List β × σ) (reads : α → Option α') (s : σ) (as : List α) :
    readings act (fun _ => reads) s as = as.filterMap reads := by
  induction as generalizing s with
  | nil => rfl
  | cons a as ih =>
    rw [readings, ih, List.filterMap_cons]
    cases reads a <;> rfl

/-- What one machine does in steps that are allowed is what the other one does, as long as the
states are related, and they stay so. -/
structure Refines (R : σ → τ → Prop) (Allowed : σ → α → Prop) (act : σ → α → List β × σ)
    (act' : τ → α' → List β × τ) (reads : σ → α → Option α') : Prop where
  silent : ∀ s t a, R s t → Allowed s a → reads s a = none →
    (act s a).1 = [] ∧ R (act s a).2 t
  shows : ∀ s t a a', R s t → Allowed s a → reads s a = some a' →
    (act s a).1 = (act' t a').1 ∧ R (act s a).2 (act' t a').2

/-- The induction over the run. -/
theorem Refines.run {R : σ → τ → Prop} {Allowed : σ → α → Prop} {act : σ → α → List β × σ}
    {act' : τ → α' → List β × τ} {reads : σ → α → Option α'}
    (sound : Refines R Allowed act act' reads) {s : σ} {t : τ} (related : R s t) {as : List α}
    (allowed : Along (fun s a => (act s a).2) Allowed s as) :
    answers act s as = answers act' t (readings act reads s as) ∧
      R (final act s as) (final act' t (readings act reads s as)) := by
  induction as generalizing s t with
  | nil => exact ⟨rfl, related⟩
  | cons a as ih =>
    obtain ⟨now, later⟩ := allowed
    cases read : reads s a with
    | none =>
      obtain ⟨nothing, next⟩ := sound.silent s t a related now read
      obtain ⟨shown, ends⟩ := ih next later
      simp only [answers_cons, final_cons, readings, read, nothing, Option.toList_none,
        List.nil_append]
      exact ⟨shown, ends⟩
    | some a' =>
      obtain ⟨same, next⟩ := sound.shows s t a a' related now read
      obtain ⟨shown, ends⟩ := ih next later
      simp only [answers_cons, final_cons, readings, read, Option.toList_some,
        List.cons_append, List.nil_append, same]
      exact ⟨congrArg _ shown, ends⟩

/-- What one machine does is, seen through `abs`, what the other one does. -/
structure Abstraction (Inv : σ → Prop) (act : σ → α → List β × σ) (act' : τ → α' → List β × τ)
    (abs : σ → τ) (reads : σ → α → Option α') : Prop where
  keeps : ∀ s a, Inv s → Inv (act s a).2
  silent : ∀ s a, Inv s → reads s a = none → (act s a).1 = [] ∧ abs (act s a).2 = abs s
  shows : ∀ s a a', Inv s → reads s a = some a' →
    (act s a).1 = (act' (abs s) a').1 ∧ abs (act s a).2 = (act' (abs s) a').2

namespace Abstraction

variable {Inv : σ → Prop} {act : σ → α → List β × σ} {act' : τ → α' → List β × τ}
  {abs : σ → τ} {reads : σ → α → Option α'}

theorem refines (sound : Abstraction Inv act act' abs reads) :
    Refines (fun s t => Inv s ∧ abs s = t) (fun _ _ => True) act act' reads where
  silent s t a related _ read := by
    obtain ⟨inv, rfl⟩ := related
    obtain ⟨nothing, stays⟩ := sound.silent s a inv read
    exact ⟨nothing, sound.keeps s a inv, stays⟩
  shows s t a a' related _ read := by
    obtain ⟨inv, rfl⟩ := related
    obtain ⟨same, moves⟩ := sound.shows s a a' inv read
    exact ⟨same, sound.keeps s a inv, moves⟩

theorem run (sound : Abstraction Inv act act' abs reads) {s : σ} (start : Inv s) (as : List α) :
    answers act s as = answers act' (abs s) (readings act reads s as) ∧
      abs (final act s as) = final act' (abs s) (readings act reads s as) := by
  obtain ⟨shown, -, ends⟩ := sound.refines.run ⟨start, rfl⟩
    (along_of_forall (fun _ _ _ => trivial) s)
  exact ⟨shown, ends⟩

end Abstraction

/-- Two machines side by side: inputs that match are answered alike and lead to related
states; quiet inputs are answered by nothing and do not take the states apart. -/
structure Simulation (R : σ → τ → Prop) (act : σ → α → List β × σ) (act' : τ → α' → List β × τ)
    (Matches : σ → τ → α → α' → Prop) (Quiet : α → Prop) (Quiet' : α' → Prop) : Prop where
  both : ∀ s t a b, R s t → Matches s t a b →
    (act s a).1 = (act' t b).1 ∧ R (act s a).2 (act' t b).2
  left : ∀ s t a, R s t → Quiet a → (act s a).1 = [] ∧ R (act s a).2 t
  right : ∀ s t b, R s t → Quiet' b → (act' t b).1 = [] ∧ R s (act' t b).2

section Matched

variable (act : σ → α → List β × σ) (act' : τ → α' → List β × τ)
  (Matches : σ → τ → α → α' → Prop) (Quiet : α → Prop) (Quiet' : α' → Prop)

/-- Two runs whose inputs match one by one, with quiet ones anywhere in between. -/
inductive Matched : σ → τ → List α → List α' → Prop
  | nil (s : σ) (t : τ) : Matched s t [] []
  | both {s : σ} {t : τ} {a : α} {b : α'} {as : List α} {bs : List α'} : Matches s t a b →
      Matched (act s a).2 (act' t b).2 as bs → Matched s t (a :: as) (b :: bs)
  | left {s : σ} {t : τ} {a : α} {as : List α} {bs : List α'} : Quiet a →
      Matched (act s a).2 t as bs → Matched s t (a :: as) bs
  | right {s : σ} {t : τ} {b : α'} {as : List α} {bs : List α'} : Quiet' b →
      Matched s (act' t b).2 as bs → Matched s t as (b :: bs)

end Matched

/-- Matched runs from related states show the same, in the same order. -/
theorem Simulation.run {R : σ → τ → Prop} {act : σ → α → List β × σ}
    {act' : τ → α' → List β × τ} {Matches : σ → τ → α → α' → Prop} {Quiet : α → Prop}
    {Quiet' : α' → Prop} (sim : Simulation R act act' Matches Quiet Quiet') {s : σ} {t : τ}
    {as : List α} {bs : List α'} (matched : Matched act act' Matches Quiet Quiet' s t as bs)
    (related : R s t) :
    answers act s as = answers act' t bs ∧ R (final act s as) (final act' t bs) := by
  induction matched with
  | nil => exact ⟨rfl, related⟩
  | both pair _ ih =>
    obtain ⟨same, next⟩ := sim.both _ _ _ _ related pair
    obtain ⟨rest, ends⟩ := ih next
    rw [answers_cons, answers_cons, same, rest]
    exact ⟨rfl, ends⟩
  | left quiet _ ih =>
    obtain ⟨nothing, next⟩ := sim.left _ _ _ related quiet
    obtain ⟨rest, ends⟩ := ih next
    rw [answers_cons, nothing, List.nil_append]
    exact ⟨rest, ends⟩
  | right quiet _ ih =>
    obtain ⟨nothing, next⟩ := sim.right _ _ _ related quiet
    obtain ⟨rest, ends⟩ := ih next
    rw [answers_cons, nothing, List.nil_append]
    exact ⟨rest, ends⟩

theorem answers_append (act : σ → α → List β × σ) (s : σ) (as bs : List α) :
    answers act s (as ++ bs) = answers act s as ++ answers act (final act s as) bs := by
  induction as generalizing s with
  | nil => rfl
  | cons a as ih =>
    rw [List.cons_append, answers_cons, answers_cons, ih, final_cons, List.append_assoc]

theorem final_append (act : σ → α → List β × σ) (s : σ) (as bs : List α) :
    final act s (as ++ bs) = final act (final act s as) bs := exec_append _ s as bs

def SameByKind {κ : Type*} [DecidableEq κ] (kind : β → κ) (xs ys : List β) : Prop :=
  ∀ k, (xs.filter fun x => kind x = k) = ys.filter fun y => kind y = k

namespace SameByKind

variable {κ : Type*} [DecidableEq κ] {kind : β → κ} {xs ys zs : List β}

theorem refl (xs : List β) : SameByKind kind xs xs := fun _ => rfl

theorem trans (first : SameByKind kind xs ys) (second : SameByKind kind ys zs) :
    SameByKind kind xs zs := fun k => (first k).trans (second k)

theorem append_left (same : SameByKind kind xs ys) (front : List β) :
    SameByKind kind (front ++ xs) (front ++ ys) := fun k => by
  rw [List.filter_append, List.filter_append, same k]

theorem append_right (same : SameByKind kind xs ys) (back : List β) :
    SameByKind kind (xs ++ back) (ys ++ back) := fun k => by
  rw [List.filter_append, List.filter_append, same k]

theorem comm (apart : ∀ x ∈ xs, ∀ y ∈ ys, kind x ≠ kind y) :
    SameByKind kind (xs ++ ys) (ys ++ xs) := by
  intro k
  rw [List.filter_append, List.filter_append]
  by_cases here : ∃ x ∈ xs, kind x = k
  · obtain ⟨x, isAnswer, rfl⟩ := here
    have none : (ys.filter fun y => kind y = kind x) = [] :=
      List.filter_eq_nil_iff.mpr fun y other same =>
        apart x isAnswer y other (of_decide_eq_true same).symm
    rw [none, List.append_nil, List.nil_append]
  · have none : (xs.filter fun x => kind x = k) = [] :=
      List.filter_eq_nil_iff.mpr fun x isAnswer same =>
        here ⟨x, isAnswer, of_decide_eq_true same⟩
    rw [none, List.append_nil, List.nil_append]

end SameByKind

section KeepsUp

variable {κ : Type*} [DecidableEq κ] {ι : Type v}

/-- Each allowed step of one machine is followed by some of another, on the same inputs from
outside. What the first has still to say it holds back. -/
def KeepsUp (R : σ → τ → Prop) (Allowed : σ → α → Prop) (held : σ → List β) (kind : β → κ)
    (act : σ → α → List β × σ) (act' : τ → α' → List β × τ) (input : σ → α → Option ι)
    (input' : α' → Option ι) : Prop :=
  ∀ s t a, R s t → Allowed s a → ∃ bs,
    R (act s a).2 (final act' t bs) ∧
    SameByKind kind ((act s a).1 ++ held (act s a).2) (held s ++ answers act' t bs) ∧
    bs.filterMap input' = (input s a).toList

/-- What one step leaves to be said the later ones say. -/
theorem KeepsUp.run {R : σ → τ → Prop} {Allowed : σ → α → Prop} {held : σ → List β} {kind : β → κ}
    {act : σ → α → List β × σ} {act' : τ → α' → List β × τ} {input : σ → α → Option ι}
    {input' : α' → Option ι} (keepsUp : KeepsUp R Allowed held kind act act' input input')
    {s : σ} {t : τ} (related : R s t) {as : List α}
    (allowed : Along (fun s a => (act s a).2) Allowed s as) : ∃ bs,
      R (final act s as) (final act' t bs) ∧
      SameByKind kind (answers act s as ++ held (final act s as)) (held s ++ answers act' t bs) ∧
      bs.filterMap input' = readings act input s as := by
  induction as generalizing s t with
  | nil =>
    refine ⟨[], related, ?_, rfl⟩
    rw [answers_nil, answers_nil, List.nil_append, List.append_nil]
    exact .refl _
  | cons a as ih =>
    obtain ⟨now, next, said, read⟩ := keepsUp s t a related allowed.1
    obtain ⟨later, ends, rest, readLater⟩ := ih next allowed.2
    refine ⟨now ++ later, ?_, ?_, ?_⟩
    · rw [final_append]
      exact ends
    · rw [answers_cons, final_cons, answers_append, List.append_assoc, ← List.append_assoc (held s)]
      refine (rest.append_left _).trans ?_
      rw [← List.append_assoc]
      exact said.append_right _
    · rw [List.filterMap_append, read, readLater, readings]

end KeepsUp

end Machine
