import Mathlib.Data.List.Nodup
import Mathlib.Logic.Function.Basic

/-!
# Handing tokens over

Tokens are issued one after the other, wait in queues and are handed over to
receivers. What a receiver got from a queue, followed by what the queue still
holds, stays in the order of issue, and no token is in two places: a queue takes
new tokens at its end, gives away its first, and anything may be lost anywhere.
-/

namespace Handover

universe u v w

variable {ρ : Type u} {κ : Type v} {τ : Type w}

structure Orderly (issued : List τ) (handed : ρ → κ → List τ) (stored : κ → List τ) : Prop where
  inOrder : ∀ r k, (handed r k ++ stored k).Sublist issued
  apart : ∀ r r' k, r ≠ r' → (handed r k).Disjoint (handed r' k)
  separate : ∀ r r' k k', k ≠ k' →
    (handed r k ++ stored k).Disjoint (handed r' k' ++ stored k')

variable {issued : List τ} {handed : ρ → κ → List τ} {stored : κ → List τ}

namespace Orderly

theorem nil (issued : List τ) : Orderly issued (fun (_ : ρ) (_ : κ) => []) fun _ => [] where
  inOrder _ _ := List.nil_sublist issued
  apart _ _ _ _ := List.disjoint_nil_left _
  separate _ _ _ _ _ := List.disjoint_nil_left _

section Lookup

variable (orderly : Orderly issued handed stored)
include orderly

/-- What was handed over is in no queue any more. -/
theorem not_stored (distinct : issued.Nodup) {r : ρ} {k k' : κ} {t : τ}
    (got : t ∈ handed r k) : t ∉ stored k' := by
  intro held
  by_cases same : k = k'
  · subst same
    have nodup := (orderly.inOrder r k).nodup distinct
    exact List.disjoint_of_nodup_append nodup got held
  · exact orderly.separate r r k k' same (List.mem_append_left _ got)
      (List.mem_append_right _ held)

/-- A token that two receivers have, or that came from two queues, is the same one. -/
theorem unique {r r' : ρ} {k k' : κ} {t : τ} (got : t ∈ handed r k) (got' : t ∈ handed r' k') :
    r = r' ∧ k = k' := by
  obtain rfl : k = k' := by
    by_contra differs
    exact orderly.separate r r' k k' differs (List.mem_append_left _ got)
      (List.mem_append_left _ got')
  refine ⟨?_, rfl⟩
  by_contra differs
  exact orderly.apart r r' k differs got got'

theorem lose {handed' : ρ → κ → List τ} {stored' : κ → List τ}
    (less : ∀ r k, (handed' r k).Sublist (handed r k))
    (fewer : ∀ k, (stored' k).Sublist (stored k)) : Orderly issued handed' stored' where
  inOrder r k := ((less r k).append (fewer k)).trans (orderly.inOrder r k)
  apart r r' k differs :=
    List.disjoint_of_subset_left (less r k).subset
      (List.disjoint_of_subset_right (less r' k).subset (orderly.apart r r' k differs))
  separate r r' k k' differs :=
    List.disjoint_of_subset_left ((less r k).append (fewer k)).subset
      (List.disjoint_of_subset_right ((less r' k').append (fewer k')).subset
        (orderly.separate r r' k k' differs))

theorem issue (t : τ) : Orderly (issued ++ [t]) handed stored where
  inOrder r k := (orderly.inOrder r k).trans (List.sublist_append_left issued [t])
  apart := orderly.apart
  separate := orderly.separate

variable [DecidableEq κ]

theorem put {t : τ} (fresh : t ∉ issued) (k : κ) :
    Orderly (issued ++ [t]) handed (Function.update stored k (stored k ++ [t])) := by
  have old {r : ρ} {k' : κ} {x : τ}
      (member : x ∈ handed r k' ++ Function.update stored k (stored k ++ [t]) k') :
      x ∈ handed r k' ++ stored k' ∨ x = t ∧ k' = k := by
    by_cases same : k' = k
    · subst same
      rw [Function.update_self, ← List.append_assoc, List.mem_append, List.mem_singleton] at member
      exact member.imp_right fun new => ⟨new, rfl⟩
    · rw [Function.update_of_ne same] at member
      exact Or.inl member
  refine ⟨?_, orderly.apart, ?_⟩
  · intro r k'
    by_cases same : k' = k
    · subst same
      rw [Function.update_self, ← List.append_assoc]
      exact (orderly.inOrder r k').append (List.Sublist.refl _)
    · rw [Function.update_of_ne same]
      exact (orderly.inOrder r k').trans (List.sublist_append_left _ _)
  · intro r r' k₁ k₂ differs x first second
    rcases old first with here | ⟨new, atFirst⟩
    · rcases old second with there | ⟨new, -⟩
      · exact orderly.separate r r' k₁ k₂ differs here there
      · exact fresh (new ▸ (orderly.inOrder r k₁).subset here)
    · rcases old second with there | ⟨-, atSecond⟩
      · exact fresh (new ▸ (orderly.inOrder r' k₂).subset there)
      · exact differs (atFirst.trans atSecond.symm)

variable [DecidableEq ρ]

theorem hand (distinct : issued.Nodup) {k : κ} {t : τ} {rest : List τ}
    (held : stored k = t :: rest) (r : ρ) {handed' : ρ → κ → List τ}
    (gains : ∀ r' k', handed' r' k' =
      if r' = r ∧ k' = k then handed r k ++ [t] else handed r' k') :
    Orderly issued handed' (Function.update stored k rest) := by
  have less (r' : ρ) (k' : κ) :
      (handed' r' k' ++ Function.update stored k rest k').Sublist (handed r' k' ++ stored k') := by
    rw [gains]
    split
    · next same =>
      obtain ⟨rfl, rfl⟩ := same
      rw [Function.update_self, held, List.append_assoc, List.singleton_append]
    · refine List.Sublist.append (List.Sublist.refl _) ?_
      by_cases same : k' = k
      · subst same
        rw [Function.update_self, held]
        exact List.sublist_cons_self t rest
      · rw [Function.update_of_ne same]
  have new (r' : ρ) : t ∉ handed r' k := by
    intro got
    have nodup := (orderly.inOrder r' k).nodup distinct
    rw [held] at nodup
    exact List.disjoint_of_nodup_append nodup got List.mem_cons_self
  have grows (r' : ρ) (k' : κ) :
      ∀ x ∈ handed' r' k', x ∈ handed r' k' ∨ x = t ∧ k' = k ∧ r' = r := by
    intro x member
    rw [gains] at member
    split at member
    · next same =>
      obtain ⟨rfl, rfl⟩ := same
      rw [List.mem_append, List.mem_singleton] at member
      exact member.imp_right fun isNew => ⟨isNew, rfl, rfl⟩
    · exact Or.inl member
  refine ⟨fun r' k' => (less r' k').trans (orderly.inOrder r' k'), ?_, ?_⟩
  · intro r₁ r₂ k' differs x first second
    rcases grows r₁ k' x first with got | ⟨rfl, rfl, atFirst⟩
    · rcases grows r₂ k' x second with got' | ⟨rfl, rfl, -⟩
      · exact orderly.apart r₁ r₂ k' differs got got'
      · exact new r₁ got
    · rcases grows r₂ k' x second with got' | ⟨-, -, atSecond⟩
      · exact new r₂ got'
      · exact differs (atFirst.trans atSecond.symm)
  · intro r₁ r₂ k₁ k₂ differs
    exact List.disjoint_of_subset_left (less r₁ k₁).subset
      (List.disjoint_of_subset_right (less r₂ k₂).subset
        (orderly.separate r₁ r₂ k₁ k₂ differs))

end Lookup

/-- What the receivers got, in whatever order among them, are different tokens. -/
theorem nodup [DecidableEq ρ] [DecidableEq κ] (orderly : Orderly issued handed stored)
    (distinct : issued.Nodup) {got : List (ρ × κ × τ)}
    (handedTo : ∀ r k,
      ((got.filter fun e => decide (e.1 = r ∧ e.2.1 = k)).map fun e => e.2.2).Sublist
        (handed r k)) :
    (got.map fun e => e.2.2).Nodup := by
  have member {e : ρ × κ × τ} (here : e ∈ got) : e.2.2 ∈ handed e.1 e.2.1 :=
    (handedTo e.1 e.2.1).subset (List.mem_map_of_mem (List.mem_filter.mpr ⟨here, by simp⟩))
  induction got with
  | nil => exact List.nodup_nil
  | cons e rest ih =>
    have later (r : ρ) (k : κ) :=
      (((List.sublist_cons_self e rest).filter _).map _).trans (handedTo r k)
    rw [List.map_cons, List.nodup_cons]
    refine ⟨?_, ih later fun here => member (List.mem_cons_of_mem e here)⟩
    intro again
    obtain ⟨e', inRest, same⟩ := List.mem_map.mp again
    have first := member List.mem_cons_self
    have second := member (List.mem_cons_of_mem e inRest)
    rw [same] at second
    obtain ⟨receiver, queue⟩ := orderly.unique second first
    have nodup := ((handedTo e.1 e.2.1).trans
      ((List.sublist_append_left _ _).trans (orderly.inOrder e.1 e.2.1))).nodup distinct
    rw [List.filter_cons_of_pos (by simp), List.map_cons, List.nodup_cons] at nodup
    refine nodup.1 (List.mem_map.mpr ⟨e', List.mem_filter.mpr ⟨inRest, ?_⟩, same⟩)
    exact decide_eq_true ⟨receiver, queue⟩

end Orderly

end Handover
