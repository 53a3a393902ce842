import Mathlib.Algebra.Ring.Int.Defs
import Mathlib.Algebra.Ring.Nat
import Mathlib.Data.List.AList
import Mathlib.Data.List.Perm.Basic

/-!
# Strings and maps of the C++ source

`std::string` is a sequence of bytes. `std::unordered_map<std::string, V>` is an
association list without repeated keys; a loop over it runs in an order that the
standard leaves open, so a loop takes the order as an argument (`Visit`).
-/

namespace HzMq

universe u

abbrev Bytes := List UInt8

def str (literal : String) : Bytes := literal.toUTF8.data.toList

def toStdString (n : Nat) : Bytes := str (Nat.repr n)

theorem toStdString_ne_nil (n : Nat) : toStdString n ≠ [] := by
  intro empty
  have none : n.repr.toByteArray = ByteArray.empty := by
    apply ByteArray.ext
    exact Array.toList_eq_nil_iff.mp empty
  exact Nat.repr_ne_empty (String.toByteArray_eq_empty_iff.mp none)

abbrev StrMap (V : Type u) := AList (fun _ : Bytes => V)

namespace StrMap

variable {V : Type u}

/-- The library's instance is a cast, on which evaluation gets stuck. -/
instance [DecidableEq V] : DecidableEq (StrMap V) := fun a b =>
  decidable_of_iff (a.entries = b.entries) AList.ext_iff.symm

def pairs (m : StrMap V) : List (Bytes × V) := m.entries.map fun e => (e.1, e.2)

theorem mem_pairs {m : StrMap V} {key : Bytes} {value : V} :
    (key, value) ∈ m.pairs ↔ m.lookup key = some value := by
  have viaEntries : value ∈ m.lookup key ↔ Sigma.mk key value ∈ m.entries := AList.mem_lookup_iff
  rw [Option.mem_def] at viaEntries
  rw [viaEntries, pairs, List.mem_map]
  constructor
  · rintro ⟨⟨k, v⟩, member, equality⟩
    simp only [Prod.mk.injEq] at equality
    obtain ⟨rfl, rfl⟩ := equality
    exact member
  · intro member
    exact ⟨⟨key, value⟩, member, rfl⟩

theorem pairs_keys_nodup (m : StrMap V) : (m.pairs.map Prod.fst).Nodup := by
  have same : m.pairs.map Prod.fst = m.keys := by
    simp only [pairs, List.map_map, AList.keys, List.keys]
    rfl
  exact same ▸ m.keys_nodup

def mapValues {W : Type u} (f : V → W) (m : StrMap V) : StrMap W where
  entries := m.entries.map fun e => ⟨e.1, f e.2⟩
  nodupKeys := by
    have keys : (m.entries.map fun e => (⟨e.1, f e.2⟩ : Sigma fun _ : Bytes => W)).keys =
        m.entries.keys := by
      simp [List.keys]
    exact (congrArg List.Nodup keys).mpr m.nodupKeys

theorem lookup_mapValues {W : Type u} (f : V → W) (m : StrMap V) (key : Bytes) :
    (m.mapValues f).lookup key = (m.lookup key).map f := by
  have entries (es : List (Sigma fun _ : Bytes => V)) :
      List.dlookup key (es.map fun e => (⟨e.1, f e.2⟩ : Sigma fun _ : Bytes => W)) =
        (List.dlookup key es).map f := by
    induction es with
    | nil => rfl
    | cons e es ih =>
      obtain ⟨k, v⟩ := e
      by_cases same : key = k
      · subst same
        simp
      · simpa [List.dlookup_cons_ne, same] using ih
  exact entries m.entries

theorem isSome_lookup_replace {m : StrMap V} {key : Bytes} {old : V}
    (found : m.lookup key = some old) (new : V) (other : Bytes) :
    ((m.insert key new).lookup other).isSome = (m.lookup other).isSome := by
  by_cases same : other = key
  · subst same
    simp [found]
  · rw [AList.lookup_insert_ne same]

theorem lookup_foldl_insert {es : List (Bytes × V)} (distinct : (es.map Prod.fst).Nodup)
    {m : StrMap V} {key : Bytes} {value : V} :
    (es.foldl (fun m e => m.insert e.1 e.2) m).lookup key = some value ↔
      (key, value) ∈ es ∨ key ∉ es.map Prod.fst ∧ m.lookup key = some value := by
  induction es generalizing m with
  | nil => simp
  | cons e es ih =>
    obtain ⟨fresh, rest⟩ := List.nodup_cons.mp distinct
    rw [List.foldl_cons, ih rest]
    by_cases same : key = e.1
    · subst same
      have notLater : (e.1, value) ∉ es := fun later =>
        fresh (List.mem_map.mpr ⟨_, later, rfl⟩)
      have here : (e.1, value) = e ↔ e.2 = value := by
        rw [Prod.ext_iff, and_iff_right rfl]
        exact eq_comm
      simp [fresh, notLater, here]
    · have notHere : (key, value) ≠ e := fun equal => same (congrArg Prod.fst equal)
      simp [same, notHere, AList.lookup_insert_ne]

end StrMap

/-- An order in which a loop may visit the entries of a map. -/
structure Visit (V : Type u) where
  order : StrMap V → List (Bytes × V)
  perm : ∀ m, (order m).Perm m.pairs

namespace Visit

variable {V : Type u} (visit : Visit V)

def stored : Visit V := ⟨StrMap.pairs, fun _ => List.Perm.refl _⟩

theorem mem_order {m : StrMap V} {key : Bytes} {value : V} :
    (key, value) ∈ visit.order m ↔ m.lookup key = some value := by
  rw [(visit.perm m).mem_iff, StrMap.mem_pairs]

theorem keys_nodup (m : StrMap V) : ((visit.order m).map Prod.fst).Nodup :=
  ((visit.perm m).map Prod.fst).nodup_iff.mpr m.pairs_keys_nodup

theorem exists_order [DecidableEq V] {m : StrMap V} {entries : List (Bytes × V)}
    (rearranged : entries.Perm m.pairs) : ∃ visit : Visit V, visit.order m = entries := by
  refine ⟨⟨fun other => if other = m then entries else other.pairs, ?_⟩, by simp⟩
  intro other
  by_cases same : other = m
  · simpa [same] using rearranged
  · simp [same]

end Visit

end HzMq
