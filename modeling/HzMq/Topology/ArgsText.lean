import HzMq.Common.Queue

/-!
# Queue arguments as text

`get_args` writes the pairs one after the other and escapes nothing. `set_args` cuts
its text at every `&` and each piece at its first `=`, so what it reads never has an
`&`, nor a key with an `=`.
-/

namespace HzMq

namespace MsgQueue

def pairText (e : Bytes × Bytes) : Bytes := e.1 ++ equals :: e.2

/-- Key and value survive being written. -/
def Plain (e : Bytes × Bytes) : Prop :=
  ampersand ∉ e.1 ∧ equals ∉ e.1 ∧ ampersand ∉ e.2

instance (e : Bytes × Bytes) : Decidable (Plain e) :=
  inferInstanceAs (Decidable (_ ∧ _ ∧ _))

section Writing

theorem getArgsLoop_eq (result : Bytes) (es : List (Bytes × Bytes)) :
    getArgsLoop result es = result ++ [ampersand].intercalate (es.map pairText) := by
  have equalsSign : str "=" = [equals] := rfl
  have ampersandSign : str "&" = [ampersand] := rfl
  induction es generalizing result with
  | nil => simp [getArgsLoop]
  | cons e rest ih =>
    rw [getArgsLoop, ih]
    cases rest with
    | nil => simp [pairText, equalsSign]
    | cons e' rest => simp [pairText, equalsSign, ampersandSign]

end Writing

section Reading

variable {args : StrMap Bytes}

theorem readPair_pairText {e : Bytes × Bytes} (plain : equals ∉ e.1) (args : StrMap Bytes) :
    readPair args (pairText e) = args.insert e.1 e.2 := by
  rw [readPair, pairText, findChar_append_cons plain]
  simp [substr]

theorem readPair_cases (args : StrMap Bytes) (pair : Bytes) :
    readPair args pair = args ∨
      ∃ e : Bytes × Bytes, pair = pairText e ∧ equals ∉ e.1 ∧
        readPair args pair = args.insert e.1 e.2 := by
  cases found : findChar pair equals 0 with
  | none => exact Or.inl (by simp [readPair, found])
  | some eq =>
    obtain ⟨key, value, split, fresh, -⟩ := findChar_eq_some_iff.mp found
    obtain rfl : pair = pairText (key, value) := split
    exact Or.inr ⟨(key, value), rfl, fresh, readPair_pairText fresh args⟩

/-- With enough rounds, every piece between two `&` is read once, in order. -/
theorem setArgsLoop_eq {strArgs : Bytes} {fuel start : Nat}
    (enough : strArgs.length ≤ fuel + start) (args : StrMap Bytes) :
    setArgsLoop strArgs fuel args start =
      ((strArgs.drop start).splitOn ampersand).foldl readPair args := by
  induction fuel generalizing args start with
  | zero =>
    have nothing : strArgs.drop start = [] := List.drop_eq_nil_of_le (by omega)
    rw [nothing]
    rfl
  | succ fuel ih =>
    rw [setArgsLoop]
    split
    · cases found : findChar strArgs ampersand start with
      | none =>
        rw [List.splitOn_eq_singleton (findChar_eq_none_iff.mp found)]
        rfl
      | some pos =>
        obtain ⟨before, after, split, fresh, rfl⟩ := findChar_eq_some_iff.mp found
        have piece : substr strArgs start (start + before.length - start) = before := by
          rw [substr, split, Nat.add_sub_cancel_left, List.take_left]
        have behind : strArgs.drop (start + before.length + 1) = after := by
          rw [Nat.add_assoc, ← List.drop_drop, split, ← List.drop_drop, List.drop_left]
          rfl
        simp only []
        rw [piece, ih (by omega), behind, split,
          List.splitOn_append_cons_self_of_not_mem fresh]
        rfl
    · have nothing : strArgs.drop start = [] := List.drop_eq_nil_of_le (by omega)
      rw [nothing]
      rfl

theorem setArgs_args (q : MsgQueue) (strArgs : Bytes) :
    (q.setArgs strArgs).args = (strArgs.splitOn ampersand).foldl readPair q.args :=
  setArgsLoop_eq (Nat.le_add_right _ _) q.args

/-- Whatever the pieces between the `&` are, only plain pairs are read. -/
theorem foldl_readPair_plain {pieces : List Bytes} (cut : ∀ piece ∈ pieces, ampersand ∉ piece)
    (start : ∀ e ∈ args.pairs, Plain e) : ∀ e ∈ (pieces.foldl readPair args).pairs, Plain e := by
  induction pieces generalizing args with
  | nil => exact start
  | cons piece pieces ih =>
    obtain ⟨here, later⟩ := List.forall_mem_cons.mp cut
    refine ih later ?_
    rcases readPair_cases args piece with same | ⟨new, rfl, noEquals, inserted⟩
    · rwa [same]
    · have plain : Plain new := by
        rw [pairText, List.mem_append, List.mem_cons, not_or, not_or] at here
        exact ⟨here.1, noEquals, here.2.2⟩
      rw [inserted]
      rintro ⟨key, value⟩ member
      rw [StrMap.mem_pairs] at member
      by_cases same : key = new.1
      · subst same
        rw [AList.lookup_insert, Option.some.injEq] at member
        exact member ▸ plain
      · rw [AList.lookup_insert_ne same] at member
        exact start _ (StrMap.mem_pairs.mpr member)

theorem foldl_readPair_written {es : List (Bytes × Bytes)} (plain : ∀ e ∈ es, Plain e)
    (args : StrMap Bytes) :
    (es.map pairText).foldl readPair args = es.foldl (fun m e => m.insert e.1 e.2) args := by
  induction es generalizing args with
  | nil => rfl
  | cons e es ih =>
    obtain ⟨here, later⟩ := List.forall_mem_cons.mp plain
    rw [List.map_cons, List.foldl_cons, List.foldl_cons, readPair_pairText here.2.1, ih later]

end Reading

section RoundTrip

variable {q fresh : MsgQueue} {visit : Visit Bytes}

theorem splitOn_getArgs (plain : ∀ e ∈ visit.order q.args, Plain e)
    (nonempty : visit.order q.args ≠ []) :
    (q.getArgs visit).splitOn ampersand = (visit.order q.args).map pairText := by
  rw [getArgs, getArgsLoop_eq, List.nil_append]
  refine List.splitOn_intercalate ampersand (fun piece member => ?_) (by simpa using nonempty)
  obtain ⟨e, inOrder, rfl⟩ := List.mem_map.mp member
  obtain ⟨key, -, value⟩ := plain e inOrder
  rw [pairText, List.mem_append, List.mem_cons]
  rintro (inKey | isEquals | inValue)
  · exact key inKey
  · exact absurd isEquals (by decide)
  · exact value inValue

theorem setArgs_of_plain (empty : fresh.args = ∅) (plain : ∀ e ∈ visit.order q.args, Plain e) :
    (fresh.setArgs (q.getArgs visit)).args =
      (visit.order q.args).foldl (fun m e => m.insert e.1 e.2) ∅ := by
  rw [setArgs_args, empty]
  by_cases nothing : visit.order q.args = []
  · rw [getArgs, nothing]
    rfl
  · rw [splitOn_getArgs plain nothing, foldl_readPair_written plain]

end RoundTrip

end MsgQueue

namespace Topology

open MsgQueue

/-- What `get_args` writes in any order is read back by `set_args` as the same map exactly when
no key has an `&` or an `=` and no value has an `&`. -/
theorem setArgs_getArgs_iff (q fresh : MsgQueue) (visit : Visit Bytes) (empty : fresh.args = ∅) :
    (∀ key, (fresh.setArgs (q.getArgs visit)).args.lookup key = q.args.lookup key) ↔
      ∀ e ∈ q.args.pairs, ampersand ∉ e.1 ∧ equals ∉ e.1 ∧ ampersand ∉ e.2 := by
  constructor
  · rintro same ⟨key, value⟩ member
    have readBack : (key, value) ∈ (fresh.setArgs (q.getArgs visit)).args.pairs := by
      rw [StrMap.mem_pairs, same]
      exact StrMap.mem_pairs.mp member
    rw [setArgs_args, empty] at readBack
    exact foldl_readPair_plain (fun piece => Separated.not_mem_of_mem_splitOn)
      (fun _ none' => absurd none' List.not_mem_nil) _ readBack
  · intro plain key
    have inOrder : ∀ e ∈ visit.order q.args, Plain e := fun e member =>
      plain e ((visit.perm q.args).mem_iff.mp member)
    refine Option.ext ?_
    intro value
    rw [setArgs_of_plain empty inOrder, StrMap.lookup_foldl_insert (visit.keys_nodup q.args),
      visit.mem_order]
    simp

def plainQueue : MsgQueue :=
  { args := AList.insert (str "x-max-length") (str "10")
      (AList.insert (str "x-mode") (str "a=b") ∅) }

theorem setArgs_getArgs_example :
    (setArgs {} (plainQueue.getArgs .stored)).args.lookup (str "x-mode") =
      plainQueue.args.lookup (str "x-mode") :=
  (setArgs_getArgs_iff plainQueue {} .stored rfl).mpr (by decide) (str "x-mode")

/-- A value with an `&` comes back without what is behind it. -/
def ampersandQueue : MsgQueue := { args := AList.insert (str "path") (str "a&b") ∅ }

theorem ampersand_cuts_value :
    ¬∀ key, (setArgs {} (ampersandQueue.getArgs .stored)).args.lookup key =
      ampersandQueue.args.lookup key := by
  intro same
  exact absurd (same (str "path")) (by decide)

end Topology

end HzMq
