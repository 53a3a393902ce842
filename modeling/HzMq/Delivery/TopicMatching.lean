import HzMq.Library.WordPattern
import HzMq.Server.Route

/-!
# What the scan of a topic pattern matches

The scan of `matchSegments` takes key and pattern forward, one word each. A `#` that
another kind of word follows therefore stands for exactly one word, and an empty
word behind a final dot is not seen at all.
-/

namespace HzMq.Delivery

open Router WordPattern

def words (s : Bytes) : List Bytes := if s = [] then [] else s.splitOn dot

def endsWithDot (s : Bytes) : Bool := s.getLast? == some dot

/-- The words without the empty one behind a final dot. -/
def kept (s : Bytes) : List Bytes := if endsWithDot s then (words s).dropLast else words s

def piece (word : Bytes) : Piece Bytes :=
  if word = str "#" then .many fun _ => true
  else if word = str "*" then .one fun _ => true
  else .one fun w => w == word

/-- What the words of a pattern stand for in the scan. The pattern is `closed` by a final dot. -/
def scanPieces (closed : Bool) : List Bytes → List (Piece Bytes)
  | [] => []
  | word :: rest =>
    (if word = str "#" then
      if rest.all (· == str "#") then
        if rest = [] ∧ closed = false then .many fun _ => true else .optional fun _ => true
      else .one fun _ => true
    else piece word) :: scanPieces closed rest

def fits (closed : Bool) : List Bytes → List Bytes → Bool
  | [], pattern => pattern.all (· == str "#")
  | _ :: _, [] => false
  | k :: key, p :: pattern =>
    if p ≠ str "#" ∧ p ≠ str "*" ∧ p ≠ k then false
    else if pattern = [] ∧ closed = false ∧ p = str "#" then true
    else fits closed key pattern

section Scan

theorem splitWord_spec (s : Bytes) :
    s = (splitWord s).1 ++ (if (splitWord s).2.2 then dot :: (splitWord s).2.1 else []) ∧
      (∀ c ∈ (splitWord s).1, c ≠ dot) ∧
      ((splitWord s).2.2 = false → (splitWord s).2.1 = []) := by
  induction s with
  | nil => simp [splitWord]
  | cons c cs ih =>
    rw [splitWord]
    split
    · next isDot => simp [isDot]
    · next other =>
      obtain ⟨parts, word, last⟩ := ih
      refine ⟨?_, ?_, last⟩
      · rw [List.cons_append, ← parts]
      · exact List.forall_mem_cons.mpr ⟨other, word⟩

variable {s : Bytes}

theorem splitWord_rest_lt (nonempty : s ≠ []) : (splitWord s).2.1.length < s.length := by
  obtain ⟨parts, -, last⟩ := splitWord_spec s
  cases found : (splitWord s).2.2 with
  | false =>
    rw [last found]
    exact List.length_pos_iff.mpr nonempty
  | true =>
    have lengths := congrArg List.length parts
    simp only [found, if_true, List.length_append, List.length_cons] at lengths
    omega

theorem splitOn_splitWord (s : Bytes) :
    s.splitOn dot = (splitWord s).1 ::
      (if (splitWord s).2.2 then (splitWord s).2.1.splitOn dot else []) := by
  obtain ⟨parts, word, -⟩ := splitWord_spec s
  have noDot : ∀ c ∈ (splitWord s).1, (c == dot) = false := fun c member => by
    simpa using word c member
  rw [List.splitOn]
  conv_lhs => rw [parts]
  cases (splitWord s).2.2 with
  | false => simpa using List.splitOnP_eq_singleton noDot
  | true =>
    simpa [List.splitOn] using
      List.splitOnP_append_cons_of_forall_mem noDot dot (by simp) (splitWord s).2.1

/-- The scan stops at the last word without looking for a dot behind it. -/
theorem splitWord_last (s : Bytes) :
    (splitWord s).2.2 = false ↔ (splitWord s).2.1 = [] ∧ endsWithDot s = false := by
  obtain ⟨parts, word, last⟩ := splitWord_spec s
  cases found : (splitWord s).2.2 with
  | false =>
    simp only [last found, true_and, true_iff]
    rw [found] at parts
    have whole : s = (splitWord s).1 := by simpa using parts
    rw [endsWithDot, beq_eq_false_iff_ne]
    intro ends
    exact word dot (whole ▸ List.mem_of_getLast? ends) rfl
  | true =>
    simp only [Bool.true_eq_false, false_iff, not_and]
    intro empty
    rw [found, empty] at parts
    rw [parts]
    simp [endsWithDot]

theorem endsWithDot_rest (more : (splitWord s).2.1 ≠ []) :
    endsWithDot (splitWord s).2.1 = endsWithDot s := by
  obtain ⟨parts, -, last⟩ := splitWord_spec s
  have found : (splitWord s).2.2 = true := by
    by_contra none'
    exact more (last (by simpa using none'))
  obtain ⟨c, cs, rest⟩ := List.exists_cons_of_ne_nil more
  conv_rhs => rw [parts]
  simp [found, endsWithDot, rest, List.getLast?_append, List.getLast?_cons_cons]

theorem words_splitWord (nonempty : s ≠ []) :
    words s = (splitWord s).1 ::
      (if (splitWord s).2.2 then (splitWord s).2.1.splitOn dot else []) := by
  rw [words, if_neg nonempty, splitOn_splitWord]

/-- Word by word the scan sees the kept words. -/
theorem kept_splitWord (nonempty : s ≠ []) :
    kept s = (splitWord s).1 :: kept (splitWord s).2.1 := by
  have last := splitWord_last s
  rw [kept, words_splitWord nonempty]
  by_cases rest : (splitWord s).2.1 = []
  · have nothing : kept [] = [] := rfl
    cases found : (splitWord s).2.2 with
    | false =>
      rw [(last.mp found).2, rest, nothing]
      simp
    | true =>
      have ends : endsWithDot s = true := by
        by_contra open'
        rw [last.mpr ⟨rest, by simpa using open'⟩] at found
        cases found
      simp [ends, rest, nothing]
  · have found : (splitWord s).2.2 = true := by
      by_contra none'
      exact rest (last.mp (by simpa using none')).1
    rw [kept, endsWithDot_rest rest, words, if_neg rest, found, if_pos rfl]
    split
    · exact List.dropLast_cons_of_ne_nil (List.splitOnP_ne_nil _ _)
    · rfl

theorem kept_eq_nil_iff : kept s = [] ↔ s = [] := by
  constructor
  · intro empty
    by_contra nonempty
    rw [kept_splitWord nonempty] at empty
    cases empty
  · rintro rfl
    rfl

theorem onlyHashes_eq {fuel : Nat} {pattern : Bytes} (enough : pattern.length ≤ fuel) :
    onlyHashes fuel pattern = (kept pattern).all (· == str "#") := by
  induction fuel generalizing pattern with
  | zero =>
    obtain rfl := List.eq_nil_of_length_eq_zero (Nat.le_zero.mp enough)
    rfl
  | succ fuel ih =>
    cases pattern with
    | nil => rfl
    | cons c cs =>
      have shorter := splitWord_rest_lt (List.cons_ne_nil c cs)
      rw [kept_splitWord (List.cons_ne_nil c cs), List.all_cons, onlyHashes]
      simp only [ih (Nat.le_of_lt_succ (shorter.trans_le enough))]
      by_cases isHash : (splitWord (c :: cs)).1 = str "#"
      · simp [isHash]
      · simp [isHash]

theorem fits_nil_pattern (closed closed' : Bool) (key : List Bytes) :
    fits closed key [] = fits closed' key [] := by
  cases key <;> rfl

/-- The main loop, with enough fuel, is the scan of the words. -/
theorem matchLoop_eq {fuel : Nat} {key : Bytes} (enough : key.length ≤ fuel) (pattern : Bytes) :
    matchLoop fuel key pattern = fits (endsWithDot pattern) (kept key) (kept pattern) := by
  induction fuel generalizing key pattern with
  | zero =>
    obtain rfl := List.eq_nil_of_length_eq_zero (Nat.le_zero.mp enough)
    simp [matchLoop, onlyHashes_eq (le_refl _), kept_eq_nil_iff.mpr rfl, fits]
  | succ fuel ih =>
    by_cases noKey : key = []
    · subst noKey
      simp [matchLoop, onlyHashes_eq (le_refl _), kept_eq_nil_iff.mpr rfl, fits]
    by_cases noPattern : pattern = []
    · subst noPattern
      obtain ⟨k, ks, rfl⟩ := List.exists_cons_of_ne_nil noKey
      rw [kept_splitWord noKey, kept_eq_nil_iff.mpr rfl]
      simp [matchLoop, fits]
    have shorter := splitWord_rest_lt noKey
    have rest := ih (Nat.le_of_lt_succ (shorter.trans_le enough)) (splitWord pattern).2.1
    have atEnd : (!(splitWord pattern).2.2 && (splitWord pattern).1 == str "#") = true ↔
        (splitWord pattern).2.1 = [] ∧ endsWithDot pattern = false ∧
          (splitWord pattern).1 = str "#" := by
      rw [Bool.and_eq_true, Bool.not_eq_true', splitWord_last, beq_iff_eq, and_assoc]
    have closed (key : List Bytes) : fits (endsWithDot (splitWord pattern).2.1) key
          (kept (splitWord pattern).2.1) =
        fits (endsWithDot pattern) key (kept (splitWord pattern).2.1) := by
      by_cases more : (splitWord pattern).2.1 = []
      · rw [kept_eq_nil_iff.mpr more]
        exact fits_nil_pattern _ _ key
      · rw [endsWithDot_rest more]
    rw [kept_splitWord noKey, kept_splitWord noPattern, fits]
    obtain ⟨k, ks, rfl⟩ := List.exists_cons_of_ne_nil noKey
    obtain ⟨p, ps, rfl⟩ := List.exists_cons_of_ne_nil noPattern
    simp only [matchLoop, rest, closed, atEnd, kept_eq_nil_iff]

theorem matchSegments_eq (key pattern : Bytes) :
    matchSegments key pattern = fits (endsWithDot pattern) (kept key) (kept pattern) :=
  matchLoop_eq (le_refl _) pattern

end Scan

section Pieces

theorem piece_hash : piece (str "#") = .many fun _ => true := if_pos rfl

theorem piece_of_ne {word : Bytes} (other : word ≠ str "#") :
    ∃ accepts : Bytes → Bool, piece word = .one accepts ∧
      ∀ w, accepts w = true ↔ word = str "*" ∨ word = w := by
  by_cases isStar : word = str "*"
  · exact ⟨fun _ => true, by rw [piece, if_neg other, if_pos isStar], by simp [isStar]⟩
  · refine ⟨fun w => w == word, by rw [piece, if_neg other, if_neg isStar], ?_⟩
    intro w
    rw [beq_iff_eq, or_iff_right isStar]
    exact eq_comm

theorem scanPieces_hashes {pattern : List Bytes} (hashes : pattern.all (· == str "#") = true)
    (closed : Bool) : ∀ piece ∈ scanPieces closed pattern, piece.least = 0 := by
  induction pattern with
  | nil => exact List.forall_mem_nil _
  | cons word rest ih =>
    obtain ⟨first, later⟩ := Bool.and_eq_true_iff.mp (List.all_cons ▸ hashes)
    rw [scanPieces, if_pos (beq_iff_eq.mp first), if_pos later, List.forall_mem_cons]
    refine ⟨?_, ih later⟩
    split <;> rfl

theorem scanPieces_least_iff {closed : Bool} {pattern : List Bytes} :
    (∀ piece ∈ scanPieces closed pattern, piece.least = 0) ↔
      pattern.all (· == str "#") = true := by
  refine ⟨?_, fun hashes => scanPieces_hashes hashes closed⟩
  intro least
  induction pattern with
  | nil => rfl
  | cons word rest ih =>
    obtain ⟨first, later⟩ := List.forall_mem_cons.mp (scanPieces.eq_def .. ▸ least)
    have hashes := ih later
    rw [List.all_cons, hashes, Bool.and_true, beq_iff_eq]
    by_contra other
    obtain ⟨accepts, one, -⟩ := piece_of_ne other
    rw [if_neg other, one] at first
    cases first

theorem fits_iff (closed : Bool) (key pattern : List Bytes) :
    fits closed key pattern = true ↔ Matches key (scanPieces closed pattern) := by
  induction pattern generalizing key with
  | nil =>
    cases key with
    | nil => simp [fits, scanPieces, matches_no_pieces]
    | cons k key => simp [fits, scanPieces, matches_no_pieces]
  | cons p pattern ih =>
    cases key with
    | nil => rw [fits, matches_no_words, scanPieces_least_iff]
    | cons k key =>
      rw [fits, scanPieces]
      by_cases isHash : p = str "#"
      · simp only [isHash, ne_eq, not_true_eq_false, false_and, if_false, if_true, and_true]
        by_cases hashes : pattern.all (· == str "#") = true
        · rw [if_pos hashes]
          by_cases last : pattern = [] ∧ closed = false
          · rw [if_pos last, if_pos last, last.1]
            exact iff_of_true rfl (matches_many_last _ fun _ _ => rfl)
          · rw [if_neg last, if_neg last, ih, matches_optional_iff]
            have fewer : Matches (k :: key) (scanPieces closed pattern) →
                Matches key (scanPieces closed pattern) :=
              Matches.tail (scanPieces_hashes hashes closed)
            tauto
        · have more : ¬(pattern = [] ∧ closed = false) := by
            rintro ⟨rfl, -⟩
            exact hashes rfl
          rw [if_neg hashes, if_neg more, ih, matches_one_iff]
          simp
      · obtain ⟨accepts, one, accepted⟩ := piece_of_ne isHash
        rw [if_neg isHash, one, matches_one_iff, accepted, ← ih]
        by_cases refused : p ≠ str "*" ∧ p ≠ k
        · simp [isHash, refused]
        · have taken : p = str "*" ∨ p = k := by tauto
          simp [isHash, refused, taken]

end Pieces

def ScanMatch (key pattern : Bytes) : Prop :=
  Matches (kept key) (scanPieces (endsWithDot pattern) (kept pattern))

theorem matchRoute_topic (key pattern : Bytes) :
    matchRoute .topic key pattern = true ↔ ScanMatch key pattern := by
  rw [ScanMatch, ← fits_iff, ← matchSegments_eq]
  rfl

end HzMq.Delivery
