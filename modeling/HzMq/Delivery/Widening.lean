import HzMq.Delivery.TopicMatching
import HzMq.Library.Separated

/-!
# Wider topic patterns

The scan reads a `#` in three ways, depending on what comes after it, and does not
read an empty last word at all. Putting a wildcard in the place of a word may change
how the words before it are read, but each of them only to something wider.
-/

namespace HzMq.Delivery

open Router WordPattern

def replaceWord (pattern : Bytes) (i : Nat) (word : Bytes) : Bytes :=
  [dot].intercalate ((pattern.splitOn dot).set i word)

/-- A word and what may stand in its place. A `*` takes exactly one word, so it is no
substitute for a `#`, nor for an empty word, which the scan may not read at all. -/
inductive Widens : Bytes → Bytes → Prop
  | same (word : Bytes) : Widens word word
  | hash (word : Bytes) : Widens word (str "#")
  | star {word : Bytes} : word ≠ [] → word ≠ str "#" → Widens word (str "*")

section Words

def readWords (words : List Bytes) : List Bytes :=
  if words.getLast? = some [] then words.dropLast else words

def closedBy (words : List Bytes) : Bool := words.getLast? == some []

def scanned (words : List Bytes) : List (Piece Bytes) :=
  scanPieces (closedBy words) (readWords words)

theorem scanned_closed (front : List Bytes) : scanned (front ++ [[]]) = scanPieces true front := by
  simp [scanned, closedBy, readWords]

theorem scanned_open {last : Bytes} (nonempty : last ≠ []) (front : List Bytes) :
    scanned (front ++ [last]) = scanPieces false (front ++ [last]) := by
  have other : (front ++ [last]).getLast? ≠ some [] := by simpa using nonempty
  rw [scanned, closedBy, readWords, if_neg other, beq_eq_false_iff_ne.mpr other]

theorem readWords_cons (word : Bytes) {rest : List Bytes} (more : rest ≠ []) :
    readWords (word :: rest) = word :: readWords rest := by
  rw [readWords, readWords, List.getLast?_cons_of_ne_nil more]
  split
  · exact List.dropLast_cons_of_ne_nil more
  · rfl

theorem closedBy_cons (word : Bytes) {rest : List Bytes} (more : rest ≠ []) :
    closedBy (word :: rest) = closedBy rest := by
  rw [closedBy, closedBy, List.getLast?_cons_of_ne_nil more]

theorem splitOn_read (s : Bytes) :
    kept s = readWords (s.splitOn dot) ∧ (s ≠ [] → endsWithDot s = closedBy (s.splitOn dot)) := by
  induction size : s.length using Nat.strong_induction_on generalizing s with
  | _ n ih =>
    by_cases empty : s = []
    · subst empty
      exact ⟨rfl, fun nonempty => absurd rfl nonempty⟩
    · obtain ⟨parts, -, -⟩ := splitWord_spec s
      have shorter := splitWord_rest_lt empty
      obtain ⟨rest, closed⟩ := ih _ (size ▸ shorter) (splitWord s).2.1 rfl
      rw [kept_splitWord empty, rest, splitOn_splitWord s]
      cases found : (splitWord s).2.2 with
      | false =>
        obtain ⟨none', open'⟩ := (splitWord_last s).mp found
        have word : (splitWord s).1 ≠ [] := by
          intro nothing
          exact empty (by simpa [found, nothing] using parts)
        simp [none', open', readWords, closedBy, word]
      | true =>
        have more : (splitWord s).2.1.splitOn dot ≠ [] := List.splitOn_ne_nil _ _
        refine ⟨(readWords_cons _ more).symm, ?_⟩
        intro _
        rw [if_pos rfl, closedBy_cons _ more]
        by_cases last : (splitWord s).2.1 = []
        · have ends : endsWithDot s = true := by
            rw [parts, found, last]
            simp [endsWithDot]
          rw [ends, last]
          rfl
        · rw [← endsWithDot_rest last, closed last]

theorem matchRoute_words (key pattern : Bytes) :
    matchRoute .topic key pattern = true ↔
      Matches (kept key) (scanned (pattern.splitOn dot)) := by
  rw [matchRoute_topic, ScanMatch, scanned]
  by_cases empty : pattern = []
  · subst empty
    exact Iff.rfl
  · rw [(splitOn_read pattern).1, (splitOn_read pattern).2 empty]

end Words

section Pieces

variable {words words' : List Bytes}

theorem hashes_widened (wider : List.Forall₂ Widens words words')
    (hashes : words.all (· == str "#") = true) : words'.all (· == str "#") = true := by
  induction wider with
  | nil => rfl
  | cons first _ ih =>
    rw [List.all_cons, Bool.and_eq_true] at hashes ⊢
    refine ⟨?_, ih hashes.2⟩
    cases first with
    | same => exact hashes.1
    | hash => exact beq_self_eq_true _
    | star _ other => exact absurd (beq_iff_eq.mp hashes.1) other

theorem word_narrower_hash {word : Bytes} (other : word ≠ str "#") (closed : Bool)
    (rest : List Bytes) :
    (piece word).Narrower
      (if rest.all (· == str "#") then
        if rest = [] ∧ closed = false then .many fun _ => true else .optional fun _ => true
      else .one fun _ => true) := by
  obtain ⟨accepts, one, -⟩ := piece_of_ne other
  rw [one]
  split
  · split
    · exact Piece.one_narrower accepts (fun _ => rfl) (Nat.zero_le 1) (by simp [Piece.many])
    · exact Piece.one_narrower accepts (fun _ => rfl) (Nat.zero_le 1) (by simp [Piece.optional])
  · exact Piece.one_narrower accepts (fun _ => rfl) (Nat.le_refl 1) (by simp [Piece.one])

/-- With wider words, the scan reads every piece at least as widely. -/
theorem scanPieces_widened (closed : Bool) (wider : List.Forall₂ Widens words words') :
    List.Forall₂ Piece.Narrower (scanPieces closed words) (scanPieces closed words') := by
  induction wider with
  | nil => exact .nil
  | @cons word word' rest rest' first later ih =>
    refine .cons ?_ ih
    have noneLeft : rest = [] ↔ rest' = [] := by
      rw [← List.length_eq_zero_iff, later.length_eq, List.length_eq_zero_iff]
    by_cases isHash : word = str "#"
    · have stays : word' = str "#" := by
        cases first with
        | same => exact isHash
        | hash => rfl
        | star _ other => exact absurd isHash other
      rw [if_pos isHash, if_pos stays]
      by_cases hashes : rest.all (· == str "#") = true
      · rw [if_pos hashes, if_pos (hashes_widened later hashes)]
        simp only [noneLeft]
        exact Piece.Narrower.refl _
      · rw [if_neg hashes]
        exact word_narrower_hash (show str "*" ≠ str "#" by decide) closed rest'
    · rw [if_neg isHash]
      cases first with
      | same =>
        rw [if_neg isHash]
        exact Piece.Narrower.refl _
      | hash =>
        rw [if_pos rfl]
        exact word_narrower_hash isHash closed rest'
      | star =>
        obtain ⟨accepts, one, -⟩ := piece_of_ne isHash
        have any : piece (str "*") = .one fun _ => true := rfl
        rw [if_neg (by decide), one, any]
        exact Piece.one_narrower accepts (fun _ => rfl) (Nat.le_refl 1) (by simp [Piece.one])

/-- An open `#` at the end changes nothing about the words before it. -/
theorem scanPieces_concat_hash (words : List Bytes) :
    scanPieces false (words ++ [str "#"]) = scanPieces true words ++ [.many fun _ => true] := by
  induction words with
  | nil => rfl
  | cons word rest ih => simp [scanPieces, ih]

end Pieces

section Replaced

variable {words : List Bytes} {word : Bytes} {i : Nat}

theorem widens_set (wider : ∀ old ∈ words[i]?, Widens old word) :
    List.Forall₂ Widens words (words.set i word) := by
  induction words generalizing i with
  | nil => exact .nil
  | cons first rest ih =>
    cases i with
    | zero => exact .cons (wider first rfl) (List.forall₂_same.mpr fun w _ => .same w)
    | succ i => exact .cons (.same first) (ih wider)

/-- One word is replaced by a wider one. The case of its own is the empty word at the end:
it was not read, and the `#` in its place is. -/
theorem scanned_set {key : List Bytes} (inside : i < words.length)
    (wider : Widens words[i] word) (matched : Matches key (scanned words)) :
    Matches key (scanned (words.set i word)) := by
  have anywhere : ∀ old ∈ words[i]?, Widens old word := by
    rw [List.getElem?_eq_getElem inside]
    rintro old ⟨⟩
    exact wider
  have all : List.Forall₂ Widens words (words.set i word) := widens_set anywhere
  obtain ⟨front, last, rfl⟩ := (List.eq_nil_or_concat' words).resolve_left
    (List.ne_nil_of_length_pos (Nat.zero_lt_of_lt inside))
  rcases Nat.lt_or_ge i front.length with before | behind
  · rw [List.set_append_left i word before] at all ⊢
    by_cases empty : last = []
    · have inFront : List.Forall₂ Widens front (front.set i word) :=
        widens_set (by rwa [List.getElem?_append_left before] at anywhere)
      rw [empty, scanned_closed] at matched ⊢
      exact matched.mono (scanPieces_widened true inFront)
    · rw [scanned_open empty] at matched ⊢
      exact matched.mono (scanPieces_widened false all)
  · have atEnd : i = front.length := by
      rw [List.length_append, List.length_singleton] at inside
      omega
    subst atEnd
    rw [List.set_append_right _ _ (Nat.le_refl _), Nat.sub_self, List.set_cons_zero] at all ⊢
    rw [List.getElem_concat_length rfl] at wider
    cases wider with
    | same => exact matched
    | hash =>
      rw [scanned_open (by decide)]
      by_cases empty : last = []
      · rw [empty, scanned_closed] at matched
        rw [scanPieces_concat_hash, ← List.append_nil key]
        exact matched.append (matches_many_last _ fun _ _ => rfl)
      · rw [scanned_open empty] at matched
        exact matched.mono (scanPieces_widened false all)
    | star nonempty =>
      rw [scanned_open nonempty] at matched
      rw [scanned_open (by decide)]
      exact matched.mono (scanPieces_widened false all)

theorem splitOn_replaceWord (noDot : dot ∉ word) (pattern : Bytes) :
    (replaceWord pattern i word).splitOn dot = (pattern.splitOn dot).set i word := by
  refine List.splitOn_intercalate dot (fun other member => ?_) (by simp)
  rcases List.mem_or_eq_of_mem_set member with old | rfl
  · exact Separated.not_mem_of_mem_splitOn old
  · exact noDot

/-- A pattern goes on matching when a wildcard takes the place of one of its words: a `#`
that of any word, a `*` that of a word which is neither empty nor a `#`. -/
theorem matchRoute_widened (key pattern : Bytes) (i : Nat)
    (inside : i < (pattern.splitOn dot).length) (matched : matchRoute .topic key pattern = true) :
    matchRoute .topic key (replaceWord pattern i (str "#")) = true ∧
      ((pattern.splitOn dot)[i] ≠ [] → (pattern.splitOn dot)[i] ≠ str "#" →
        matchRoute .topic key (replaceWord pattern i (str "*")) = true) := by
  have scan := (matchRoute_words key pattern).mp matched
  constructor
  · rw [matchRoute_words, splitOn_replaceWord (by decide)]
    exact scanned_set inside (.hash _) scan
  · intro nonempty other
    rw [matchRoute_words, splitOn_replaceWord (by decide)]
    exact scanned_set inside (.star nonempty other) scan

theorem matchRoute_widened_example :
    matchRoute .topic (str "user.view") (replaceWord (str "user.view") 0 (str "#")) = true ∧
      matchRoute .topic (str "user.view") (replaceWord (str "user.view") 0 (str "*")) = true :=
  have both := matchRoute_widened (str "user.view") (str "user.view") 0 (by decide) (by decide)
  ⟨both.1, both.2 (by decide) (by decide)⟩

/-- The empty word behind a final dot is not read, so a `*` there asks for one word more. -/
example : matchRoute .topic (str "user") (str "user.") = true ∧
    matchRoute .topic (str "user") (str "user.*") = false := by decide

end Replaced

end HzMq.Delivery
