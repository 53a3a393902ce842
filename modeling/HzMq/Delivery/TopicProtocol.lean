import HzMq.Delivery.TopicMatching
import HzMq.Library.Separated
import Mathlib.Data.List.Induction

/-!
# Topic patterns and the protocol

Two things set the scan apart from the protocol: the empty word behind a final dot,
and a `#` that another kind of word follows. Where both are out of the way, or are not
come to because an earlier word does not fit, the two agree; and a pattern with such
a `#` goes wrong on some key.
-/

namespace HzMq.Delivery

open Router WordPattern

/-- The rule of the protocol. -/
def Amqp (key pattern : List Bytes) : Prop := Matches key (pattern.map piece)

def HashesLast (pattern : List Bytes) : Prop :=
  pattern.Pairwise fun word later => word = str "#" → later = str "#"

instance (pattern : List Bytes) : Decidable (HashesLast pattern) :=
  inferInstanceAs (Decidable (List.Pairwise _ _))

/-- Some word of the pattern in front of its first `#` does not stand for the word at its place
in the key. -/
def clashes : List Bytes → List Bytes → Bool
  | k :: key, p :: pattern =>
    p != str "#" && (p != str "*" && p != k || clashes key pattern)
  | _, _ => false

section Agreement

variable {s key pattern : Bytes}

/-- The scan reads no piece more widely than the protocol does. -/
theorem scanPieces_narrower (closed : Bool) (pattern : List Bytes) :
    List.Forall₂ Piece.Narrower (scanPieces closed pattern) (pattern.map piece) := by
  induction pattern with
  | nil => exact .nil
  | cons word rest ih =>
    refine .cons ?_ ih
    by_cases isHash : word = str "#"
    · rw [if_pos isHash, isHash, piece_hash]
      split
      · split
        · exact Piece.Narrower.refl _
        · exact Piece.optional_narrower_many _
      · exact Piece.one_narrower_many _
    · rw [if_neg isHash]
      exact Piece.Narrower.refl _

theorem matches_scan_hashes (key : List Bytes) {pattern : List Bytes} (nonempty : pattern ≠ [])
    (hashes : pattern.all (· == str "#") = true) : Matches key (scanPieces false pattern) := by
  induction pattern with
  | nil => exact absurd rfl nonempty
  | cons word rest ih =>
    obtain ⟨first, later⟩ := Bool.and_eq_true_iff.mp (List.all_cons ▸ hashes)
    rw [scanPieces, if_pos (beq_iff_eq.mp first), if_pos later]
    by_cases last : rest = []
    · rw [if_pos ⟨last, rfl⟩, last]
      exact matches_many_last _ fun _ _ => rfl
    · rw [if_neg fun both => last both.1]
      exact .cons ((Piece.takes_nil_iff _).mpr rfl) (ih last later)

/-- Where only `#` follows a `#`, the scan misses nothing. -/
theorem scan_of_amqp {key pattern : List Bytes} (hashesLast : HashesLast pattern)
    (matched : Amqp key pattern) : Matches key (scanPieces false pattern) := by
  induction pattern generalizing key with
  | nil => exact matched
  | cons word rest ih =>
    obtain ⟨first, later⟩ := List.pairwise_cons.mp hashesLast
    by_cases isHash : word = str "#"
    · refine matches_scan_hashes key (List.cons_ne_nil word rest) ?_
      rw [List.all_cons, beq_iff_eq.mpr isHash, Bool.true_and, List.all_eq_true]
      exact fun other member => beq_iff_eq.mpr (first other member isHash)
    · obtain ⟨block, back, rfl, taken, matched⟩ := matches_cons_iff.mp matched
      rw [scanPieces, if_neg isHash]
      exact .cons taken (ih later matched)

theorem scanPieces_of_noHash {pattern : List Bytes} (noHash : str "#" ∉ pattern)
    (closed : Bool) : scanPieces closed pattern = pattern.map piece := by
  induction pattern with
  | nil => rfl
  | cons word rest ih =>
    obtain ⟨other, later⟩ := not_or.mp (List.mem_cons.not.mp noHash)
    rw [scanPieces, if_neg (Ne.symm other), ih later, List.map_cons]

theorem kept_of_open (open' : endsWithDot s = false) : kept s = words s := by
  rw [kept, open']
  rfl

theorem words_concat_dot (front : Bytes) :
    words (front ++ [dot]) = front.splitOn dot ++ [[]] := by
  rw [words, if_neg (by simp), List.splitOn, List.splitOnP_append_cons _ _ (by simp)]
  rfl

theorem words_of_closed (closed : endsWithDot s = true) : words s = kept s ++ [[]] := by
  obtain ⟨front, rfl⟩ : ∃ front, s = front ++ [dot] :=
    List.getLast?_eq_some_iff.mp (beq_iff_eq.mp closed)
  rw [kept, closed, if_pos rfl, words_concat_dot, List.dropLast_concat]

theorem piece_empty : piece [] = .one fun w => w == [] := rfl

theorem amqp_concat_empty {key pattern : List Bytes} :
    Amqp (key ++ [[]]) (pattern ++ [[]]) ↔ Amqp key pattern := by
  rw [Amqp, List.map_append, List.map_singleton, piece_empty, matches_concat_one_iff]
  constructor
  · rintro ⟨front, last, split, -, matched⟩
    obtain ⟨rfl, -⟩ := List.append_inj' split rfl
    exact matched
  · exact fun matched => ⟨key, [], rfl, rfl, matched⟩

/-- Unless just one of the two ends with a dot, the scan matches nothing by mistake. -/
theorem amqp_of_scan (alike : endsWithDot key = endsWithDot pattern)
    (matched : ScanMatch key pattern) : Amqp (words key) (words pattern) := by
  have onKept : Amqp (kept key) (kept pattern) := matched.mono (scanPieces_narrower _ _)
  cases ends : endsWithDot pattern with
  | false => rwa [kept_of_open (alike.trans ends), kept_of_open ends] at onKept
  | true =>
    rwa [words_of_closed (alike.trans ends), words_of_closed ends, amqp_concat_empty]

theorem topic_of_hashesLast (alike : endsWithDot key = endsWithDot pattern)
    (hashesLast : HashesLast (words pattern)) :
    matchRoute .topic key pattern = true ↔ Amqp (words key) (words pattern) := by
  rw [matchRoute_topic]
  refine ⟨amqp_of_scan alike, fun matched => ?_⟩
  cases ends : endsWithDot pattern with
  | false =>
    rw [ScanMatch, kept_of_open (alike.trans ends), kept_of_open ends, ends]
    exact scan_of_amqp hashesLast matched
  | true =>
    -- the empty word behind the final dot follows every `#`
    rw [words_of_closed ends] at hashesLast
    have noHash : str "#" ∉ kept pattern := by
      intro member
      have empty := (List.pairwise_append.mp hashesLast).2.2 _ member _ List.mem_cons_self rfl
      exact absurd empty (by decide)
    rw [words_of_closed (alike.trans ends), words_of_closed ends, amqp_concat_empty] at matched
    rwa [ScanMatch, scanPieces_of_noHash noHash]

end Agreement

section Clash

def Trimmed (ws ws' : List Bytes) : Prop := ws = ws' ∨ ws = ws' ++ [[]]

theorem trimmed_kept (s : Bytes) : Trimmed (words s) (kept s) := by
  cases ends : endsWithDot s with
  | false => exact Or.inl (kept_of_open ends).symm
  | true => exact Or.inr (words_of_closed ends)

theorem trimmed_nil {ws : List Bytes} {w : Bytes} (trimmed : Trimmed (w :: ws) []) :
    w = [] ∧ ws = [] := by
  rcases trimmed with same | same
  · cases same
  · exact List.cons.inj same

theorem trimmed_cons {ws ws' : List Bytes} {w w' : Bytes}
    (trimmed : Trimmed (w :: ws) (w' :: ws')) : w = w' ∧ Trimmed ws ws' := by
  rcases trimmed with same | same
  · obtain ⟨rfl, rfl⟩ := List.cons.inj same
    exact ⟨rfl, Or.inl rfl⟩
  · obtain ⟨rfl, rest⟩ := List.cons.inj same
    exact ⟨rfl, Or.inr rest⟩

theorem not_amqp_of_clashes {key pattern : List Bytes} (clash : clashes key pattern = true) :
    ¬Amqp key pattern := by
  induction pattern generalizing key with
  | nil => cases key <;> cases clash
  | cons p pattern ih =>
    cases key with
    | nil => cases clash
    | cons k key =>
      simp only [clashes, Bool.and_eq_true, Bool.or_eq_true, bne_iff_ne] at clash
      obtain ⟨other, clash⟩ := clash
      obtain ⟨accepts, one, accepted⟩ := piece_of_ne other
      rw [Amqp, List.map_cons, one, matches_one_iff, accepted]
      rintro ⟨taken, later⟩
      rcases clash with ⟨notStar, differs⟩ | clash
      · exact taken.elim notStar differs
      · exact ih clash later

theorem not_fits_of_clashes {key pattern key' pattern' : List Bytes} (closed : Bool)
    (keys : Trimmed key key') (patterns : Trimmed pattern pattern')
    (clash : clashes key pattern = true) : fits closed key' pattern' = false := by
  induction pattern generalizing key key' pattern' with
  | nil => cases key <;> cases clash
  | cons p pattern ih =>
    cases key with
    | nil => cases clash
    | cons k key =>
      simp only [clashes, Bool.and_eq_true, Bool.or_eq_true, bne_iff_ne] at clash
      obtain ⟨other, clash⟩ := clash
      cases pattern' with
      | nil =>
        obtain ⟨rfl, rfl⟩ := trimmed_nil patterns
        cases key' with
        | nil =>
          obtain ⟨rfl, rfl⟩ := trimmed_nil keys
          exact absurd clash (by simp [clashes])
        | cons k' key' => rfl
      | cons p' pattern' =>
        obtain ⟨rfl, laterPatterns⟩ := trimmed_cons patterns
        cases key' with
        | nil => simp [fits, other]
        | cons k' key' =>
          obtain ⟨rfl, laterKeys⟩ := trimmed_cons keys
          rw [fits]
          rcases clash with ⟨notStar, differs⟩ | clash
          · rw [if_pos ⟨other, notStar, differs⟩]
          · simp only [other, and_false, if_false, ih laterKeys laterPatterns clash, ite_self]

theorem topic_of_clashes {key pattern : Bytes}
    (clash : clashes (words key) (words pattern) = true) :
    matchRoute .topic key pattern = true ↔ Amqp (words key) (words pattern) := by
  refine iff_of_false ?_ (not_amqp_of_clashes clash)
  rw [matchRoute_topic, ScanMatch, ← fits_iff,
    not_fits_of_clashes _ (trimmed_kept key) (trimmed_kept pattern) clash]
  exact Bool.false_ne_true

end Clash

section Counterexample

theorem noDot_of_mem_words {s w : Bytes} (member : w ∈ words s) : dot ∉ w := by
  unfold words at member
  split at member
  · cases member
  · exact Separated.not_mem_of_mem_splitOn member

theorem splitOn_intercalate_dot {ws : List Bytes} (noDot : ∀ w ∈ ws, dot ∉ w)
    (nonempty : ws ≠ []) : ([dot].intercalate ws).splitOn dot = ws :=
  List.splitOn_intercalate dot noDot nonempty

/-- Words of which the last is not empty are those of a text that does not end with a dot. -/
theorem exists_open {front : List Bytes} {last : Bytes}
    (noDot : ∀ w ∈ front ++ [last], dot ∉ w) (notEmpty : last ≠ []) :
    ∃ key, endsWithDot key = false ∧ words key = front ++ [last] := by
  have split := splitOn_intercalate_dot noDot (by simp)
  have key : words ([dot].intercalate (front ++ [last])) = front ++ [last] := by
    rw [words, if_neg ?_, split]
    intro empty
    rw [empty] at split
    have single : front ++ [last] = [] ++ [[]] := split.symm
    exact notEmpty (List.cons.inj (List.append_inj' single rfl).2).1
  refine ⟨[dot].intercalate (front ++ [last]), ?_, key⟩
  by_contra ends
  rw [words_of_closed (by simpa using ends)] at key
  exact notEmpty (List.cons.inj (List.append_inj' key rfl).2).1.symm

/-- The last word of a text that does not end with a dot is not empty. -/
theorem endsWithDot_of_words {s : Bytes} {front : List Bytes} (ends : words s = front ++ [[]]) :
    endsWithDot s = true := by
  rcases List.eq_nil_or_concat s with rfl | ⟨init, c, rfl⟩
  · simp [words] at ends
  rw [List.concat_eq_append] at ends ⊢
  by_cases isDot : c = dot
  · simp [endsWithDot, isDot]
  · obtain ⟨before, last, split⟩ := Separated.splitOn_concat isDot init
    rw [words, if_neg (by simp), split] at ends
    obtain ⟨-, same⟩ := List.append_inj' ends rfl
    simp at same

theorem amqp_without_hashes (pattern : List Bytes) :
    Amqp (pattern.filter (· ≠ str "#")) pattern := by
  induction pattern with
  | nil => exact .nil
  | cons word rest ih =>
    by_cases isHash : word = str "#"
    · rw [List.filter_cons_of_neg (by simp [isHash]), Amqp, List.map_cons, isHash, piece_hash]
      exact .cons ((Piece.takes_nil_iff _).mpr rfl) ih
    · obtain ⟨accepts, one, accepted⟩ := piece_of_ne isHash
      rw [List.filter_cons_of_pos (by simp [isHash]), Amqp, List.map_cons, one, matches_one_iff]
      exact ⟨(accepted word).mpr (Or.inr rfl), ih⟩

theorem amqp_hashes (key : List Bytes) {pattern : List Bytes} (nonempty : pattern ≠ [])
    (hashes : pattern.all (· == str "#") = true) : Amqp key pattern :=
  (matches_scan_hashes key nonempty hashes).mono (scanPieces_narrower false pattern)

theorem Amqp.append {key key' pattern pattern' : List Bytes} (front : Amqp key pattern)
    (back : Amqp key' pattern') : Amqp (key ++ key') (pattern ++ pattern') := by
  rw [Amqp, List.map_append]
  exact Matches.append front back

def exactPiece (word : Bytes) : Piece Bytes :=
  if word = str "#" then .one fun _ => true else piece word

theorem exactPiece_one (word : Bytes) : ∃ accepts, exactPiece word = .one accepts := by
  unfold exactPiece
  split
  · exact ⟨_, rfl⟩
  · next other =>
    obtain ⟨accepts, one, -⟩ := piece_of_ne other
    exact ⟨accepts, one⟩

theorem scanPieces_split (closed : Bool) (body : List Bytes) {word : Bytes}
    (other : word ≠ str "#") (trailing : List Bytes) :
    scanPieces closed (body ++ word :: trailing) =
      (body.map exactPiece ++ [piece word]) ++ scanPieces closed trailing := by
  induction body with
  | nil => rw [List.nil_append, scanPieces, if_neg other]; rfl
  | cons first body ih =>
    have inFront : ¬(body ++ word :: trailing).all (· == str "#") = true := by
      simp [other]
    rw [List.cons_append, scanPieces, if_neg inFront, ih]
    rfl

/-- What is behind the last word that is not a `#`, and a `#` in front of that. -/
theorem exists_inner {pattern : List Bytes} (bad : ¬HashesLast pattern) :
    ∃ body word trailing, pattern = body ++ word :: trailing ∧ word ≠ str "#" ∧
      str "#" ∈ body ∧ trailing.all (· == str "#") = true := by
  induction pattern using List.reverseRecOn with
  | nil => exact absurd .nil bad
  | append_singleton pattern last ih =>
    by_cases isHash : last = str "#"
    · have before : ¬HashesLast pattern := fun good => bad (List.pairwise_append.mpr
        ⟨good, List.pairwise_singleton _ _, fun _ _ later member _ =>
          (List.mem_singleton.mp member).trans isHash⟩)
      obtain ⟨body, word, trailing, rfl, other, member, hashes⟩ := ih before
      refine ⟨body, word, trailing ++ [last], by simp, other, member, ?_⟩
      rw [List.all_append, hashes, isHash]
      rfl
    · refine ⟨pattern, last, [], rfl, isHash, ?_, rfl⟩
      by_contra noHash
      refine bad (List.pairwise_append.mpr ⟨?_, List.pairwise_singleton _ _, ?_⟩)
      · exact List.pairwise_of_forall_mem_list fun word member _ _ same =>
          absurd (same ▸ member) noHash
      · exact fun word member _ _ same => absurd (same ▸ member) noHash

theorem scan_takes {key pattern : Bytes} (keyOpen : endsWithDot key = false)
    (open' : endsWithDot pattern = false) {body trailing : List Bytes} {word : Bytes}
    (split : words pattern = body ++ word :: trailing) (other : word ≠ str "#")
    (matched : ScanMatch key pattern) :
    ∃ front taken back, words key = front ++ [taken] ++ back ∧ front.length = body.length ∧
      (word = str "*" ∨ word = taken) := by
  rw [ScanMatch, kept_of_open keyOpen, kept_of_open open', split, scanPieces_split _ _ other,
    matches_append_iff] at matched
  obtain ⟨seen, back, whole, first, -⟩ := matched
  obtain ⟨accepts, one, accepted⟩ := piece_of_ne other
  rw [one, matches_concat_one_iff] at first
  obtain ⟨front, taken, rfl, takes, first⟩ := first
  have exact' : ∀ piece ∈ body.map exactPiece, ∃ accepts, piece = .one accepts := by
    intro piece member
    obtain ⟨w, -, rfl⟩ := List.mem_map.mp member
    exact exactPiece_one w
  exact ⟨front, taken, back, whole, by rw [first.length_eq exact', List.length_map],
    (accepted taken).mp takes⟩

/-- Without final dots: the words of the pattern that are no `#`, and one more where the last of
them is empty. -/
theorem open_goes_wrong {pattern : Bytes} (open' : endsWithDot pattern = false)
    (bad : ¬HashesLast (words pattern)) :
    ∃ key, endsWithDot key = false ∧ matchRoute .topic key pattern = false ∧
      Amqp (words key) (words pattern) := by
  obtain ⟨body, word, trailing, split, other, member, hashes⟩ := exists_inner bad
  have fewer : (body.filter (· ≠ str "#")).length < body.length :=
    List.length_filter_lt_length_iff_exists.mpr ⟨str "#", member, by simp⟩
  have noDot : ∀ w ∈ body.filter (· ≠ str "#") ++ [word], dot ∉ w := by
    intro w inKey
    refine noDot_of_mem_words (s := pattern) ?_
    rw [split]
    rcases List.mem_append.mp inKey with inBody | last
    · exact List.mem_append_left _ (List.mem_of_mem_filter inBody)
    · exact List.mem_append_right _ (List.mem_singleton.mp last ▸ List.mem_cons_self)
  have own : Amqp (body.filter (· ≠ str "#") ++ [word]) (body ++ [word]) := by
    have all := amqp_without_hashes (body ++ [word])
    rwa [List.filter_append, List.filter_cons_of_pos (by simpa using other), List.filter_nil]
      at all
  have whole : words pattern = (body ++ [word]) ++ trailing := by
    rw [split, List.append_assoc, List.singleton_append]
  by_cases empty : word = []
  · have some' : trailing ≠ [] := by
      rintro rfl
      rw [empty] at split
      rw [endsWithDot_of_words split] at open'
      cases open'
    obtain ⟨key, keyOpen, keyWords⟩ : ∃ key, endsWithDot key = false ∧
        words key = (body.filter (· ≠ str "#") ++ [word]) ++ [str "x"] := by
      refine exists_open (fun w inKey => ?_) (by decide)
      rcases List.mem_append.mp inKey with old | new
      · exact noDot w old
      · rw [List.mem_singleton.mp new]
        decide
    refine ⟨key, keyOpen, ?_, ?_⟩
    · rw [← Bool.not_eq_true, matchRoute_topic]
      intro matched
      obtain ⟨front, taken, back, found, long, takes⟩ :=
        scan_takes keyOpen open' split other matched
      have lengths := congrArg List.length (keyWords.symm.trans found)
      simp only [List.length_append, List.length_singleton, long] at lengths
      obtain rfl : back = [] := List.eq_nil_of_length_eq_zero (by omega)
      rw [keyWords, List.append_nil] at found
      obtain ⟨-, same⟩ := List.append_inj' found rfl
      rw [empty, ← (List.cons.inj same).1] at takes
      exact absurd takes (by decide)
    · rw [keyWords, whole]
      exact own.append (amqp_hashes _ some' hashes)
  · obtain ⟨key, keyOpen, keyWords⟩ := exists_open noDot empty
    refine ⟨key, keyOpen, ?_, ?_⟩
    · rw [← Bool.not_eq_true, matchRoute_topic]
      intro matched
      obtain ⟨front, taken, back, found, long, -⟩ := scan_takes keyOpen open' split other matched
      have lengths := congrArg List.length (keyWords.symm.trans found)
      simp only [List.length_append, List.length_singleton, long] at lengths
      omega
    · rw [keyWords, whole, ← List.append_nil (_ ++ [word])]
      refine own.append ?_
      by_cases some' : trailing = []
      · subst some'
        exact Matches.nil
      · exact amqp_hashes [] some' hashes

theorem scanPieces_most (pattern : List Bytes) :
    ∀ piece ∈ scanPieces true pattern, piece.most = some 1 := by
  induction pattern with
  | nil => exact List.forall_mem_nil _
  | cons word rest ih =>
    rw [scanPieces, List.forall_mem_cons]
    refine ⟨?_, ih⟩
    by_cases isHash : word = str "#"
    · rw [if_pos isHash]
      split
      · rw [if_neg (by simp)]
        rfl
      · rfl
    · obtain ⟨accepts, one, -⟩ := piece_of_ne isHash
      rw [if_neg isHash, one]
      rfl

theorem scanPieces_length (closed : Bool) (pattern : List Bytes) :
    (scanPieces closed pattern).length = pattern.length := by
  induction pattern with
  | nil => rfl
  | cons word rest ih => rw [scanPieces, List.length_cons, List.length_cons, ih]

/-- Two words for a `#`, its own for every other word. -/
def spread (word : Bytes) : List Bytes :=
  if word = str "#" then [str "x", str "x"] else [word]

theorem amqp_spread (pattern : List Bytes) : Amqp (pattern.flatMap spread) pattern := by
  induction pattern with
  | nil => exact .nil
  | cons word rest ih =>
    rw [List.flatMap_cons, Amqp, List.map_cons, spread]
    by_cases isHash : word = str "#"
    · rw [if_pos isHash, isHash, piece_hash]
      exact .cons ⟨fun _ _ => rfl, Nat.zero_le _, by simp [Piece.many]⟩ ih
    · obtain ⟨accepts, one, accepted⟩ := piece_of_ne isHash
      rw [if_neg isHash, one]
      exact (matches_one_iff accepts).mpr ⟨(accepted word).mpr (Or.inr rfl), ih⟩

theorem length_le_spread (pattern : List Bytes) :
    pattern.length ≤ (pattern.flatMap spread).length := by
  induction pattern with
  | nil => exact Nat.le_refl 0
  | cons word rest ih =>
    rw [List.flatMap_cons, List.length_append, List.length_cons, spread]
    split
    · simp only [List.length_cons, List.length_nil]
      omega
    · simp only [List.length_singleton]
      omega

theorem length_lt_spread {pattern : List Bytes} (member : str "#" ∈ pattern) :
    pattern.length < (pattern.flatMap spread).length := by
  obtain ⟨front, back, rfl⟩ := List.append_of_mem member
  have before := length_le_spread front
  have behind := length_le_spread back
  rw [List.flatMap_append, List.flatMap_cons, spread, if_pos rfl]
  simp only [List.length_append, List.length_cons, List.length_nil]
  omega

theorem noDot_spread {pattern : List Bytes} (noDot : ∀ w ∈ pattern, dot ∉ w) :
    ∀ w ∈ pattern.flatMap spread, dot ∉ w := by
  intro w member
  obtain ⟨word, inside, member⟩ := List.mem_flatMap.mp member
  unfold spread at member
  split at member
  · rcases List.mem_cons.mp member with rfl | member
    · decide
    · rw [List.mem_singleton.mp member]
      decide
  · exact List.mem_singleton.mp member ▸ noDot word inside

/-- With final dots: two words for each `#`. -/
theorem closed_goes_wrong {pattern : Bytes} (closed : endsWithDot pattern = true)
    (bad : ¬HashesLast (words pattern)) :
    ∃ key, endsWithDot key = true ∧ matchRoute .topic key pattern = false ∧
      Amqp (words key) (words pattern) := by
  have whole := words_of_closed closed
  have member : str "#" ∈ kept pattern := by
    by_contra noHash
    refine bad (whole ▸ List.pairwise_append.mpr ⟨?_, List.pairwise_singleton _ _, ?_⟩)
    · exact List.pairwise_of_forall_mem_list fun word member _ _ same =>
        absurd (same ▸ member) noHash
    · exact fun word member _ _ same => absurd (same ▸ member) noHash
  have more := length_lt_spread member
  have noDot : ∀ w ∈ (kept pattern).flatMap spread, dot ∉ w :=
    noDot_spread fun w inside => noDot_of_mem_words (whole ▸ List.mem_append_left _ inside)
  have split := splitOn_intercalate_dot noDot (List.length_pos_iff.mp (Nat.zero_lt_of_lt more))
  have keyWords := words_concat_dot ([dot].intercalate ((kept pattern).flatMap spread))
  rw [split] at keyWords
  refine ⟨[dot].intercalate ((kept pattern).flatMap spread) ++ [dot], ?_, ?_, ?_⟩
  · simp [endsWithDot]
  · rw [← Bool.not_eq_true, matchRoute_topic, ScanMatch, closed]
    intro matched
    rw [kept, if_pos (by simp [endsWithDot]), keyWords, List.dropLast_concat] at matched
    have fewer := matched.length_le (scanPieces_most _)
    rw [scanPieces_length] at fewer
    omega
  · rw [keyWords, whole, amqp_concat_empty]
    exact amqp_spread _

theorem goes_wrong {pattern : Bytes} (bad : ¬HashesLast (words pattern)) :
    ∃ key, endsWithDot key = endsWithDot pattern ∧ matchRoute .topic key pattern = false ∧
      Amqp (words key) (words pattern) := by
  cases ends : endsWithDot pattern with
  | false => exact open_goes_wrong ends bad
  | true => exact closed_goes_wrong ends bad

end Counterexample

end HzMq.Delivery
