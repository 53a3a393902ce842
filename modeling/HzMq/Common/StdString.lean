import HzMq.Common.StdTypes
import HzMq.Library.Separated

/-!
# Searching, cutting and printing

`find` answers with a position, or with none where the source gets `npos`. A count
that reaches behind the end of the string is cut short by `substr`. A number that was
printed can be read back.
-/

namespace HzMq

def findChar (s : Bytes) (c : UInt8) (pos : Nat) : Option Nat :=
  ((s.drop pos).idxOf? c).map (pos + ·)

/-- `s.find(needle, pos)`: the first position from `pos` on where `needle` stands. -/
def find (s needle : Bytes) (pos : Nat) : Option Nat :=
  (List.range' pos (s.length + 1 - pos)).find? fun i => needle.isPrefixOf (s.drop i)

def substr (s : Bytes) (pos count : Nat) : Bytes := (s.drop pos).take count

section Char

variable {s : Bytes} {c : UInt8} {pos : Nat}

theorem findChar_eq_none_iff : findChar s c pos = none ↔ c ∉ s.drop pos := by
  rw [findChar, Option.map_eq_none_iff, List.idxOf?_eq_none_iff]

theorem findChar_eq_some_iff {i : Nat} : findChar s c pos = some i ↔
    ∃ before after, s.drop pos = before ++ c :: after ∧ c ∉ before ∧ i = pos + before.length := by
  rw [findChar, Option.map_eq_some_iff]
  constructor
  · rintro ⟨_, found, rfl⟩
    obtain ⟨before, after, split, fresh, rfl⟩ := Separated.idxOf?_eq_some_iff.mp found
    exact ⟨before, after, split, fresh, rfl⟩
  · rintro ⟨before, after, split, fresh, rfl⟩
    exact ⟨before.length, Separated.idxOf?_eq_some_iff.mpr ⟨before, after, split, fresh, rfl⟩, rfl⟩

theorem findChar_append_cons {before : Bytes} (fresh : c ∉ before) (after : Bytes) :
    findChar (before ++ c :: after) c 0 = some before.length :=
  findChar_eq_some_iff.mpr ⟨before, after, rfl, fresh, (Nat.zero_add _).symm⟩

end Char

section Substring

variable {s needle : Bytes} {pos : Nat}

theorem find_eq_some {i : Nat} (found : find s needle pos = some i) :
    pos ≤ i ∧ i + needle.length ≤ s.length ∧ needle <+: s.drop i := by
  have stands : needle <+: s.drop i := by
    simpa using List.find?_some found
  have inside := List.mem_range'_1.mp (List.mem_of_find?_eq_some found)
  have fits := stands.length_le
  rw [List.length_drop] at fits
  exact ⟨inside.1, by omega, stands⟩

theorem isSome_find_iff (within : pos ≤ s.length) :
    (find s needle pos).isSome ↔ needle <:+: s.drop pos := by
  rw [find, List.find?_isSome]
  constructor
  · rintro ⟨i, range, stands⟩
    have inside := List.mem_range'_1.mp range
    have split : s.drop i = (s.drop pos).drop (i - pos) := by
      rw [List.drop_drop]
      congr 1
      omega
    rw [List.isPrefixOf_iff_prefix, split] at stands
    exact stands.isInfix.trans (List.drop_suffix _ _).isInfix
  · rintro ⟨before, after, split⟩
    refine ⟨pos + before.length, List.mem_range'_1.mpr ⟨Nat.le_add_right _ _, ?_⟩, ?_⟩
    · have lengths := congrArg List.length split
      simp only [List.length_append, List.length_drop] at lengths
      omega
    · rw [List.isPrefixOf_iff_prefix, ← List.drop_drop, ← split, List.append_assoc,
        List.drop_left]
      exact List.prefix_append _ _

end Substring

section Decimal

/-- The digits of a number are those of ASCII, so that each is one byte. -/
theorem byte_of_mem_toDigits {n : Nat} {c : Char} (member : c ∈ Nat.toDigits 10 n) :
    48 ≤ c.toNat ∧ c.toNat ≤ 57 ∧ c.val.toUInt8.toNat = c.toNat := by
  have digit := Nat.isDigit_of_mem_toDigits (by decide) (by decide) member
  simp only [Char.isDigit, Bool.and_eq_true, decide_eq_true_eq, UInt32.le_iff_toNat_le] at digit
  refine ⟨digit.1, digit.2, ?_⟩
  rw [UInt32.toNat_toUInt8]
  exact Nat.mod_eq_of_lt (Nat.lt_of_le_of_lt digit.2 (by decide))

theorem toStdString_eq_map (n : Nat) :
    toStdString n = (Nat.toDigits 10 n).map fun c => c.val.toUInt8 := by
  have single (digits : List Char) (ascii : ∀ c ∈ digits, c.toNat ≤ 57) :
      digits.flatMap String.utf8EncodeChar = digits.map fun c => c.val.toUInt8 := by
    induction digits with
    | nil => rfl
    | cons c digits ih =>
      obtain ⟨here, others⟩ := List.forall_mem_cons.mp ascii
      have size : c.utf8Size = 1 := by
        rw [Char.utf8Size, if_pos]
        exact UInt32.le_iff_toNat_le.mpr (Nat.le_trans here (by decide))
      rw [List.flatMap_cons, ih others, String.utf8EncodeChar_eq_singleton size]
      rfl
  rw [← single _ fun c member => (byte_of_mem_toDigits member).2.1]
  simp [toStdString, str, Nat.repr_eq_ofList_toDigits, List.utf8Encode]

theorem digit_of_mem_toStdString {n : Nat} {b : UInt8} (member : b ∈ toStdString n) :
    48 ≤ b ∧ b ≤ 57 := by
  rw [toStdString_eq_map] at member
  obtain ⟨c, isDigit, rfl⟩ := List.mem_map.mp member
  obtain ⟨low, high, byte⟩ := byte_of_mem_toDigits isDigit
  rw [UInt8.le_iff_toNat_le, UInt8.le_iff_toNat_le, byte]
  exact ⟨low, high⟩

theorem toStdString_length_le {n : Nat} (small : n < 2 ^ 64) : (toStdString n).length ≤ 20 := by
  rw [toStdString_eq_map, List.length_map, Nat.length_toDigits_le_iff (by decide) (by decide)]
  exact Nat.lt_trans small (by decide)

def number (text : Bytes) : Option Nat :=
  if text ≠ [] ∧ text.all (fun b => 48 ≤ b && b ≤ 57) then
    some (text.foldl (fun n b => 10 * n + (b.toNat - 48)) 0)
  else none

theorem number_toStdString (n : Nat) : number (toStdString n) = some n := by
  have digits : (toStdString n).all (fun b => 48 ≤ b && b ≤ 57) = true :=
    List.all_eq_true.mpr fun b member => by simpa using digit_of_mem_toStdString member
  rw [number, if_pos ⟨toStdString_ne_nil n, digits⟩, toStdString_eq_map, List.foldl_map]
  refine congrArg some (Eq.trans (List.foldl_ext _ _ 0 ?_) Nat.ofDigitChars_ten_toDigits)
  intro m c member
  rw [(byte_of_mem_toDigits member).2.2]
  rfl

end Decimal

end HzMq
