import Mathlib.Data.List.Basic

/-!
# Texts with a head and flat objects

A head of lines, an empty line, and a body: a line ends with two given characters in
this order. A flat object is a list of fields, each a name and a value. What is written
in these forms is read back when the marks of the form are not part of the pieces.
-/

universe u

namespace HeadedText

variable {α : Type u} [DecidableEq α] (cr lf : α)

def readLine : List α → Option (List α × List α)
  | [] => none
  | a :: rest =>
    if a = cr ∧ rest.head? = some lf then some ([], rest.tail)
    else (readLine rest).map fun (line, rest) => (a :: line, rest)

def readHead : Nat → List α → Option (List (List α) × List α)
  | 0, _ => none
  | fuel + 1, text =>
    match readLine cr lf text with
    | none => none
    | some ([], body) => some ([], body)
    | some (line, rest) => (readHead fuel rest).map fun (lines, body) => (line :: lines, body)

def read (text : List α) : Option (List (List α) × List α) := readHead cr lf text.length text

def render (lines : List (List α)) (body : List α) : List α :=
  lines.flatMap (fun line => line ++ [cr, lf]) ++ [cr, lf] ++ body

variable {cr lf} {line rest body : List α} {lines : List (List α)}

theorem readLine_append (fresh : cr ∉ line) :
    readLine cr lf (line ++ cr :: lf :: rest) = some (line, rest) := by
  induction line with
  | nil => simp [readLine]
  | cons a line ih =>
    obtain ⟨other, later⟩ := not_or.mp (List.mem_cons.not.mp fresh)
    rw [List.cons_append, readLine, if_neg fun both => other both.1.symm, ih later]
    rfl

theorem readHead_render (full : ∀ line ∈ lines, line ≠ [] ∧ cr ∉ line) {fuel : Nat}
    (enough : lines.length < fuel) :
    readHead cr lf fuel (render cr lf lines body) = some (lines, body) := by
  induction lines generalizing fuel with
  | nil =>
    obtain ⟨fuel, rfl⟩ := Nat.exists_eq_add_of_lt enough
    simp [render, readHead, readLine]
  | cons line lines ih =>
    obtain ⟨fuel, rfl⟩ := Nat.exists_eq_add_of_lt enough
    obtain ⟨⟨nonempty, fresh⟩, others⟩ := List.forall_mem_cons.mp full
    have split : render cr lf (line :: lines) body =
        line ++ cr :: lf :: render cr lf lines body := by
      simp [render]
    have next : readHead cr lf ((line :: lines).length + fuel) (render cr lf lines body) =
        some (lines, body) := ih others (by rw [List.length_cons]; omega)
    obtain ⟨a, line, rfl⟩ := List.exists_cons_of_ne_nil nonempty
    rw [readHead, split, readLine_append fresh]
    simp only [next, Option.map_some]

/-- Head and body are read back as they were written. -/
theorem read_render (full : ∀ line ∈ lines, line ≠ [] ∧ cr ∉ line) :
    read cr lf (render cr lf lines body) = some (lines, body) := by
  refine readHead_render full ?_
  have longer : lines.length ≤ (lines.flatMap fun line => line ++ [cr, lf]).length := by
    induction lines with
    | nil => exact Nat.le_refl _
    | cons line lines ih =>
      have others := ih (List.forall_mem_cons.mp full).2
      simp only [List.flatMap_cons, List.length_append, List.length_cons, List.length_nil]
      omega
  simp only [render, List.length_append, List.length_cons, List.length_nil]
  omega

end HeadedText

namespace FlatObject

variable {α : Type u} [DecidableEq α] (first last comma colon : α)

def renderField (field : List α × List α) : List α := field.1 ++ colon :: field.2

def render (fields : List (List α × List α)) : List α :=
  first :: ([comma].intercalate (fields.map (renderField colon)) ++ [last])

def readField (text : List α) : Option (List α × List α) :=
  match text.splitOn colon with
  | [name, value] => some (name, value)
  | _ => none

def read : List α → Option (List (List α × List α))
  | [] => none
  | a :: rest =>
    if a = first ∧ rest.getLast? = some last then
      (rest.dropLast.splitOn comma).mapM (readField colon)
    else none

variable {first last comma colon} {fields : List (List α × List α)}

theorem readField_render {field : List α × List α} (fresh : colon ∉ field.1)
    (fresh' : colon ∉ field.2) : readField colon (renderField colon field) = some field := by
  rw [readField, renderField, List.splitOn_append_cons_self_of_not_mem fresh,
    List.splitOn_eq_singleton fresh']

/-- The fields are read back in their order. -/
theorem read_render (differ : comma ≠ colon) (some' : fields ≠ [])
    (plain : ∀ field ∈ fields, ∀ mark, mark = comma ∨ mark = colon →
      mark ∉ field.1 ∧ mark ∉ field.2) :
    read first last comma colon (render first last comma colon fields) = some fields := by
  have fresh : ∀ field ∈ fields, comma ∉ renderField colon field := by
    intro field member
    obtain ⟨inName, inValue⟩ := plain field member comma (Or.inl rfl)
    simp [renderField, inName, inValue, differ]
  have pieces : ([comma].intercalate (fields.map (renderField colon))).splitOn comma =
      fields.map (renderField colon) :=
    List.splitOn_intercalate comma (List.forall_mem_map.mpr fresh) (by simpa using some')
  rw [render, read, if_pos ⟨rfl, List.getLast?_concat⟩, List.dropLast_concat, pieces]
  clear pieces fresh some'
  induction fields with
  | nil => rfl
  | cons field fields ih =>
    obtain ⟨here, others⟩ := List.forall_mem_cons.mp plain
    obtain ⟨name, value⟩ := here colon (Or.inr rfl)
    simp [List.mapM_cons, readField_render name value, ih others]

end FlatObject
