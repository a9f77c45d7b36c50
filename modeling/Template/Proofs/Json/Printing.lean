import Template.Json.Grammar
import Template.Json.Printer

set_option autoImplicit false

namespace Template.Json

theorem hexValue?_hexDigit (value : Nat) : hexValue? (hexDigit value) = some (value % 16) := by
  have digits : ∀ digit < 16, hexValue? (Nat.digitChar digit) = some digit := by decide
  exact digits _ (Nat.mod_lt _ (by decide))

theorem spells_escape (char : Char) : Spells (escape char) char := by
  unfold escape
  -- Seven characters have a letter of their own.
  iterate 7
    split
    · next same =>
      subst same
      exact .short rfl
  split
  · next control =>
    have zero : hexValue? '0' = some 0 := by decide
    apply Spells.code
    apply Code.mk
    simp only [codeUnit?, zero, hexValue?_hexDigit, Option.pure_def, Option.bind_eq_bind,
      Option.bind_some, Option.some.injEq]
    omega
  · next notQuote notEscape _ _ _ _ _ visible =>
    exact .plain (Nat.le_of_not_lt visible) notQuote notEscape

theorem body_flatMap_escape (text : Text) : Body (text.flatMap escape ++ ['"']) text := by
  induction text with
  | nil => exact .close
  | cons char rest ih =>
    rw [List.flatMap_cons, List.append_assoc]
    exact .char (spells_escape char) ih

/-- The digits of a positive number do not begin with a zero. -/
theorem head?_toDigits_ne {value : Nat} (positive : 0 < value) :
    (Nat.toDigits 10 value).head? ≠ some '0' := by
  induction value using Nat.strongRecOn with
  | _ value ih =>
    by_cases small : value < 10
    · have digits : ∀ digit < 10, 0 < digit → (Nat.toDigits 10 digit).head? ≠ some '0' := by
        decide
      exact digits value small positive
    · have large : 10 ≤ value := by omega
      rw [Nat.toDigits_of_base_le (by decide) large, List.head?_append,
        List.head?_eq_some_head Nat.toDigits_ne_nil, Option.some_or,
        ← List.head?_eq_some_head Nat.toDigits_ne_nil]
      exact ih (value / 10) (by omega) (by omega)

theorem numeral_toDigits (value : Nat) : Numeral (Nat.toDigits 10 value) value where
  filled := Nat.toDigits_ne_nil
  decimal _ member := Nat.isDigit_of_mem_toDigits (by decide) (by decide) member
  leading zero := by
    rcases Nat.eq_zero_or_pos value with rfl | positive
    · rfl
    · exact absurd zero (head?_toDigits_ne positive)
  value_eq := Nat.ofDigitChars_ten_toDigits

theorem scalar_quote (text : Text) : Scalar (quote text) (.string text) :=
  .string (body_flatMap_escape text)

theorem blank_nil : Blank [] := List.forall_mem_nil _

theorem blank_space : Blank [' '] := List.forall_mem_singleton.mpr rfl

theorem blank_newline (level : Nat) : Blank (newline level) := by
  intro char member
  rcases List.mem_cons.mp member with rfl | spaces
  · rfl
  · rw [List.eq_of_mem_replicate spaces]
    rfl

theorem named_quote {front : Text} (blank : Blank front) (name : Text) :
    Named (front ++ quote name ++ [':']) name := by
  have named := Named.mk blank (body_flatMap_escape name) blank_nil
  simpa only [quote, List.append_assoc, List.cons_append, List.nil_append] using named

mutual

/-- A value on one line is a text of it. -/
theorem denotes_compact : ∀ value : Json, Denotes value.compact value
  | .null => .scalar .null
  | .bool true => .scalar .true
  | .bool false => .scalar .false
  | .number value => .scalar (.number (numeral_toDigits value))
  | .string text => .scalar (scalar_quote text)
  | .array [] => .noItems blank_nil
  | .array (item :: rest) => .array blank_nil (denotes_compact item) (items_compact rest)
  | .object [] => .noFields blank_nil
  | .object ((name, value) :: rest) => by
    have object := Denotes.object (named_quote blank_nil name) blank_nil (denotes_compact value)
      (fields_compact rest)
    simpa only [compact, List.append_assoc, List.cons_append, List.nil_append] using object

theorem items_compact : ∀ items : List Json, Items (compactItems items) items
  | [] => .close blank_nil
  | item :: rest => .more blank_nil blank_nil (denotes_compact item) (items_compact rest)

theorem fields_compact : ∀ fields : List (Text × Json), Fields (compactFields fields) fields
  | [] => .close blank_nil
  | (name, value) :: rest => by
    have fields := Fields.more blank_nil (named_quote blank_nil name) blank_nil
      (denotes_compact value) (fields_compact rest)
    simpa only [compactFields, List.append_assoc, List.cons_append, List.nil_append] using fields

end

mutual

/-- A value with a line for each item or field is a text of it, at every level. -/
theorem denotes_pretty (level : Nat) : ∀ value : Json, Denotes (value.pretty level) value
  | .null => .scalar .null
  | .bool true => .scalar .true
  | .bool false => .scalar .false
  | .number value => .scalar (.number (numeral_toDigits value))
  | .string text => .scalar (scalar_quote text)
  | .array [] => .noItems blank_nil
  | .array (item :: rest) => by
    have array := Denotes.array (blank_newline (level + 1)) (denotes_pretty (level + 1) item)
      (items_pretty level rest)
    simpa only [pretty, List.append_assoc, List.cons_append] using array
  | .object [] => .noFields blank_nil
  | .object ((name, value) :: rest) => by
    have object := Denotes.object (named_quote (blank_newline (level + 1)) name) blank_space
      (denotes_pretty (level + 1) value) (fields_pretty level rest)
    simpa only [pretty, List.append_assoc, List.cons_append, List.nil_append] using object

theorem items_pretty (level : Nat) :
    ∀ items : List Json, Items (prettyItems level items) items
  | [] => .close (blank_newline level)
  | item :: rest => by
    have items := Items.more blank_nil (blank_newline (level + 1))
      (denotes_pretty (level + 1) item) (items_pretty level rest)
    simpa only [prettyItems, List.append_assoc, List.cons_append, List.nil_append] using items

theorem fields_pretty (level : Nat) :
    ∀ fields : List (Text × Json), Fields (prettyFields level fields) fields
  | [] => .close (blank_newline level)
  | (name, value) :: rest => by
    have fields := Fields.more blank_nil (named_quote (blank_newline (level + 1)) name)
      blank_space (denotes_pretty (level + 1) value) (fields_pretty level rest)
    simpa only [prettyFields, List.append_assoc, List.cons_append, List.nil_append] using fields

end

end Template.Json
