set_option autoImplicit false

namespace Template

/-- A text: the characters of a source or of a part of it. -/
abbrev Text := List Char

namespace Text

/-- The number of bytes of the UTF-8 form. -/
def size (text : Text) : Nat := text.foldr (fun char bytes => char.utf8Size + bytes) 0

@[simp] theorem size_nil : size [] = 0 := rfl

@[simp] theorem size_cons (char : Char) (rest : Text) :
    size (char :: rest) = char.utf8Size + size rest := rfl

@[simp] theorem size_append (front back : Text) :
    size (front ++ back) = size front + size back := by
  induction front with
  | nil => exact (Nat.zero_add _).symm
  | cons char rest ih => rw [List.cons_append, size_cons, size_cons, ih, Nat.add_assoc]

/-- Cuts a text after its first `bytes` bytes, if that is where a character begins or the text
ends. -/
def cut? : Nat → Text → Option (Text × Text)
  | 0, text => some ([], text)
  | _ + 1, [] => none
  | bytes + 1, char :: rest =>
    if char.utf8Size ≤ bytes + 1 then
      (cut? (bytes + 1 - char.utf8Size) rest).map fun (front, back) => (char :: front, back)
    else none

/-- The part of a text from one byte offset up to another, if both lie between characters and in
this order. -/
def slice? (text : Text) (first last : Nat) : Option Text :=
  if first ≤ last then
    (cut? first text).bind fun (_, back) => (cut? (last - first) back).map Prod.fst
  else none

/-- Between two characters a text can always be cut. -/
theorem cut?_append (front back : Text) : cut? front.size (front ++ back) = some (front, back) := by
  induction front with
  | nil => exact cut?.eq_1 back
  | cons char rest ih =>
    have positive := char.utf8Size_pos
    obtain ⟨bytes, total⟩ : ∃ bytes, size (char :: rest) = bytes + 1 :=
      ⟨size (char :: rest) - 1, by rw [size_cons]; omega⟩
    have remaining : bytes + 1 - char.utf8Size = size rest := by
      rw [size_cons] at total
      omega
    have fits : char.utf8Size ≤ bytes + 1 := by
      rw [size_cons] at total
      omega
    rw [total, List.cons_append, cut?, remaining, ih]
    simp only [fits, ↓reduceIte, Option.map_some]

/-- The part between two places of a text. -/
theorem slice?_append (front part back : Text) :
    slice? (front ++ part ++ back) front.size (front.size + part.size) = some part := by
  have ordered : front.size ≤ front.size + part.size := Nat.le_add_right _ _
  simp only [slice?, ordered, ↓reduceIte, List.append_assoc, cut?_append, Option.bind_some,
    Nat.add_sub_cancel_left, Option.map_some]

/-- The text with the letters from A to Z made small; all other characters stay. -/
def lower (text : Text) : Text := text.map Char.toLower

/-- The part before the first colon and the part after it, if there is a colon. -/
def splitColon? : Text → Option (Text × Text)
  | [] => none
  | char :: rest =>
    if char = ':' then some ([], rest)
    else (splitColon? rest).map fun (front, back) => (char :: front, back)

/-- The text without the given beginning, or all of it if it begins otherwise. -/
def dropStart (start text : Text) : Text :=
  if start.isPrefixOf text then text.drop start.length else text

/-- The text without the given ending, or all of it if it ends otherwise. -/
def dropFinish (finish text : Text) : Text :=
  if finish.isSuffixOf text then text.take (text.length - finish.length) else text

end Text

end Template
