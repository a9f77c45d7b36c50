import Template.Json.Grammar
import Template.Machine

set_option autoImplicit false

namespace Template.Json

/-- The code that stands at the front of a text. -/
def code? : Text → Option (Nat × Text)
  | '\\' :: 'u' :: first :: second :: third :: fourth :: rest =>
    (codeUnit? first second third fourth).map (·, rest)
  | _ => none

/-- The character whose first code has been read. -/
def fromCode? (code : Nat) (rest : Text) : Option (Char × Text) :=
  if isLeading code then
    match code? rest with
    | some (trailing, rest) =>
      if isTrailing trailing then some (.ofNat (joinCodes code trailing), rest) else none
    | none => none
  else if isTrailing code then none
  else some (.ofNat code, rest)

/-- The character at the front of a text that is written without its code. -/
def plain? : Text → Option (Char × Text)
  | '\\' :: letter :: rest => (escaped? letter).map (·, rest)
  | char :: rest => if ' ' ≤ char ∧ char ≠ '"' ∧ char ≠ '\\' then some (char, rest) else none
  | [] => none

/-- The character of a string that is spelled at the front of a text. -/
def char? (text : Text) : Option (Char × Text) :=
  match code? text with
  | some (code, rest) => fromCode? code rest
  | none => plain? text

theorem code_of_code? {text rest : Text} {code : Nat} (read : code? text = some (code, rest)) :
    ∃ word, Code word code ∧ text = word ++ rest := by
  unfold code? at read
  split at read
  · obtain ⟨_, digits, same⟩ := Option.map_eq_some_iff.mp read
    cases same
    exact ⟨_, .mk digits, rfl⟩
  · cases read

theorem lt_of_hexValue? {digit : Char} {value : Nat} (known : hexValue? digit = some value) :
    value < 16 := by
  obtain ⟨within, -⟩ := List.idxOf?_eq_some_iff.mp known
  exact within

theorem Code.lt {word : Text} {code : Nat} (written : Code word code) : code < 0x10000 := by
  cases written with
  | mk digits =>
    simp only [codeUnit?, Option.pure_def, Option.bind_eq_bind, Option.bind_eq_some_iff,
      Option.some.injEq] at digits
    obtain ⟨high, first, upper, second, lower, third, low, fourth, rfl⟩ := digits
    have := lt_of_hexValue? first
    have := lt_of_hexValue? second
    have := lt_of_hexValue? third
    have := lt_of_hexValue? fourth
    omega

theorem toNat_ofNat {code : Nat} (valid : code.isValidChar) : (Char.ofNat code).toNat = code := by
  rw [Char.ofNat, dif_pos valid]
  rfl

theorem spells_of_fromCode? {code : Nat} {text rest : Text} {char : Char} {front : Text}
    (one : Code front code) (read : fromCode? code text = some (char, rest)) :
    ∃ word, Spells word char ∧ front ++ text = word ++ rest := by
  have small := one.lt
  unfold fromCode? at read
  split at read
  · next leads =>
    split at read
    · next trailing last second =>
      obtain ⟨back, other, rfl⟩ := code_of_code? second
      split at read
      · next trails =>
        obtain ⟨rfl, rfl⟩ := Prod.mk.inj (Option.some.inj read)
        refine ⟨front ++ back, .codes one other leads trails ?_, (List.append_assoc ..).symm⟩
        simp only [isLeading, isTrailing, Bool.and_eq_true, decide_eq_true_eq] at leads trails
        apply toNat_ofNat
        unfold joinCodes Nat.isValidChar
        omega
      · cases read
    · cases read
  · next leads =>
    split at read
    · cases read
    · next trails =>
      obtain ⟨rfl, rfl⟩ := Prod.mk.inj (Option.some.inj read)
      refine ⟨front, .code ?_, rfl⟩
      simp only [isLeading, isTrailing, Bool.and_eq_true, decide_eq_true_eq] at leads trails
      rwa [toNat_ofNat]
      unfold Nat.isValidChar
      omega

/-- What is read as a character spells it. -/
theorem spells_of_char? {text rest : Text} {char : Char} (read : char? text = some (char, rest)) :
    ∃ word, Spells word char ∧ text = word ++ rest := by
  unfold char? at read
  split at read
  · next code more first =>
    obtain ⟨front, one, rfl⟩ := code_of_code? first
    exact spells_of_fromCode? one read
  · unfold plain? at read
    split at read
    · obtain ⟨_, known, same⟩ := Option.map_eq_some_iff.mp read
      obtain ⟨rfl, rfl⟩ := Prod.mk.inj same
      exact ⟨_, .short known, rfl⟩
    · split at read
      · next plain =>
        obtain ⟨rfl, rfl⟩ := Prod.mk.inj (Option.some.inj read)
        exact ⟨_, .plain plain.1 plain.2.1 plain.2.2, rfl⟩
      · cases read
    · cases read

theorem Spells.ne_nil {word : Text} {char : Char} (spells : Spells word char) : word ≠ [] := by
  cases spells with
  | plain | short => exact List.cons_ne_nil _ _
  | code one => cases one; exact List.cons_ne_nil _ _
  | codes one => cases one; exact List.cons_ne_nil _ _

/-- Where reading a string stands: the text that is left and the characters read, the latest
first. -/
structure Spelling where
  rest : Text
  chars : Text
deriving Repr

def Spelling.machine : Machine Spelling where
  step spelling := (char? spelling.rest).map fun (char, rest) => ⟨rest, char :: spelling.chars⟩
  weight spelling := spelling.rest.length
  lighter := by
    intro before after taken
    obtain ⟨⟨char, rest⟩, read, rfl⟩ := Option.map_eq_some_iff.mp taken
    obtain ⟨word, spells, here⟩ := spells_of_char? read
    have positive := List.length_pos_iff.mpr spells.ne_nil
    show rest.length < before.rest.length
    rw [here, List.length_append]
    omega

/-- The string at the front of a text, after its first quote. -/
def body? (text : Text) : Option (Text × Text) :=
  match Spelling.machine.exhaust ⟨text, []⟩ with
  | ⟨'"' :: rest, chars⟩ => some (chars.reverse, rest)
  | _ => none

/-- What is read on the way spells what is added to the characters. -/
theorem Body.append_of_reaches {before after : Spelling}
    (reached : Spelling.machine.Reaches before after) {last chars : Text} {rest : Text}
    (body : Body last chars) (here : after.rest = last ++ rest) :
    ∃ word more, Body word (more ++ chars) ∧ before.rest = word ++ rest ∧
      after.chars = more.reverse ++ before.chars := by
  induction reached with
  | refl => exact ⟨last, [], body, here, rfl⟩
  | step taken _ ih =>
    obtain ⟨⟨char, left⟩, read, rfl⟩ := Option.map_eq_some_iff.mp taken
    obtain ⟨front, spells, split⟩ := spells_of_char? read
    obtain ⟨word, more, whole, onwards, same⟩ := ih here
    refine ⟨front ++ word, char :: more, .char spells whole, ?_, ?_⟩
    · rw [split, List.append_assoc]
      exact congrArg _ onwards
    · rw [same, List.reverse_cons, List.append_assoc]
      rfl

theorem body_of_body? {text rest chars : Text} (read : body? text = some (chars, rest)) :
    ∃ word, Body word chars ∧ text = word ++ rest := by
  have reached := Spelling.machine.reaches_exhaust ⟨text, []⟩
  unfold body? at read
  split at read
  · next rest' chars' stopped =>
    obtain ⟨rfl, rfl⟩ := Prod.mk.inj (Option.some.inj read)
    rw [stopped] at reached
    obtain ⟨word, more, body, here, same⟩ := Body.append_of_reaches reached .close rfl
    rw [List.append_nil] at body same
    refine ⟨word, ?_, here⟩
    rw [show chars' = more.reverse from same, List.reverse_reverse]
    exact body
  · cases read

/-- The number at the front of a text: as many digits as there are. -/
def number? (text : Text) : Option (Nat × Text) :=
  match text.takeWhile Char.isDigit with
  | [] => none
  | '0' :: _ :: _ => none
  | digits => some (Nat.ofDigitChars 10 digits 0, text.dropWhile Char.isDigit)

theorem numeral_of_number? {text rest : Text} {value : Nat}
    (read : number? text = some (value, rest)) :
    ∃ digits, Numeral digits value ∧ text = digits ++ rest := by
  have decimal : ∀ digit ∈ text.takeWhile Char.isDigit, digit.isDigit = true :=
    List.all_eq_true.mp List.all_takeWhile
  unfold number? at read
  split at read
  · cases read
  · cases read
  · next filled single =>
    obtain ⟨rfl, rfl⟩ := Prod.mk.inj (Option.some.inj read)
    refine ⟨_, ⟨filled, decimal, fun zero => ?_, rfl⟩, (List.takeWhile_append_dropWhile).symm⟩
    obtain ⟨more, same⟩ := List.head?_eq_some_iff.mp zero
    cases more with
    | nil => exact same
    | cons digit more => exact (single _ _ same).elim

/-- The value at the front of a text, if it is one in which no others stand. -/
def scalar? : Text → Option (Json × Text)
  | 'n' :: 'u' :: 'l' :: 'l' :: rest => some (.null, rest)
  | 't' :: 'r' :: 'u' :: 'e' :: rest => some (.bool true, rest)
  | 'f' :: 'a' :: 'l' :: 's' :: 'e' :: rest => some (.bool false, rest)
  | '"' :: rest => (body? rest).map fun (value, rest) => (.string value, rest)
  | text => (number? text).map fun (value, rest) => (.number value, rest)

theorem scalar_of_scalar? {text rest : Text} {value : Json}
    (read : scalar? text = some (value, rest)) :
    ∃ word, Scalar word value ∧ text = word ++ rest := by
  unfold scalar? at read
  split at read
  · cases read
    exact ⟨_, .null, rfl⟩
  · cases read
    exact ⟨_, .true, rfl⟩
  · cases read
    exact ⟨_, .false, rfl⟩
  · obtain ⟨⟨chars, left⟩, quoted, same⟩ := Option.map_eq_some_iff.mp read
    cases same
    obtain ⟨word, body, rfl⟩ := body_of_body? quoted
    exact ⟨_, .string body, rfl⟩
  · obtain ⟨⟨number, left⟩, digits, same⟩ := Option.map_eq_some_iff.mp read
    cases same
    obtain ⟨word, numeral, rfl⟩ := numeral_of_number? digits
    exact ⟨_, .number numeral, rfl⟩

def skipBlanks (text : Text) : Text := text.dropWhile isBlank

theorem blanks_append (text : Text) : ∃ blanks, Blank blanks ∧ text = blanks ++ skipBlanks text :=
  ⟨text.takeWhile isBlank, List.all_eq_true.mp List.all_takeWhile,
    List.takeWhile_append_dropWhile.symm⟩

/-- The name of a field at the front of a text, with its colon. -/
def name? (text : Text) : Option (Text × Text) :=
  match skipBlanks text with
  | '"' :: rest =>
    match body? rest with
    | some (name, rest) =>
      match skipBlanks rest with
      | ':' :: rest => some (name, rest)
      | _ => none
    | none => none
  | _ => none

theorem named_of_name? {text rest name : Text} (read : name? text = some (name, rest)) :
    ∃ word, Named word name ∧ text = word ++ rest := by
  obtain ⟨front, before, split⟩ := blanks_append text
  unfold name? at read
  split at read
  · next more opened =>
    split at read
    · next name' more' quoted =>
      obtain ⟨word, body, rfl⟩ := body_of_body? quoted
      obtain ⟨back, after, here⟩ := blanks_append more'
      split at read
      · next colon =>
        obtain ⟨rfl, rfl⟩ := Prod.mk.inj (Option.some.inj read)
        refine ⟨_, .mk before body after, ?_⟩
        rw [split, opened, here, colon]
        simp only [List.append_assoc, List.cons_append, List.nil_append]
      · cases read
    · cases read
  · cases read

/-- What is open around a place, with what has been read of it, the latest first. -/
inductive Frame where
  | array (items : List Json)
  /-- An object with the name of the field whose value comes. -/
  | object (fields : List (Text × Json)) (name : Text)

/-- Where reading stands: at a value that comes, or right after one. -/
structure Reader where
  rest : Text
  /-- The innermost first. -/
  frames : List Frame
  /-- The value that has just been read, if one has. -/
  value : Option Json

namespace Reader

/-- Reads a value, or the beginning of one. There are no blanks before it. -/
def open? (frames : List Frame) : Text → Option Reader
  | '[' :: rest =>
    match skipBlanks rest with
    | ']' :: rest => some ⟨rest, frames, some (.array [])⟩
    | _ => some ⟨rest, .array [] :: frames, none⟩
  | '\x7b' :: rest =>
    match skipBlanks rest with
    | '\x7d' :: rest => some ⟨rest, frames, some (.object [])⟩
    | _ => (name? rest).map fun (name, rest) => ⟨rest, .object [] name :: frames, none⟩
  | text => (scalar? text).map fun (value, rest) => ⟨rest, frames, some value⟩

/-- Reads what comes after a value: the end of what it stands in, or what leads to the next one. -/
def close? (value : Json) : List Frame → Text → Option Reader
  | .array items :: below, ',' :: rest => some ⟨rest, .array (value :: items) :: below, none⟩
  | .array items :: below, ']' :: rest =>
    some ⟨rest, below, some (.array (value :: items).reverse)⟩
  | .object fields name :: below, ',' :: rest =>
    (name? rest).map fun (next, rest) =>
      ⟨rest, .object ((name, value) :: fields) next :: below, none⟩
  | .object fields name :: below, '\x7d' :: rest =>
    some ⟨rest, below, some (.object ((name, value) :: fields).reverse)⟩
  | _, _ => none

def step (reader : Reader) : Option Reader :=
  match reader.value with
  | none => open? reader.frames (skipBlanks reader.rest)
  | some value => close? value reader.frames (skipBlanks reader.rest)

end Reader

/-- What a step reads, and where it leads. -/
inductive Move : List Frame → Option Json → Text → List Frame → Option Json → Prop where
  | scalar {frames : List Frame} {front word : Text} {value : Json} (blank : Blank front)
      (scalar : Scalar word value) : Move frames none (front ++ word) frames (some value)
  | noItems {frames : List Frame} {front inner : Text} (blank : Blank front)
      (inside : Blank inner) :
      Move frames none (front ++ '[' :: (inner ++ [']'])) frames (some (.array []))
  | openArray {frames : List Frame} {front : Text} (blank : Blank front) :
      Move frames none (front ++ ['[']) (.array [] :: frames) none
  | noFields {frames : List Frame} {front inner : Text} (blank : Blank front)
      (inside : Blank inner) :
      Move frames none (front ++ '\x7b' :: (inner ++ ['\x7d'])) frames (some (.object []))
  | openObject {frames : List Frame} {front named name : Text} (blank : Blank front)
      (called : Named named name) :
      Move frames none (front ++ '\x7b' :: named) (.object [] name :: frames) none
  | nextItem {below : List Frame} {items : List Json} {back : Text} {value : Json}
      (blank : Blank back) :
      Move (.array items :: below) (some value) (back ++ [','])
        (.array (value :: items) :: below) none
  | closeArray {below : List Frame} {items : List Json} {back : Text} {value : Json}
      (blank : Blank back) :
      Move (.array items :: below) (some value) (back ++ [']']) below
        (some (.array (value :: items).reverse))
  | nextField {below : List Frame} {fields : List (Text × Json)} {back named name next : Text}
      {value : Json} (blank : Blank back) (called : Named named next) :
      Move (.object fields name :: below) (some value) (back ++ ',' :: named)
        (.object ((name, value) :: fields) next :: below) none
  | closeObject {below : List Frame} {fields : List (Text × Json)} {back name : Text}
      {value : Json} (blank : Blank back) :
      Move (.object fields name :: below) (some value) (back ++ ['\x7d']) below
        (some (.object ((name, value) :: fields).reverse))

namespace Reader

theorem move_of_open? {frames : List Frame} {text front : Text} {after : Reader}
    (blank : Blank front) (taken : open? frames text = some after) :
    ∃ word, Move frames none word after.frames after.value ∧
      front ++ text = word ++ after.rest := by
  unfold open? at taken
  split at taken
  · next rest =>
    obtain ⟨inner, inside, split⟩ := blanks_append rest
    split at taken
    · next rest' closed =>
      cases taken
      refine ⟨_, .noItems blank inside, ?_⟩
      rw [split, closed]
      simp only [List.append_assoc, List.cons_append, List.nil_append]
    · cases taken
      exact ⟨_, .openArray blank, List.append_cons ..⟩
  · next rest =>
    obtain ⟨inner, inside, split⟩ := blanks_append rest
    split at taken
    · next rest' closed =>
      cases taken
      refine ⟨_, .noFields blank inside, ?_⟩
      rw [split, closed]
      simp only [List.append_assoc, List.cons_append, List.nil_append]
    · obtain ⟨⟨name, left⟩, read, rfl⟩ := Option.map_eq_some_iff.mp taken
      obtain ⟨word, called, rfl⟩ := named_of_name? read
      exact ⟨_, .openObject blank called, by rw [List.append_assoc, List.cons_append]⟩
  · obtain ⟨⟨value, left⟩, read, rfl⟩ := Option.map_eq_some_iff.mp taken
    obtain ⟨word, scalar, rfl⟩ := scalar_of_scalar? read
    exact ⟨_, .scalar blank scalar, (List.append_assoc ..).symm⟩

theorem move_of_close? {frames : List Frame} {text back : Text} {value : Json} {after : Reader}
    (blank : Blank back) (taken : close? value frames text = some after) :
    ∃ word, Move frames (some value) word after.frames after.value ∧
      back ++ text = word ++ after.rest := by
  unfold close? at taken
  split at taken
  · cases taken
    exact ⟨_, .nextItem blank, List.append_cons ..⟩
  · cases taken
    exact ⟨_, .closeArray blank, List.append_cons ..⟩
  · obtain ⟨⟨name, left⟩, read, rfl⟩ := Option.map_eq_some_iff.mp taken
    obtain ⟨word, called, rfl⟩ := named_of_name? read
    exact ⟨_, .nextField blank called, by rw [List.append_assoc, List.cons_append]⟩
  · cases taken
    exact ⟨_, .closeObject blank, List.append_cons ..⟩
  · cases taken

theorem move_of_step {before after : Reader} (taken : before.step = some after) :
    ∃ word, Move before.frames before.value word after.frames after.value ∧
      before.rest = word ++ after.rest := by
  obtain ⟨blanks, blank, split⟩ := blanks_append before.rest
  rw [split]
  unfold step at taken
  split at taken
  · next none =>
    rw [none]
    exact move_of_open? blank taken
  · next value some =>
    rw [some]
    exact move_of_close? blank taken

end Reader

theorem Scalar.ne_nil {word : Text} {value : Json} (scalar : Scalar word value) : word ≠ [] := by
  cases scalar with
  | number numeral => exact numeral.filled
  | _ => exact List.cons_ne_nil _ _

theorem Move.ne_nil {before after : List Frame} {value next : Option Json} {word : Text}
    (move : Move before value word after next) : word ≠ [] := by
  cases move with
  | scalar _ scalar => exact List.append_ne_nil_of_right_ne_nil _ scalar.ne_nil
  | _ => exact List.append_ne_nil_of_right_ne_nil _ (List.cons_ne_nil _ _)

def Reader.machine : Machine Reader where
  step := step
  weight reader := reader.rest.length
  lighter := by
    intro before after taken
    obtain ⟨word, move, split⟩ := move_of_step taken
    have positive := List.length_pos_iff.mpr move.ne_nil
    rw [split, List.length_append]
    omega

/-- The value of a text, if it is a JSON text. -/
def read? (text : Text) : Option Json :=
  match Reader.machine.exhaust ⟨text, [], none⟩ with
  | ⟨rest, [], some value⟩ => if skipBlanks rest = [] then some value else none
  | _ => none

end Template.Json
