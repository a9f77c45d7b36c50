import Template.Json

set_option autoImplicit false

namespace Template.Json

def isBlank (char : Char) : Bool := char == ' ' || char == '\t' || char == '\n' || char == '\r'

def Blank (text : Text) : Prop := ∀ char ∈ text, isBlank char = true

/-- The character that a letter after a backslash stands for. -/
def escaped? : Char → Option Char
  | '"' => some '"'
  | '\\' => some '\\'
  | '/' => some '/'
  | 'b' => some '\x08'
  | 'f' => some '\x0c'
  | 'n' => some '\n'
  | 'r' => some '\r'
  | 't' => some '\t'
  | _ => none

def hexDigits : Text := "0123456789abcdef".toList

/-- The value of a hexadecimal digit, in small or in capital letters. -/
def hexValue? (digit : Char) : Option Nat := hexDigits.idxOf? digit.toLower

def codeUnit? (first second third fourth : Char) : Option Nat := do
  let high ← hexValue? first
  let upper ← hexValue? second
  let lower ← hexValue? third
  let low ← hexValue? fourth
  return ((high * 16 + upper) * 16 + lower) * 16 + low

/-- Whether a code can be the first of the two codes of one character. -/
def isLeading (code : Nat) : Bool := 0xd800 ≤ code && code < 0xdc00

/-- Whether a code can be the second of the two codes of one character. -/
def isTrailing (code : Nat) : Bool := 0xdc00 ≤ code && code < 0xe000

/-- The number of the character that two codes form. -/
def joinCodes (leading trailing : Nat) : Nat :=
  0x10000 + (leading - 0xd800) * 0x400 + (trailing - 0xdc00)

/-- A text of one code. -/
inductive Code : Text → Nat → Prop where
  | mk {first second third fourth : Char} {code : Nat}
      (digits : codeUnit? first second third fourth = some code) :
      Code ['\\', 'u', first, second, third, fourth] code

/-- The ways in which a character is written in a string. -/
inductive Spells : Text → Char → Prop where
  | plain {char : Char} (visible : ' ' ≤ char) (notQuote : char ≠ '"') (notEscape : char ≠ '\\') :
      Spells [char] char
  | short {letter char : Char} (known : escaped? letter = some char) : Spells ['\\', letter] char
  | code {word : Text} {char : Char} (one : Code word char.toNat) : Spells word char
  | codes {front back : Text} {char : Char} {leading trailing : Nat} (first : Code front leading)
      (second : Code back trailing) (leads : isLeading leading = true)
      (trails : isTrailing trailing = true) (together : char.toNat = joinCodes leading trailing) :
      Spells (front ++ back) char

inductive Body : Text → Text → Prop where
  | close : Body ['"'] []
  | char {word rest chars : Text} {char : Char} (spells : Spells word char)
      (further : Body rest chars) : Body (word ++ rest) (char :: chars)

/-- The digits of a number. No zero comes before another digit. -/
structure Numeral (digits : Text) (value : Nat) : Prop where
  filled : digits ≠ []
  decimal : ∀ digit ∈ digits, digit.isDigit = true
  leading : digits.head? = some '0' → digits = ['0']
  value_eq : Nat.ofDigitChars 10 digits 0 = value

/-- The values in which no others stand. -/
inductive Scalar : Text → Json → Prop where
  | null : Scalar ['n', 'u', 'l', 'l'] .null
  | true : Scalar ['t', 'r', 'u', 'e'] (.bool .true)
  | false : Scalar ['f', 'a', 'l', 's', 'e'] (.bool .false)
  | number {digits : Text} {value : Nat} (numeral : Numeral digits value) :
      Scalar digits (.number value)
  | string {word value : Text} (body : Body word value) : Scalar ('"' :: word) (.string value)

/-- The name of a field and the colon after it. -/
inductive Named : Text → Text → Prop where
  | mk {front word back name : Text} (before : Blank front) (body : Body word name)
      (after : Blank back) : Named (front ++ '"' :: (word ++ (back ++ [':']))) name

mutual

inductive Denotes : Text → Json → Prop where
  | scalar {word : Text} {value : Json} (scalar : Scalar word value) : Denotes word value
  | noItems {inner : Text} (blank : Blank inner) : Denotes ('[' :: (inner ++ [']'])) (.array [])
  | array {front word rest : Text} {item : Json} {items : List Json} (blank : Blank front)
      (first : Denotes word item) (others : Items rest items) :
      Denotes ('[' :: (front ++ (word ++ rest))) (.array (item :: items))
  | noFields {inner : Text} (blank : Blank inner) :
      Denotes ('\x7b' :: (inner ++ ['\x7d'])) (.object [])
  | object {named front word rest name : Text} {value : Json} {fields : List (Text × Json)}
      (called : Named named name) (blank : Blank front) (first : Denotes word value)
      (others : Fields rest fields) :
      Denotes ('\x7b' :: (named ++ (front ++ (word ++ rest)))) (.object ((name, value) :: fields))

/-- The items after the first, and the end of the array. -/
inductive Items : Text → List Json → Prop where
  | close {back : Text} (blank : Blank back) : Items (back ++ [']']) []
  | more {back front word rest : Text} {item : Json} {items : List Json} (before : Blank back)
      (blank : Blank front) (next : Denotes word item) (others : Items rest items) :
      Items (back ++ ',' :: (front ++ (word ++ rest))) (item :: items)

/-- The fields after the first, and the end of the object. -/
inductive Fields : Text → List (Text × Json) → Prop where
  | close {back : Text} (blank : Blank back) : Fields (back ++ ['\x7d']) []
  | more {back named front word rest name : Text} {value : Json} {fields : List (Text × Json)}
      (before : Blank back) (called : Named named name) (blank : Blank front)
      (next : Denotes word value) (others : Fields rest fields) :
      Fields (back ++ ',' :: (named ++ (front ++ (word ++ rest)))) ((name, value) :: fields)

end

/-- A whole text: a value with blanks around it. -/
inductive Denoted : Text → Json → Prop where
  | mk {front word back : Text} {value : Json} (before : Blank front) (denotes : Denotes word value)
      (after : Blank back) : Denoted (front ++ (word ++ back)) value

end Template.Json
