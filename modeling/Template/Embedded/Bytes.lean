import Template.Embedded

set_option autoImplicit false

namespace Template

def Text.bytes (text : Text) : List UInt8 := text.flatMap String.utf8EncodeChar

namespace Embedded

def byte (char : Char) : UInt8 := char.toUInt8

def isQuoteByte (code : UInt8) : Bool :=
  code == byte '"' || code == byte '\'' || code == byte '\u0060'

/-- The bytes a script cannot begin with: those of the sigils and of the plain blanks. -/
def isBarredByte (code : UInt8) : Bool :=
  code == byte '@' || code == byte ':' || code == byte '/' || code == byte '#' ||
    code == byte ' ' || code == byte '\t' || code == byte '\n' || code == byte '\x0c' ||
    code == byte '\r'

/-- What follows a literal, given what follows its opening quote. Nothing follows a literal that
does not end. -/
def afterLiteral (quote : UInt8) : List UInt8 → List UInt8
  | [] => []
  | [_] => []
  | code :: next :: rest =>
    if code = byte '\\' then afterLiteral quote rest
    else if code = quote then next :: rest
    else afterLiteral quote (next :: rest)

theorem length_afterLiteral_le (quote : UInt8) (codes : List UInt8) :
    (afterLiteral quote codes).length ≤ codes.length := by
  fun_induction afterLiteral quote codes with
  | case1 => exact Nat.le_refl _
  | case2 => exact Nat.zero_le _
  | case3 next rest ih => simp only [List.length_cons]; omega
  | case4 => simp only [List.length_cons]; omega
  | case5 code next rest _ _ ih => simp only [List.length_cons] at ih ⊢; omega

/-- What follows a script whose rest is given together with the number of braces that are open. -/
def afterCode : Nat → List UInt8 → List UInt8
  | _, [] => []
  | depth, code :: rest =>
    if code = byte '\x7b' then afterCode (depth + 1) rest
    else if code = byte '\x7d' then
      match depth with
      | 0 => code :: rest
      | depth + 1 => afterCode depth rest
    else if isQuoteByte code then afterCode depth (afterLiteral code rest)
    else afterCode depth rest
termination_by _ codes => codes.length
decreasing_by
  all_goals simp only [List.length_cons]
  all_goals first
    | omega
    | exact Nat.lt_succ_of_le (length_afterLiteral_le _ _)

/-- The offset at which the script that starts at a given offset ends, if there is a script. -/
def end? (codes : List UInt8) (start : Nat) : Option Nat :=
  match codes.drop start with
  | [] => none
  | code :: rest =>
    if isBarredByte code then none
    else
      let finish := codes.length - (afterCode 0 (code :: rest)).length
      if start < finish then some finish else none

def endIn? (text : Text) (start : Nat) : Option Nat := end? text.bytes start

end Embedded

end Template
