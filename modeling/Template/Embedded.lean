import Template.Text.Blank

set_option autoImplicit false

namespace Template

namespace Embedded

/-- Where the search for the end of a script stands. The depth counts the braces that are open
inside the script. -/
inductive State where
  | code (depth : Nat)
  /-- In a literal that ends at its quote. -/
  | literal (quote : Char) (depth : Nat)
  /-- After a backslash in a literal. -/
  | escaped (quote : Char) (depth : Nat)
deriving DecidableEq, Repr

def isQuote (char : Char) : Bool := char == '"' || char == '\'' || char == '\u0060'

/-- The state after one more character, or nothing if the script ends before it. -/
def State.next? : State → Char → Option State
  | code depth, char =>
    if char = '\x7b' then some (code (depth + 1))
    else if char = '\x7d' then
      match depth with
      | 0 => none
      | depth + 1 => some (code depth)
    else if isQuote char then some (literal char depth)
    else some (code depth)
  | literal quote depth, char =>
    if char = '\\' then some (escaped quote depth)
    else if char = quote then some (code depth)
    else some (literal quote depth)
  | escaped quote depth, _ => some (literal quote depth)

/-- The number of characters before the end of the script. A script whose end does not come takes
the whole text. -/
def runLength : State → Text → Nat
  | _, [] => 0
  | state, char :: rest =>
    match state.next? char with
    | none => 0
    | some state => runLength state rest + 1

def isSigil (char : Char) : Bool := char == '@' || char == ':' || char == '/' || char == '#'

def opens (char : Char) : Bool := !(isSigil char || Text.isPlainBlank char)

/-- The number of characters of the script at the start of a text, zero if there is none. -/
def length : Text → Nat
  | [] => 0
  | char :: rest => if opens char then runLength (.code 0) (char :: rest) else 0

end Embedded

end Template
