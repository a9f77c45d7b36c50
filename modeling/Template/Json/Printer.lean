import Template.Json

set_option autoImplicit false

namespace Template.Json

def hexDigit (value : Nat) : Char := Nat.digitChar (value % 16)

/-- A character as it stands in a string. -/
def escape (char : Char) : Text :=
  if char = '"' then ['\\', '"']
  else if char = '\\' then ['\\', '\\']
  else if char = '\x08' then ['\\', 'b']
  else if char = '\x0c' then ['\\', 'f']
  else if char = '\n' then ['\\', 'n']
  else if char = '\r' then ['\\', 'r']
  else if char = '\t' then ['\\', 't']
  else if char.toNat < 32 then
    ['\\', 'u', '0', '0', hexDigit (char.toNat / 16), hexDigit char.toNat]
  else [char]

def quote (text : Text) : Text := '"' :: text.flatMap escape ++ ['"']

mutual

/-- The text of a value on one line. -/
def compact : Json → Text
  | .null => ['n', 'u', 'l', 'l']
  | .bool true => ['t', 'r', 'u', 'e']
  | .bool false => ['f', 'a', 'l', 's', 'e']
  | .number value => Nat.toDigits 10 value
  | .string value => quote value
  | .array [] => ['[', ']']
  | .array (item :: rest) => '[' :: compact item ++ compactItems rest
  | .object [] => ['\x7b', '\x7d']
  | .object ((name, value) :: rest) =>
    '\x7b' :: quote name ++ ':' :: compact value ++ compactFields rest

def compactItems : List Json → Text
  | [] => [']']
  | item :: rest => ',' :: compact item ++ compactItems rest

def compactFields : List (Text × Json) → Text
  | [] => ['\x7d']
  | (name, value) :: rest => ',' :: quote name ++ ':' :: compact value ++ compactFields rest

end

def newline (level : Nat) : Text := '\n' :: List.replicate (2 * level) ' '

mutual

/-- The text of a value that stands at a level, with a line for each item or field. -/
def pretty (level : Nat) : Json → Text
  | .null => ['n', 'u', 'l', 'l']
  | .bool true => ['t', 'r', 'u', 'e']
  | .bool false => ['f', 'a', 'l', 's', 'e']
  | .number value => Nat.toDigits 10 value
  | .string value => quote value
  | .array [] => ['[', ']']
  | .array (item :: rest) =>
    '[' :: newline (level + 1) ++ pretty (level + 1) item ++ prettyItems level rest
  | .object [] => ['\x7b', '\x7d']
  | .object ((name, value) :: rest) =>
    '\x7b' :: newline (level + 1) ++ quote name ++ ':' :: ' ' :: pretty (level + 1) value ++
      prettyFields level rest

def prettyItems (level : Nat) : List Json → Text
  | [] => newline level ++ [']']
  | item :: rest =>
    ',' :: newline (level + 1) ++ pretty (level + 1) item ++ prettyItems level rest

def prettyFields (level : Nat) : List (Text × Json) → Text
  | [] => newline level ++ ['\x7d']
  | (name, value) :: rest =>
    ',' :: newline (level + 1) ++ quote name ++ ':' :: ' ' :: pretty (level + 1) value ++
      prettyFields level rest

end

end Template.Json
