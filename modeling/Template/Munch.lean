import Template.Embedded
import Template.Mode

set_option autoImplicit false

namespace Template

namespace Munch

def isTagNameChar (char : Char) : Bool := char.isAlphanum || char == ':' || char == '-'

def attributeStops : Text := ['"', '\'', '=', '<', '>', '\u0060', '\x7b', '|', '/']

def isAttributeChar (char : Char) : Bool :=
  !Text.isBlank char && !attributeStops.contains char

/-- The length of the longest start that holds only characters of a class. -/
def runLength (allowed : Char → Bool) (text : Text) : Nat := (text.takeWhile allowed).length

/-- The length of a fixed word at the start of a text. -/
def wordLength (word text : Text) : Nat := if word.isPrefixOf text then word.length else 0

/-- The length of a fixed word with a run of characters of a class after it, which must not be
empty. -/
def headedLength (word : Text) (allowed : Char → Bool) (text : Text) : Nat :=
  let count := runLength allowed (text.drop word.length)
  if word.isPrefixOf text && count != 0 then word.length + count else 0

/-- Whether a text starts with a word of small letters, with capital letters taken as small. -/
def startsLike (word text : Text) : Bool := Text.lower (text.take word.length) == word

/-- The length up to the end of the first place where a word stands, with capital letters taken as
small, or zero if it stands nowhere. -/
def throughLike (word : Text) : Text → Nat
  | [] => 0
  | char :: rest =>
    if startsLike word (char :: rest) then word.length
    else
      match throughLike word rest with
      | 0 => 0
      | count + 1 => count + 2

/-- The length of the opening of a raw element. The first letter of the name must be small. -/
def rawOpenLength (name text : Text) : Nat :=
  if ('<' :: name.take 1).isPrefixOf text && startsLike name text.tail then name.length + 1 else 0

/-- The length through the first end of a comment, or zero if no end comes. -/
def commentEndLength : Text → Nat
  | [] => 0
  | char :: rest =>
    if ['-', '-', '>'].isPrefixOf (char :: rest) then 3
    else
      match commentEndLength rest with
      | 0 => 0
      | count + 1 => count + 2

/-- The text after the opening of a comment, if one stands at the start. -/
def commentBody? : Text → Option Text
  | '<' :: '!' :: '-' :: '-' :: body => some body
  | _ => none

def commentLength (text : Text) : Nat :=
  match commentBody? text with
  | none => 0
  | some body =>
    match commentEndLength body with
    | 0 => 0
    | count + 1 => count + 5

/-- The length of the text of a quoted value, up to its quote or a brace. A quote after a backslash
belongs to the text. -/
def quotedLength (quote : Char) : Text → Nat
  | [] => 0
  | [char] => if char = quote ∨ char = '\x7b' then 0 else 1
  | char :: next :: rest =>
    if char = '\\' ∧ next = quote then quotedLength quote rest + 2
    else if char = quote ∨ char = '\x7b' then 0
    else quotedLength quote (next :: rest) + 1

/-- The length of the token of a kind at the start of a text. -/
def length : Kind → Text → Nat
  | .blank => runLength Text.isBlank
  | .text => runLength fun char => char != '<' && char != '\x7b'
  | .comment => commentLength
  | .openTag => headedLength ['<'] isTagNameChar
  | .closeTag => headedLength ['<', '/'] isTagNameChar
  | .rawOpen element => rawOpenLength element.name.toList
  | .rawAngle _ | .angle => wordLength ['>']
  | .rawRest element => throughLike element.endTag.toList
  | .rawSelfClose => wordLength ['/', '>']
  | .slash => wordLength ['/']
  | .colon => wordLength [':']
  | .equal => wordLength ['=']
  | .pipe => wordLength ['|']
  | .attributeText => runLength isAttributeChar
  | .quoteOpen quote | .quoteClose quote => wordLength [quote.char]
  | .quoted quote => quotedLength quote.char
  | .braceOpen => wordLength ['\x7b']
  | .braceClose => wordLength ['\x7d']
  | .expression => Embedded.length
  | .block sigil => headedLength [sigil.char] fun char => !Text.isBlank char && char != '\x7d'

/-- The better of what was found so far and a further kind: the further one only if it is longer. -/
def better (lengthOf : Kind → Nat) (best : Option (Kind × Nat)) (kind : Kind) :
    Option (Kind × Nat) :=
  match best with
  | none => if lengthOf kind = 0 then none else some (kind, lengthOf kind)
  | some (_, count) => if lengthOf kind ≤ count then best else some (kind, lengthOf kind)

/-- The longest of the given kinds with its length, the earliest of the longest, or nothing if no
kind has a length. -/
def longest? (lengthOf : Kind → Nat) (kinds : List Kind) : Option (Kind × Nat) :=
  kinds.foldl (better lengthOf) none

/-- What is chosen has a length, and it is the length of its kind. -/
theorem longest?_pos (lengthOf : Kind → Nat) (kinds : List Kind) (kind : Kind) (count : Nat)
    (chosen : longest? lengthOf kinds = some (kind, count)) :
    count = lengthOf kind ∧ 0 < count := by
  have keeps : ∀ (kinds : List Kind) (best : Option (Kind × Nat)),
      (∀ kind count, best = some (kind, count) → count = lengthOf kind ∧ 0 < count) →
      ∀ kind count, kinds.foldl (better lengthOf) best = some (kind, count) →
        count = lengthOf kind ∧ 0 < count := by
    intro kinds
    induction kinds with
    | nil => exact fun _ good => good
    | cons next rest ih =>
      intro best good
      refine ih (better lengthOf best next) fun kind count found => ?_
      match best, good with
      | none, _ =>
        simp only [better] at found
        split at found
        · cases found
        · cases found
          exact ⟨rfl, by omega⟩
      | some (first, reach), good =>
        simp only [better] at found
        split at found
        · exact good kind count found
        · cases found
          exact ⟨rfl, by omega⟩
  exact keeps kinds none (fun _ _ found => nomatch found) kind count chosen

end Munch

end Template
