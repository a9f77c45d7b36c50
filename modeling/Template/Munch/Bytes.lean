import Template.Embedded.Bytes
import Template.Munch

set_option autoImplicit false

namespace Template.Munch

/-- The byte of a small letter for that of a capital one; all other bytes stay. -/
def lowerByte (code : UInt8) : UInt8 := if 65 ≤ code ∧ code ≤ 90 then code + 32 else code

/-- Whether bytes start with those of a word of small letters, with capital letters taken as
small. -/
def startsLikeBytes (word codes : List UInt8) : Bool :=
  (codes.take word.length).map lowerByte == word

/-- The number of bytes up to the end of the first place where a word stands, with capital letters
taken as small, or zero if it stands nowhere. -/
def throughLikeBytes (word : List UInt8) : List UInt8 → Nat
  | [] => 0
  | code :: rest =>
    if startsLikeBytes word (code :: rest) then word.length
    else
      match throughLikeBytes word rest with
      | 0 => 0
      | count + 1 => count + 2

/-- The number of bytes of the opening of a raw element. The first letter of the name must be
small. -/
def rawOpenBytes (name codes : List UInt8) : Nat :=
  if (Embedded.byte '<' :: name.take 1).isPrefixOf codes && startsLikeBytes name codes.tail then
    name.length + 1
  else 0

/-- The number of bytes of the token of a kind at the start of a text. -/
def byteLength : Kind → Text → Nat
  | .rawOpen element, text => rawOpenBytes (element.name.toList.map Embedded.byte) text.bytes
  | .rawRest element, text => throughLikeBytes (element.endTag.toList.map Embedded.byte) text.bytes
  | .expression, text => (Embedded.endIn? text 0).getD 0
  | kind, text => Text.size (text.take (length kind text))

end Template.Munch
