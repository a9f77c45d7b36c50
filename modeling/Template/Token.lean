import Template.Kind
import Template.Point

set_option autoImplicit false

namespace Template

/-- A piece of source with its kind. The last point is the place of the last character, so it
lies before that character and not after it. -/
structure Token where
  kind : Kind
  image : Text
  start : Point
  last : Point
deriving DecidableEq, Repr

namespace Token

/-- The token whose text begins at a given point. -/
def place (kind : Kind) (image : Text) (start : Point) : Token :=
  ⟨kind, image, start, start.walk image.dropLast⟩

/-- The point after the token: one character past its last point. A token without text ends where
it begins. -/
def after (token : Token) : Point :=
  match token.image.getLast? with
  | some char => token.last.next char
  | none => token.start

def span (token : Token) : Span := ⟨token.start, token.after⟩

/-- The element name of an opening or closing tag, as written: the text without the angle brackets
and then without the slashes at its beginning. -/
def tagName (token : Token) : Text :=
  (token.image.dropWhile (· == '<')).dropWhile (· == '/')

/-- The name of a block token: the text without the sigil. -/
def blockName (token : Token) : Text := token.image.tail

/-- A placed token ends where its text does. -/
theorem after_place (kind : Kind) (image : Text) (start : Point) :
    (place kind image start).after = start.walk image := by
  rcases List.eq_nil_or_concat image with rfl | ⟨front, char, rfl⟩
  · rfl
  · simp [after, place, Point.walk_append]

end Token

end Template
