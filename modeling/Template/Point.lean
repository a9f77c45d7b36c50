import Template.Text

set_option autoImplicit false

namespace Template

/-- A place in a source. Lines and columns count from one, and columns count characters; the offset
counts bytes from the start of the source. -/
structure Point where
  line : Nat
  column : Nat
  offset : Nat
deriving DecidableEq, Repr

namespace Point

def origin : Point := ⟨1, 1, 0⟩

instance : Inhabited Point := ⟨origin⟩

/-- Points are ordered by line, then by column, then by offset. -/
instance : Ord Point where
  compare left right :=
    (compare left.line right.line).then
      ((compare left.column right.column).then (compare left.offset right.offset))

/-- The place after a character that stands at this place. Only a line feed begins a new line. -/
def next (point : Point) (char : Char) : Point :=
  if char = '\n' then ⟨point.line + 1, 1, point.offset + 1⟩
  else ⟨point.line, point.column + 1, point.offset + char.utf8Size⟩

/-- The place after a text that begins at this place. -/
def walk (point : Point) (text : Text) : Point := text.foldl next point

@[simp] theorem walk_nil (point : Point) : point.walk [] = point := rfl

@[simp] theorem walk_cons (point : Point) (char : Char) (rest : Text) :
    point.walk (char :: rest) = (point.next char).walk rest := rfl

theorem walk_append (point : Point) (front back : Text) :
    point.walk (front ++ back) = (point.walk front).walk back := List.foldl_append

theorem offset_next (point : Point) (char : Char) :
    (point.next char).offset = point.offset + char.utf8Size := by
  unfold next
  split
  · next feed => subst feed; rfl
  · rfl

theorem offset_walk (point : Point) (text : Text) :
    (point.walk text).offset = point.offset + text.size := by
  induction text generalizing point with
  | nil => rfl
  | cons char rest ih =>
    rw [walk_cons, ih, offset_next, Text.size_cons, Nat.add_assoc]

/-- The place some one-byte characters earlier on the same line. Columns stop at one and offsets at
zero. -/
def back (point : Point) (count : Nat) : Point :=
  ⟨point.line, max (point.column - count) 1, point.offset - count⟩

end Point

/-- A part of a source: from the place before its first character to the place after its last. -/
structure Span where
  start : Point
  stop : Point
deriving DecidableEq, Repr

namespace Span

def empty (point : Point) : Span := ⟨point, point⟩

instance : Inhabited Span := ⟨empty .origin⟩

def isEmpty (span : Span) : Bool := span.start.offset == span.stop.offset

/-- The text under the span, if its ends lie between characters of the source and in order. -/
def slice? (span : Span) (source : Text) : Option Text :=
  source.slice? span.start.offset span.stop.offset

end Span

end Template
