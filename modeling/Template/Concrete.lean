import Template.Kind

set_option autoImplicit false

namespace Template.Concrete

variable {τ : Type}

/-- A braced script, `{ script }`. -/
structure Braced (τ : Type) where
  opening : τ
  blank : Option τ
  content : τ
  closing : τ
deriving DecidableEq, Repr

/-- A braced block marker, `{#name script}`. -/
structure Marker (τ : Type) where
  opening : τ
  name : τ
  blank : Option τ
  script : Option τ
  closing : τ
deriving DecidableEq, Repr

/-- The end of a branching block, `{/name }`. -/
structure BlockEnd (τ : Type) where
  opening : τ
  name : τ
  blank : Option τ
  closing : τ
deriving DecidableEq, Repr

inductive Part (τ : Type) where
  /-- String content, or attribute text or a slash outside quotes. -/
  | text (token : τ)
  | braced (script : Braced τ)
deriving DecidableEq, Repr

inductive Value (τ : Type) where
  | quoted (quote : Quote) (opening : τ) (parts : List (Part τ)) (closing : τ)
  | bare (parts : List (Part τ))
deriving DecidableEq, Repr

/-- A modifier of an attribute name, `|name`. -/
structure Modifier (τ : Type) where
  pipe : τ
  name : τ
deriving DecidableEq, Repr

/-- The value of an attribute with its equals sign. -/
structure Assigned (τ : Type) where
  equal : τ
  value : Value τ
deriving DecidableEq, Repr

inductive Attribute (τ : Type) where
  | named (name : τ) (modifiers : List (Modifier τ)) (value : Option (Assigned τ))
  | braced (script : Braced τ)
deriving DecidableEq, Repr

/-- An attribute with the blank before it. -/
structure Item (τ : Type) where
  blank : Option τ
  entry : Attribute τ
deriving DecidableEq, Repr

/-- An opening tag up to where it is closed: the name, the attributes and the blank after them. -/
structure Head (τ : Type) where
  opening : τ
  items : List (Item τ)
  blank : Option τ
deriving DecidableEq, Repr

/-- A closing tag, `</name >`. -/
structure CloseTag (τ : Type) where
  opening : τ
  blank : Option τ
  angle : τ
deriving DecidableEq, Repr

/-- What follows the head of a raw element: the end of an empty one, or the content. -/
inductive RawBody (τ : Type) where
  | selfClosed (closing : τ)
  | content (angle rest : τ)
deriving DecidableEq, Repr

mutual

/-- What stands in the content of an element, of a branch or of a whole template. -/
inductive Child (τ : Type) where
  | text (token : τ)
  | comment (token : τ)
  | braced (script : Braced τ)
  /-- A block of one clause. -/
  | single (marker : Marker τ)
  /-- A block of branches. The end is missing where it was broken or never came. -/
  | block (first : Branch τ) (others : List (Branch τ)) (finish : Option (BlockEnd τ))
  | raw (element : RawElement) (head : Head τ) (body : RawBody τ)
  /-- A tag closed by `/>`. -/
  | selfClosed (head : Head τ) (slash angle : τ)
  /-- The tag of an element that has no content. -/
  | void (head : Head τ) (angle : τ)
  /-- An element. The closing tag is missing where the element ended without one. -/
  | element (head : Head τ) (angle : τ) (content : List (Child τ)) (close : Option (CloseTag τ))

/-- A branch of a block: its marker and what follows up to the next marker. -/
structure Branch (τ : Type) where
  marker : Marker τ
  content : List (Child τ)

end

deriving instance Repr for Child, Branch

end Template.Concrete
