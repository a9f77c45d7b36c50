import Template.Point

set_option autoImplicit false

namespace Template

/-- A piece of source text. -/
structure Fragment where
  value : Text
  span : Span
deriving DecidableEq, Repr

inductive Shorthand where
  /-- By its name alone. -/
  | boolean
  /-- With a value. -/
  | none
  /-- As a braced script. -/
  | expression
deriving DecidableEq, Repr

/-- A piece of an attribute value. -/
inductive ValuePart where
  | text (fragment : Fragment)
  | expression (fragment : Fragment)
deriving DecidableEq, Repr

def ValuePart.span : ValuePart → Span
  | text fragment | expression fragment => fragment.span

/-- An attribute of a tag. One with a specifier after a colon is a directive. -/
structure Attribute where
  name : Text
  specifier : Option Text
  shorthand : Shorthand
  modifiers : List Fragment
  value : List ValuePart
  span : Span
deriving DecidableEq, Repr

inductive TagType where
  | element
  /-- A tag whose name begins with a capital letter. -/
  | component
  /-- A tag whose name has a colon. It is named by what follows the colon. -/
  | namespaced
  | script
  | style
deriving DecidableEq, Repr

mutual

inductive Node where
  | tag (type : TagType) (name : Text) (selfClosing : Bool) (attributes : List Attribute)
      (children : List Node) (span : Span)
  /-- A block of one clause. -/
  | single (name : Text) (script : Option Fragment) (span : Span)
  /-- A block of branches. -/
  | block (name : Text) (branches : List Branch) (span : Span)
  | expression (fragment : Fragment)
  | text (fragment : Fragment)
  /-- A comment, without its delimiters. -/
  | comment (fragment : Fragment)

structure Branch where
  name : Text
  script : Option Fragment
  children : List Node
  span : Span

end

deriving instance Repr for Node, Branch

def Node.span : Node → Span
  | .tag _ _ _ _ _ span => span
  | .single _ _ span => span
  | .block _ _ span => span
  | .expression fragment | .text fragment | .comment fragment => fragment.span

structure Document where
  children : List Node
  span : Span
deriving Repr

end Template
