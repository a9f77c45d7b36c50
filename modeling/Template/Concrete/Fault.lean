import Template.Concrete.Rule

set_option autoImplicit false

namespace Template.Concrete

variable {τ : Type}

/-- The number of elements and branches that may be open around a child. -/
def maxNesting : Nat := 128

/-- Why a part of the grammar was not met. The token found is missing at the end of the input. -/
inductive Cause (τ : Type) where
  /-- A rule failed. -/
  | mismatch (expected : Expected) (found : Option τ)
  /-- A token outside all elements that cannot begin a child. -/
  | unexpected (token : τ)
  | missingClose (name : Text) (found : Option τ)
  /-- A closing tag that answers no open element. -/
  | strayClose (name inside : Text)
  | missingEnd (opened : Text) (found : Option τ)
  | wrongEnd (opened closed : Text)
  /-- An element or a branch inside too many others. -/
  | tooDeep
deriving DecidableEq, Repr

/-- The tokens that a fault concerns. -/
inductive Site (τ : Type) where
  /-- From one token through another. -/
  | across (first last : τ)
  /-- The token at which something was missed. -/
  | before (token : τ)
  /-- The end of the input. -/
  | finish
deriving DecidableEq, Repr

/-- Something that is wrong with a sequence of tokens. -/
structure Fault (τ : Type) where
  cause : Cause τ
  site : Site τ
deriving DecidableEq, Repr

/-- The place before the tokens that are left. -/
def Site.at : List τ → Site τ
  | [] => .finish
  | token :: _ => .before token

/-- The tokens that were dropped, or the place before what is left if none were. -/
def Site.dropped : (dropped rest : List τ) → Site τ
  | [], rest => .at rest
  | token :: more, _ => .across token (more.getLastD token)

end Template.Concrete
