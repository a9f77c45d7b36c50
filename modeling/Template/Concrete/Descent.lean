import Template.Concrete.Build
import Template.Concrete.Cursor

set_option autoImplicit false

/-!
Building by recursive descent, with its checks. A cursor moves over the tokens; loops read the
children of an element, the branches of a block and what stands outside all elements, and a child
that opens something reads its content by itself. Whatever such a parser relies on is checked where
it is relied on, and there is no tree where a check fails: the cursor never goes back nor past the
end, every round of a loop takes a token, positions and bounds lie in range, and a rule that fails
leaves the cursor at the position that its failure tells.
-/

namespace Template.Concrete

open Terminal (kind tagName blockName)
open Cursor (Failure Outcome Reading kindAt?)

variable {τ α β σ ρ : Type}

namespace Descent

/-- Where reading stands. The names of the open elements are kept the innermost last, the faults the
latest first. -/
structure Reader (τ : Type) where
  place : Nat
  names : List Text
  /-- The number of elements and branches that are open. -/
  depth : Nat
  faults : List (Fault τ)

/-- A part of reading some tokens. There is no answer where a check fails. -/
def Step (τ α : Type) : Type := List τ → Reader τ → Option (α × Reader τ)

instance : Monad (Step τ) where
  pure item := fun _ reader => some (item, reader)
  bind step next := fun tokens reader =>
    match step tokens reader with
    | none => none
    | some (item, reader) => next item tokens reader

def check (fact : Prop) [Decidable fact] : Step τ Unit := fun _ reader =>
  if fact then some ((), reader) else none

def place : Step τ Nat := fun _ reader => some (reader.place, reader)

def here? : Step τ (Option τ) := fun tokens reader => some (tokens[reader.place]?, reader)

/-- Moves the cursor. It never goes back, and never past the end. -/
def moveTo (further : Nat) : Step τ Unit := fun tokens reader =>
  if reader.place ≤ further ∧ further ≤ tokens.length then
    some ((), { reader with place := further })
  else none

def note (cause : Cause τ) (site : Site τ) : Step τ Unit := fun _ reader =>
  some ((), { reader with faults := ⟨cause, site⟩ :: reader.faults })

def read (reading : Reading τ α) : Step τ (Outcome τ α) := fun tokens reader =>
  match reading tokens reader.place with
  | none => none
  | some (outcome, further) => (do moveTo further; return outcome : Step τ _) tokens reader

/-- Goes round until a round yields a result, so many times at most. Every other round takes a
token. -/
def rounds (round : σ → Step τ (σ ⊕ ρ)) : Nat → σ → Step τ ρ
  | 0, _ => fun _ _ => none
  | count + 1, state => do
    let before ← place
    match ← round state with
    | .inr result => return result
    | .inl state =>
      check (before < (← place))
      rounds round count state

/-- Goes round until a round yields a result. There are no more rounds than tokens, and the last. -/
def loop (round : σ → Step τ (σ ⊕ ρ)) (state : σ) : Step τ ρ := fun tokens reader =>
  rounds round (tokens.length + 1) state tokens reader

/-- A number brought between two bounds, the lower of which must not be above the upper. -/
def clamp? (low high number : Nat) : Option Nat :=
  if low ≤ high then some (max low (min number high)) else none

/-- The tokens from one position up to another, or the one at the first if none lie between. -/
def site? (tokens : List τ) (first stop : Nat) : Option (Site τ) :=
  match tokens[first]? with
  | none => some .finish
  | some token => do
    let after ← clamp? (first + 1) tokens.length stop
    let last ← tokens[after - 1]?
    return if stop ≤ first then .before token else .across token last

/-- The first names of a list, which must be that long. -/
def first? (count : Nat) (names : List Text) : Option (List Text) :=
  if count ≤ names.length then some (names.take count) else none

/-- Whether an element with this name is open around the innermost. -/
def isOutside (name : Text) : Step τ Bool := fun _ reader =>
  match first? (reader.names.length - 1) reader.names with
  | none => none
  | some names => some (names.contains name, reader)

/-- Records a fault with the tokens from a position up to the cursor. -/
def report (cause : Cause τ) (first : Nat) : Step τ Unit := fun tokens reader =>
  match site? tokens first reader.place with
  | none => none
  | some site => note cause site tokens reader

def reportHere (cause : Cause τ) : Step τ Unit := do
  let here ← place
  report cause here

variable [Terminal τ]

def skipRound (_ : Unit) : Step τ (Unit ⊕ Unit) := do
  match ← here? with
  | none => return .inr ()
  | some token =>
    if Builder.resumes (kind token) then return .inr ()
    else
      let here ← place
      moveTo (here + 1)
      return .inl ()

/-- Moves the cursor to where reading can go on, or to the end. -/
def skip : Step τ Unit := loop skipRound ()

def mayResume (tokens : List τ) (place : Nat) : Bool :=
  (kindAt? tokens place).all Builder.resumes

/-- Checks that reading can go on at the cursor. -/
def checkResumed : Step τ Unit := fun tokens reader =>
  check (mayResume tokens reader.place = true) tokens reader

/-- Records that a rule failed and goes on where reading can go on. A failure tells the position of
the cursor. -/
def recover (failure : Failure τ) : Step τ Unit := do
  let here ← place
  check (failure.place = here)
  moveTo (max here failure.place)
  skip
  checkResumed
  report (.mismatch failure.expected failure.found) failure.place

/-- Whether a child begins at a position, given the elements before which the content ends. -/
def startsAt (stops : Option (List Text)) (tokens : List τ) (place : Nat) : Bool :=
  match tokens[place]? with
  | none => false
  | some token =>
    match kind token with
    | .openTag => !(stops.getD []).contains (tagName token)
    | .braceOpen =>
      kindAt? tokens (place + 1) ≠ some (.block .continuing) &&
        kindAt? tokens (place + 1) ≠ some (.block .closing)
    | .text | .comment | .rawOpen _ => true
    | _ => false

def starts (stops : Option (List Text)) : Step τ Bool := fun tokens reader =>
  some (startsAt stops tokens reader.place, reader)

/-- Whether a brace and this sigil stand at the cursor. -/
def follows (sigil : Sigil) : Step τ Bool := fun tokens reader =>
  some (kindAt? tokens reader.place = some .braceOpen &&
    kindAt? tokens (reader.place + 1) = some (.block sigil), reader)

/-- Reads a child if one begins here. Children are kept the latest first. -/
def contentRound (child : Step τ (Outcome τ (Child τ))) (stops : Option (List Text))
    (children : List (Child τ)) : Step τ (List (Child τ) ⊕ List (Child τ)) := do
  if ← starts stops then
    match ← child with
    | .ok child => return .inl (child :: children)
    | .error failure =>
      recover failure
      return .inl children
  else return .inr children

def content (child : Step τ (Outcome τ (Child τ))) (stops : Option (List Text))
    (children : List (Child τ)) : Step τ (List (Child τ)) :=
  loop (contentRound child stops) children

/-- Records that the closing tag of an element is missing here, unless it may be left out. -/
def missClose (name : Text) : Step τ Unit := do
  let found ← here?
  if Element.mayEnd name then return ()
  else reportHere (.missingClose name found)

def ownClose (children : List (Child τ)) :
    Step τ (List (Child τ) ⊕ (List (Child τ) × Option (CloseTag τ))) := do
  match ← read Cursor.closeTag with
  | .ok close => return .inr (children, some close)
  | .error failure =>
    recover failure
    return .inr (children, none)

/-- Drops a closing tag that answers no open element. -/
def strayClose (name : Text) (token : τ) (children : List (Child τ)) :
    Step τ (List (Child τ) ⊕ (List (Child τ) × Option (CloseTag τ))) := do
  let first ← place
  match ← read Cursor.closeTag with
  | .ok _ =>
    report (.strayClose (tagName token) name) first
    return .inl children
  | .error failure =>
    recover failure
    return .inl children

/-- Goes on at a closing tag in an element. One that answers an element around it is left to that
element. -/
def answerClose (name : Text) (token : τ) (children : List (Child τ)) :
    Step τ (List (Child τ) ⊕ (List (Child τ) × Option (CloseTag τ))) := do
  if tagName token = name then ownClose children
  else if Element.mayEnd name then return .inr (children, none)
  else if ← isOutside (tagName token) then
    missClose name
    return .inr (children, none)
  else strayClose name token children

def finishContent (name : Text) (children : List (Child τ)) :
    Step τ (List (Child τ) ⊕ (List (Child τ) × Option (CloseTag τ))) := do
  match ← here? with
  | none =>
    missClose name
    return .inr (children, none)
  | some token =>
    if kind token = .closeTag then answerClose name token children
    else
      missClose name
      return .inr (children, none)

/-- Reads children of an element and what ends them. It goes round after a closing tag that answers
no open element. -/
def elementRound (child : Step τ (Outcome τ (Child τ))) (name : Text) (children : List (Child τ)) :
    Step τ (List (Child τ) ⊕ (List (Child τ) × Option (CloseTag τ))) := do
  let children ← content child (Element.stops? name) children
  finishContent name children

def enter (name : Text) : Step τ Unit := fun _ reader =>
  some ((), { reader with names := reader.names ++ [name], depth := reader.depth + 1 })

def leave : Step τ Unit := fun _ reader =>
  some ((), { reader with names := reader.names.dropLast, depth := reader.depth - 1 })

def depth : Step τ Nat := fun _ reader => some (reader.depth, reader)

/-- Reads an element from the end of its opening tag on. It has no content if it is void or inside
too many others. -/
def element (child : Step τ (Outcome τ (Child τ))) (head : Head τ) (angle : τ) :
    Step τ (Child τ) := do
  let around ← depth
  if Element.isVoid (Builder.nameOf head) then return .void head angle
  else if maxNesting ≤ around then
    note .tooDeep (.across head.opening angle)
    return .element head angle [] none
  else
    enter (Builder.nameOf head)
    let (children, close) ← loop (elementRound child (Builder.nameOf head)) []
    leave
    return .element head angle children.reverse close

def deepen : Step τ Unit := fun _ reader => some ((), { reader with depth := reader.depth + 1 })

def surface : Step τ Unit := fun _ reader => some ((), { reader with depth := reader.depth - 1 })

/-- Reads a branch from the end of its marker on. It has no content if it is inside too many
others. -/
def branch (child : Step τ (Outcome τ (Child τ))) (marker : Marker τ) : Step τ (Branch τ) := do
  let around ← depth
  if maxNesting ≤ around then
    note .tooDeep (.across marker.opening marker.closing)
    return ⟨marker, []⟩
  else
    deepen
    let children ← content child none []
    surface
    return ⟨marker, children.reverse⟩

def finishBlock (opened : Text) (branches : List (Branch τ)) :
    Step τ (List (Branch τ) ⊕ (List (Branch τ) × Option (BlockEnd τ))) := do
  match ← read Cursor.blockEnd with
  | .error failure =>
    recover failure
    return .inr (branches, none)
  | .ok finish =>
    if opened = blockName finish.name then return .inr (branches, some finish)
    else
      note (.wrongEnd opened (blockName finish.name)) (.across finish.name finish.name)
      return .inr (branches, some finish)

/-- Reads a further branch. Further branches are kept the latest first. -/
def nextBranch (child : Step τ (Outcome τ (Child τ))) (branches : List (Branch τ)) :
    Step τ (List (Branch τ) ⊕ (List (Branch τ) × Option (BlockEnd τ))) := do
  match ← read (Cursor.marker .continuing) with
  | .error failure =>
    recover failure
    return .inr (branches, none)
  | .ok marker =>
    let branch ← branch child marker
    return .inl (branch :: branches)

/-- Reads a further branch if there is one, or else the end of the block. -/
def branchRound (child : Step τ (Outcome τ (Child τ))) (opened : Text)
    (branches : List (Branch τ)) :
    Step τ (List (Branch τ) ⊕ (List (Branch τ) × Option (BlockEnd τ))) := do
  if ← follows .continuing then nextBranch child branches
  else if ← follows .closing then finishBlock opened branches
  else
    let found ← here?
    reportHere (.missingEnd opened found)
    return .inr (branches, none)

def block (child : Step τ (Outcome τ (Child τ))) (marker : Marker τ) : Step τ (Child τ) := do
  let first ← branch child marker
  let (branches, finish) ← loop (branchRound child (blockName marker.name)) []
  return .block first branches.reverse finish

def childOf (child : Step τ (Outcome τ (Child τ))) : Step τ (Outcome τ (Child τ)) := do
  match ← read Cursor.piece with
  | .error failure => return .error failure
  | .ok (.whole child) => return .ok child
  | .ok (.element head angle) => Except.ok <$> element child head angle
  | .ok (.branch marker) => Except.ok <$> block child marker

/-- Reads a child with fewer than so many levels below it. -/
def child : Nat → Step τ (Outcome τ (Child τ))
  | 0 => fun _ _ => none
  | levels + 1 => childOf (child levels)

/-- Drops a token that fits nowhere, and what follows it until reading can go on. -/
def dropUnexpected (token : τ) (children : List (Child τ)) :
    Step τ (List (Child τ) ⊕ List (Child τ)) := do
  let first ← place
  moveTo (first + 1)
  skip
  report (.unexpected token) first
  return .inl children

/-- Reads children outside all elements. It goes round after a token that begins none. -/
def rootRound (child : Step τ (Outcome τ (Child τ))) (children : List (Child τ)) :
    Step τ (List (Child τ) ⊕ List (Child τ)) := do
  let children ← content child none children
  match ← here? with
  | none => return .inr children
  | some token => dropUnexpected token children

/-- Reads all tokens. No child is deeper than elements and branches may be nested. -/
def root : Step τ (List (Child τ)) := loop (rootRound (child (maxNesting + 1))) []

/-- The tree of a sequence of tokens and what is wrong with it, if no check fails. -/
def parse (tokens : List τ) : Option (Built τ) :=
  match root tokens ⟨0, [], 0, []⟩ with
  | none => none
  | some (children, reader) => some ⟨children.reverse, reader.faults.reverse⟩

end Descent

end Template.Concrete
