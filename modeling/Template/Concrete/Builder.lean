import Template.Concrete.Fault
import Template.Concrete.Grammar
import Template.Element

set_option autoImplicit false

/-!
Building the concrete tree. The elements and blocks that are open form a stack of frames, and each
step adds a child to the innermost, opens a frame, closes the innermost, or drops tokens that fit
nowhere. Every input has a tree; what had to be dropped or was missing is recorded as a fault.
-/

namespace Template.Concrete

open Terminal (kind tagName blockName)
open Rule

variable {τ : Type}

/-- Something whose content is being read. Children and earlier branches are kept the latest
first. -/
inductive Frame (τ : Type) where
  | element (head : Head τ) (angle : τ) (children : List (Child τ))
  | block (earlier : List (Branch τ)) (marker : Marker τ) (children : List (Child τ))

/-- Where building stands. Frames are kept the innermost first, finished children and faults the
latest first. -/
structure Builder (τ : Type) where
  rest : List τ
  frames : List (Frame τ)
  children : List (Child τ)
  faults : List (Fault τ)

/-- The tree of a sequence of tokens and what is wrong with it. -/
structure Built (τ : Type) where
  children : List (Child τ)
  faults : List (Fault τ)

def Frame.add (child : Child τ) : Frame τ → Frame τ
  | element head angle children => element head angle (child :: children)
  | block earlier marker children => block earlier marker (child :: children)

namespace Builder

/-- Adds a child to the innermost frame, or to the tree if none is open. -/
def add (builder : Builder τ) (child : Child τ) : Builder τ :=
  match builder.frames with
  | [] => { builder with children := child :: builder.children }
  | frame :: below => { builder with frames := frame.add child :: below }

def note (builder : Builder τ) (cause : Cause τ) (site : Site τ) : Builder τ :=
  { builder with faults := ⟨cause, site⟩ :: builder.faults }

variable [Terminal τ]

/-- Whether reading goes on at a token of this kind after something failed. -/
def resumes : Kind → Bool
  | .text | .comment | .openTag | .closeTag | .rawOpen _ | .braceOpen => true
  | _ => false

/-- The tokens to drop until reading can go on. -/
def unread (tokens : List τ) : List τ := tokens.takeWhile fun token => !resumes (kind token)

/-- The tokens from where reading can go on. -/
def resumed (tokens : List τ) : List τ := tokens.dropWhile fun token => !resumes (kind token)

/-- Records that a rule failed and drops the tokens after which reading can go on. -/
def recover (builder : Builder τ) (mismatch : Mismatch τ) : Builder τ :=
  { builder with rest := resumed mismatch.rest }.note
    (.mismatch mismatch.expected mismatch.rest.head?)
    (.dropped (unread mismatch.rest) (resumed mismatch.rest))

/-- Whether a child begins here, given the elements before which the content ends. -/
def startsChild (stops : Option (List Text)) (tokens : List τ) : Bool :=
  match tokens with
  | [] => false
  | token :: rest =>
    match kind token with
    | .openTag => !(stops.getD []).contains (tagName token)
    | .braceOpen =>
      kind? rest ≠ some (.block .continuing) && kind? rest ≠ some (.block .closing)
    | .text | .comment | .rawOpen _ => true
    | _ => false

def nameOf (head : Head τ) : Text := tagName head.opening

/-- The names of the open elements, the innermost first. -/
def openNames (frames : List (Frame τ)) : List Text :=
  frames.filterMap fun
    | .element head _ _ => some (nameOf head)
    | .block .. => none

/-- Whether a child is to be read next. A branch inside too many others has no content. -/
def wantsChild (builder : Builder τ) : Bool :=
  match builder.frames with
  | [] => startsChild none builder.rest
  | .element head _ _ :: _ => startsChild (Element.stops? (nameOf head)) builder.rest
  | .block .. :: below => below.length < maxNesting && startsChild none builder.rest

/-- Records that something stands inside too many others. -/
def noteDepth (builder : Builder τ) (depth : Nat) (first last : τ) : Builder τ :=
  if maxNesting ≤ depth then builder.note .tooDeep (.across first last) else builder

/-- Opens an element. It has no content if it is void or inside too many others. -/
def openElement (builder : Builder τ) (head : Head τ) (angle : τ) : Builder τ :=
  if Element.isVoid (nameOf head) then builder.add (.void head angle)
  else if maxNesting ≤ builder.frames.length then
    (builder.note .tooDeep (.across head.opening angle)).add (.element head angle [] none)
  else { builder with frames := .element head angle [] :: builder.frames }

def openBlock (builder : Builder τ) (marker : Marker τ) : Builder τ :=
  { builder with frames := .block [] marker [] :: builder.frames }.noteDepth
    builder.frames.length marker.opening marker.closing

/-- Reads a child, or as much of it as comes before its content. -/
def readChild (builder : Builder τ) : Builder τ :=
  match piece builder.rest with
  | .error mismatch => builder.recover mismatch
  | .ok (.whole child, rest) => { builder with rest }.add child
  | .ok (.element head angle, rest) => { builder with rest }.openElement head angle
  | .ok (.branch marker, rest) => { builder with rest }.openBlock marker

/-- Drops a token that fits nowhere, and what follows it until reading can go on. -/
def dropUnexpected (builder : Builder τ) (token : τ) (rest : List τ) : Builder τ :=
  { builder with rest := resumed rest }.note (.unexpected token)
    (.dropped (token :: unread rest) (resumed rest))

def endElement (builder : Builder τ) (below : List (Frame τ)) (head : Head τ) (angle : τ)
    (children : List (Child τ)) (close : Option (CloseTag τ)) : Builder τ :=
  { builder with frames := below }.add (.element head angle children.reverse close)

def noteMissingClose (builder : Builder τ) (name : Text) : Builder τ :=
  builder.note (.missingClose name builder.rest.head?) (.at builder.rest)

/-- Reads a closing tag that answers no open element and drops it. -/
def dropClose (builder : Builder τ) (name : Text) (token : τ) : Builder τ :=
  match closeTag builder.rest with
  | .error mismatch => builder.recover mismatch
  | .ok (close, rest) =>
    { builder with rest }.note (.strayClose (tagName token) name)
      (.across close.opening close.angle)

inductive Ending (τ : Type) where
  /-- By its own closing tag. -/
  | closed
  /-- Without a closing tag, which may be left out. -/
  | silent
  /-- Without the closing tag it should have. -/
  | missing
  /-- It goes on after a closing tag that answers no open element. -/
  | stray (token : τ)

/-- How the content of an element ends, given the names of the elements around it. A closing tag of
an element around it is left to that element. -/
def endingOf (name : Text) (outer : List Text) : List τ → Ending τ
  | [] => if Element.mayEnd name then .silent else .missing
  | token :: _ =>
    if kind token = .closeTag ∧ tagName token = name then .closed
    else if Element.mayEnd name then .silent
    else if kind token ≠ .closeTag ∨ outer.contains (tagName token) = true then .missing
    else .stray token

def finishContent (builder : Builder τ) (below : List (Frame τ)) (head : Head τ) (angle : τ)
    (children : List (Child τ)) : Builder τ :=
  match endingOf (nameOf head) (openNames below) builder.rest with
  | .closed =>
    match closeTag builder.rest with
    | .error mismatch => (builder.recover mismatch).endElement below head angle children none
    | .ok (close, rest) =>
      { builder with rest }.endElement below head angle children (some close)
  | .silent => builder.endElement below head angle children none
  | .missing =>
    (builder.noteMissingClose (nameOf head)).endElement below head angle children none
  | .stray token => builder.dropClose (nameOf head) token

/-- The block of some branches: those before the current one, the latest first, the current one,
and those after it. -/
def blockOf (finish : Option (BlockEnd τ)) : List (Branch τ) → Branch τ → List (Branch τ) → Child τ
  | [], current, later => .block current later finish
  | branch :: earlier, current, later => blockOf finish earlier branch (current :: later)

/-- The marker of the first branch, given the earlier branches, the latest first, and the marker of
the current one. -/
def firstMarker : List (Branch τ) → Marker τ → Marker τ
  | [], marker => marker
  | branch :: earlier, _ => firstMarker earlier branch.marker

def endBlock (builder : Builder τ) (below : List (Frame τ)) (earlier : List (Branch τ))
    (marker : Marker τ) (children : List (Child τ)) (finish : Option (BlockEnd τ)) : Builder τ :=
  { builder with frames := below }.add (blockOf finish earlier ⟨marker, children.reverse⟩ [])

def noteWrongEnd (builder : Builder τ) (opened : Text) (name : τ) : Builder τ :=
  if opened = blockName name then builder
  else builder.note (.wrongEnd opened (blockName name)) (.across name name)

/-- Goes on where the content of a branch ends: with a further branch, or with the end of the
block. -/
def finishBranch (builder : Builder τ) (below : List (Frame τ)) (earlier : List (Branch τ))
    (marker : Marker τ) (children : List (Child τ)) : Builder τ :=
  let opened := blockName (firstMarker earlier marker).name
  match kind? builder.rest, kind? builder.rest.tail with
  | some .braceOpen, some (.block .continuing) =>
    match Concrete.marker .continuing builder.rest with
    | .error mismatch => (builder.recover mismatch).endBlock below earlier marker children none
    | .ok (next, rest) =>
      { builder with
        rest
        frames := .block (⟨marker, children.reverse⟩ :: earlier) next [] :: below }.noteDepth
          below.length next.opening next.closing
  | some .braceOpen, some (.block .closing) =>
    match blockEnd builder.rest with
    | .error mismatch => (builder.recover mismatch).endBlock below earlier marker children none
    | .ok (finish, rest) =>
      ({ builder with rest }.noteWrongEnd opened finish.name).endBlock below earlier marker children
        (some finish)
  | _, _ =>
    (builder.note (.missingEnd opened builder.rest.head?) (.at builder.rest)).endBlock below earlier
      marker children none

def step (builder : Builder τ) : Option (Builder τ) :=
  if builder.wantsChild then some builder.readChild
  else
    match builder.frames with
    | .element head angle children :: below =>
      some (builder.finishContent below head angle children)
    | .block earlier marker children :: below =>
      some (builder.finishBranch below earlier marker children)
    | [] =>
      match builder.rest with
      | [] => none
      | token :: rest => some (builder.dropUnexpected token rest)

end Builder

end Template.Concrete
