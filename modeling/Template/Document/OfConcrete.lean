import Template.Concrete
import Template.Document
import Template.Text.Blank
import Template.Text.Uppercase
import Template.Token

set_option autoImplicit false

namespace Template

open Concrete (Braced Marker Value Item Head RawBody CloseTag)

def Fragment.ofToken (token : Token) : Fragment := ⟨token.image, token.span⟩

/-- A braced script, spanning its braces. -/
def Fragment.ofBraced (script : Braced Token) : Fragment :=
  ⟨script.content.image, script.opening.start, script.closing.after⟩

def Fragment.ofComment (token : Token) : Fragment :=
  ⟨Text.dropFinish ['-', '-', '>'] (Text.dropStart ['<', '!', '-', '-'] token.image), token.span⟩

/-- The content of a raw element, whose token ends with the end tag. -/
def Fragment.ofRaw (element : RawElement) (token : Token) : Fragment :=
  let tail := Text.size element.endTag.toList
  ⟨((Text.cut? (token.image.size - tail) token.image).map Prod.fst).getD [],
    token.start, token.after.back tail⟩

namespace ValuePart

/-- The pieces of a value. Neighbouring texts become one. -/
def ofParts : List (Concrete.Part Token) → List ValuePart
  | [] => []
  | .braced script :: rest => .expression (.ofBraced script) :: ofParts rest
  | .text token :: rest =>
    match ofParts rest with
    | .text after :: more =>
      .text ⟨token.image ++ after.value, token.start, after.span.stop⟩ :: more
    | more => .text (.ofToken token) :: more

end ValuePart

namespace Attribute

/-- The pieces of a value and where it ends, given its equals sign. -/
def valueOf (equal : Token) : Value Token → List ValuePart × Point
  | .quoted _ _ parts closing => (ValuePart.ofParts parts, closing.after)
  | .bare parts =>
    let pieces := ValuePart.ofParts parts
    (pieces, (pieces.getLast?.map fun piece => piece.span.stop).getD equal.after)

def ofNamed (name : Token) (modifiers : List (Concrete.Modifier Token))
    (assigned : Option (Concrete.Assigned Token)) : Attribute :=
  let nameEnd := (modifiers.getLast?.map fun modifier => modifier.name.after).getD name.after
  let (value, finish) :=
    match assigned with
    | none => ([], nameEnd)
    | some assigned => valueOf assigned.equal assigned.value
  let fragments := modifiers.map fun modifier => Fragment.ofToken modifier.name
  let span : Span := ⟨name.start, finish⟩
  match Text.splitColon? name.image with
  | some (name, specifier) => ⟨name, some specifier, .none, fragments, value, span⟩
  | none =>
    ⟨name.image, none, if assigned.isSome then .none else .boolean, fragments, value, span⟩

/-- An attribute that is a braced script. The script is its value, and without the blanks around it
its name. -/
def ofScript (script : Fragment) : Attribute :=
  ⟨Text.trim script.value, none, .expression, [], [.expression script], script.span⟩

def ofItem (item : Item Token) : Attribute :=
  match item.entry with
  | .named name modifiers assigned => ofNamed name modifiers assigned
  | .braced script => ofScript (.ofBraced script)

end Attribute

/-- What a tag with this name stands for, and the name it goes by. -/
def TagType.ofName (name : Text) : TagType × Text :=
  match Text.splitColon? name with
  | some (_, rest) => (.namespaced, rest)
  | none => (if name.head?.any Text.isUpper then .component else .element, name)

def TagType.ofRaw : RawElement → TagType
  | .script => .script
  | .style => .style
  | .textArea => .element

namespace Node

def ofHead (head : Head Token) (selfClosing : Bool) (children : List Node) (finish : Point) :
    Node :=
  let (type, name) := TagType.ofName head.opening.tagName
  .tag type name selfClosing (head.items.map .ofItem) children ⟨head.opening.start, finish⟩

def ofRaw (element : RawElement) (head : Head Token) (body : RawBody Token) : Node :=
  let (selfClosing, children, finish) :=
    match body with
    | .selfClosed closing => (true, [], closing.after)
    | .content _ rest => (false, [Node.text (.ofRaw element rest)], rest.after)
  .tag (.ofRaw element) head.opening.tagName selfClosing (head.items.map .ofItem) children
    ⟨head.opening.start, finish⟩

/-- Where some nodes end, or where nothing follows a point. -/
def lastOr (point : Point) (nodes : List Node) : Point :=
  (nodes.getLast?.map fun node => node.span.stop).getD point

mutual

def ofChild : Concrete.Child Token → Node
  | .text token => .text (.ofToken token)
  | .comment token => .comment (.ofComment token)
  | .braced script => .expression (.ofBraced script)
  | .single marker =>
    .single marker.name.blockName (marker.script.map .ofToken)
      ⟨marker.opening.start, marker.closing.after⟩
  | .block first others finish =>
    let start := ofBranch first
    let rest := ofBranches others
    let last :=
      match finish with
      | some finish => finish.closing.after
      | none => (rest.getLast?.getD start).span.stop
    .block start.name (start :: rest) ⟨start.span.start, last⟩
  | .raw element head body => ofRaw element head body
  | .selfClosed head _ angle => ofHead head true [] angle.after
  | .void head angle => ofHead head false [] angle.after
  | .element head angle content close =>
    let children := ofChildren content
    let finish :=
      match close with
      | some close => close.angle.after
      | none => lastOr angle.after children
    ofHead head false children finish

def ofBranch : Concrete.Branch Token → Branch
  | ⟨marker, content⟩ =>
    let children := ofChildren content
    { name := marker.name.blockName
      script := marker.script.map .ofToken
      children
      span := ⟨marker.opening.start, lastOr marker.closing.after children⟩ }

def ofChildren : List (Concrete.Child Token) → List Node
  | [] => []
  | child :: rest => ofChild child :: ofChildren rest

def ofBranches : List (Concrete.Branch Token) → List Branch
  | [] => []
  | branch :: rest => ofBranch branch :: ofBranches rest

end

theorem ofChildren_eq (children : List (Concrete.Child Token)) :
    ofChildren children = children.map ofChild := by
  induction children with
  | nil => rfl
  | cons child rest ih => rw [ofChildren, ih, List.map_cons]

theorem ofBranches_eq (branches : List (Concrete.Branch Token)) :
    ofBranches branches = branches.map ofBranch := by
  induction branches with
  | nil => rfl
  | cons branch rest ih => rw [ofBranches, ih, List.map_cons]

end Node

namespace Document

/-- The document of some nodes, from the first of them to the last. -/
def ofNodes (nodes : List Node) : Document :=
  match nodes with
  | [] => ⟨[], .empty .origin⟩
  | first :: rest => ⟨nodes, first.span.start, Node.lastOr first.span.stop rest⟩

def ofConcrete (children : List (Concrete.Child Token)) : Document :=
  ofNodes (Node.ofChildren children)

end Document

end Template
