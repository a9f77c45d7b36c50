import Template.Concrete.Builder
import Template.Concrete.Yield

set_option autoImplicit false

namespace Template.Concrete

open Terminal (kind tagName blockName)

variable {τ : Type} [Terminal τ]

/-- An optional token has a kind if it is there. -/
def IfAny (wanted : Kind) (token : Option τ) : Prop := ∀ found ∈ token, kind found = wanted

@[simp] theorem ifAny_none (wanted : Kind) : IfAny wanted (none : Option τ) :=
  fun _ found => nomatch found

@[simp] theorem ifAny_some (wanted : Kind) (token : τ) :
    IfAny wanted (some token) ↔ kind token = wanted := by
  simp only [IfAny, Option.mem_def, Option.some.injEq, forall_eq']

structure Braced.Formed (script : Braced τ) : Prop where
  opening : kind script.opening = .braceOpen
  blank : IfAny .blank script.blank
  content : kind script.content = .expression
  closing : kind script.closing = .braceClose

structure Marker.Formed (sigil : Sigil) (marker : Marker τ) : Prop where
  opening : kind marker.opening = .braceOpen
  name : kind marker.name = .block sigil
  blank : IfAny .blank marker.blank
  script : IfAny .expression marker.script
  closing : kind marker.closing = .braceClose

structure BlockEnd.Formed (finish : BlockEnd τ) : Prop where
  opening : kind finish.opening = .braceOpen
  name : kind finish.name = .block .closing
  blank : IfAny .blank finish.blank
  closing : kind finish.closing = .braceClose

structure CloseTag.Formed (close : CloseTag τ) : Prop where
  opening : kind close.opening = .closeTag
  blank : IfAny .blank close.blank
  angle : kind close.angle = .angle

def Part.Quoted (quote : Quote) : Part τ → Prop
  | text token => kind token = .quoted quote
  | braced script => script.Formed

def Part.Bare : Part τ → Prop
  | text token => kind token = .attributeText ∨ kind token = .slash
  | braced script => script.Formed

structure Modifier.Formed (modifier : Modifier τ) : Prop where
  pipe : kind modifier.pipe = .pipe
  name : kind modifier.name = .attributeText

/-- What is asked of the pieces of a value without quotes and the tokens after them, beside the
kinds. -/
abbrev Extent (τ : Type) := List (Part τ) → List τ → Prop

/-- Nothing but the kinds is asked. -/
def Extent.any : Extent τ := fun _ _ => True

/-- A value without quotes goes on for as long as it can, and a slash in it does not close the
tag. -/
def Extent.whole : Extent τ := fun parts after =>
  startsBare after = false ∧
    ∀ slash, parts.getLast? = some (.text slash) → kind slash = .slash →
      Rule.kind? after ≠ some .angle

variable (extent : Extent τ)

def Value.Formed : Value τ → List τ → Prop
  | .quoted quote opening parts closing, _ =>
    kind opening = .quoteOpen quote ∧ (∀ part ∈ parts, part.Quoted quote) ∧
      kind closing = .quoteClose quote
  | .bare parts, after => (∀ part ∈ parts, part.Bare) ∧ extent parts after

structure Assigned.Formed (assigned : Assigned τ) (after : List τ) : Prop where
  equal : kind assigned.equal = .equal
  value : assigned.value.Formed extent after

def Attribute.Formed : Attribute τ → List τ → Prop
  | .named name modifiers value, after =>
    kind name = .attributeText ∧ (∀ modifier ∈ modifiers, modifier.Formed) ∧
      ∀ assigned ∈ value, assigned.Formed extent after
  | .braced script, _ => script.Formed

structure Item.Formed (item : Item τ) (after : List τ) : Prop where
  blank : IfAny .blank item.blank
  entry : item.entry.Formed extent after

def Item.AllFormed : List (Item τ) → List τ → Prop
  | [], _ => True
  | item :: rest, after =>
    item.Formed extent (rest.flatMap Item.yield ++ after) ∧ Item.AllFormed rest after

structure Head.Formed (opener : Kind) (head : Head τ) (after : List τ) : Prop where
  opening : kind head.opening = opener
  items : Item.AllFormed extent head.items (head.blank.toList ++ after)
  blank : IfAny .blank head.blank

def RawBody.Formed (element : RawElement) : RawBody τ → Prop
  | .selfClosed closing => kind closing = .rawSelfClose
  | .content angle rest => kind angle = .rawAngle element ∧ kind rest = .rawRest element

/-- The name by which the elements around it know a child, if it is a tag. -/
def Child.tag? : Child τ → Option Text
  | .selfClosed head _ _ | .void head _ | .element head _ _ _ => some (Builder.nameOf head)
  | _ => none

/-- Where an element may end without a closing tag: at the end, at the closing tag of another
element, before an element that it does not hold, and at the end of a branch. -/
def EndsBefore (name : Text) (stops : List Text) : List τ → Prop
  | [] => True
  | token :: rest =>
    (kind token = .closeTag ∧ tagName token ≠ name) ∨
    (kind token = .openTag ∧ tagName token ∈ stops) ∨
    (kind token = .braceOpen ∧ (Rule.kind? rest = some (.block .continuing) ∨
      Rule.kind? rest = some (.block .closing)))

/-- How the content of an element ends: by its own closing tag, or without one where the element
may leave it out. -/
def ClosedBy (name : Text) (after : List τ) : Option (CloseTag τ) → Prop
  | some close => close.Formed ∧ tagName close.opening = name
  | none => ∃ stops, Element.stops? name = some stops ∧ EndsBefore name stops after

mutual

/-- A child inside so many elements and branches, with the tokens after it. -/
def Child.Formed (depth : Nat) : Child τ → List τ → Prop
  | .text token, _ => kind token = .text
  | .comment token, _ => kind token = .comment
  | .braced script, _ => script.Formed
  | .single marker, _ => marker.Formed .single
  | .block first others finish, after =>
    let last := finish.toList.flatMap BlockEnd.yield ++ after
    first.Formed depth .opening (Branch.yields others ++ last) ∧
      Branch.AllFormed depth others last ∧
      ∃ found ∈ finish, found.Formed ∧ blockName first.marker.name = blockName found.name
  | .raw element head body, after =>
    head.Formed extent (.rawOpen element) (body.yield ++ after) ∧ body.Formed element
  | .selfClosed head slash angle, after =>
    head.Formed extent .openTag (slash :: angle :: after) ∧ kind slash = .slash ∧
      kind angle = .angle
  | .void head angle, after =>
    head.Formed extent .openTag (angle :: after) ∧ kind angle = .angle ∧
      Element.isVoid (Builder.nameOf head) = true
  | .element head angle content close, after =>
    let last := close.toList.flatMap CloseTag.yield ++ after
    head.Formed extent .openTag (angle :: Child.yields content ++ last) ∧ kind angle = .angle ∧
      Element.isVoid (Builder.nameOf head) = false ∧ depth < maxNesting ∧
      (∀ child ∈ content, ∀ name ∈ child.tag?, ∀ stops ∈ Element.stops? (Builder.nameOf head),
        name ∉ stops) ∧
      Child.AllFormed (depth + 1) content last ∧ ClosedBy (Builder.nameOf head) after close

/-- A branch of a block inside so many elements and branches, with the tokens after it. -/
def Branch.Formed (depth : Nat) (sigil : Sigil) : Branch τ → List τ → Prop
  | ⟨marker, content⟩, after =>
    marker.Formed sigil ∧ depth < maxNesting ∧ Child.AllFormed (depth + 1) content after

def Child.AllFormed (depth : Nat) : List (Child τ) → List τ → Prop
  | [], _ => True
  | child :: rest, after =>
    child.Formed depth (Child.yields rest ++ after) ∧ Child.AllFormed depth rest after

def Branch.AllFormed (depth : Nat) : List (Branch τ) → List τ → Prop
  | [], _ => True
  | branch :: rest, after =>
    branch.Formed depth .continuing (Branch.yields rest ++ after) ∧
      Branch.AllFormed depth rest after

end

theorem Child.allFormed_append {extent : Extent τ} {depth : Nat} {first second : List (Child τ)}
    {after : List τ} :
    Child.AllFormed extent depth (first ++ second) after ↔
      Child.AllFormed extent depth first (Child.yields second ++ after) ∧
        Child.AllFormed extent depth second after := by
  induction first with
  | nil => simp only [List.nil_append, Child.AllFormed, true_and]
  | cons child rest ih =>
    simp only [List.cons_append, Child.AllFormed, ih, Child.yields_append, List.append_assoc,
      and_assoc]

theorem Branch.allFormed_append {extent : Extent τ} {depth : Nat} {first second : List (Branch τ)}
    {after : List τ} :
    Branch.AllFormed extent depth (first ++ second) after ↔
      Branch.AllFormed extent depth first (Branch.yields second ++ after) ∧
        Branch.AllFormed extent depth second after := by
  induction first with
  | nil => simp only [List.nil_append, Branch.AllFormed, true_and]
  | cons branch rest ih =>
    simp only [List.cons_append, Branch.AllFormed, ih, Branch.yields_append, List.append_assoc,
      and_assoc]

/-- A whole tree. Nothing comes after it. -/
def WellFormed (children : List (Child τ)) : Prop := Child.AllFormed extent 0 children []

end Template.Concrete
