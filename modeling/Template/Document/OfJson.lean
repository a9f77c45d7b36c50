import Template.Document.Json

set_option autoImplicit false

namespace Template

namespace Json

def asText? : Json → Option Text
  | string value => some value
  | _ => none

def asWord? (json : Json) : Option String := json.asText?.map String.ofList

def asNumber? : Json → Option Nat
  | number value => some value
  | _ => none

def asBool? : Json → Option Bool
  | bool value => some value
  | _ => none

def arrayOf? {α : Type} (decode : Json → Option α) : Json → Option (List α)
  | array items => items.mapM decode
  | _ => none

def optionOf? {α : Type} (decode : Json → Option α) : Json → Option (Option α)
  | null => some none
  | value => (decode value).map some

def fieldOf? {α : Type} (decode : Json → Option α) (name : String) (json : Json) : Option α :=
  (json.field? name).bind decode

end Json

open Json (asText? asWord? asNumber? asBool? arrayOf? optionOf? fieldOf?)

def Point.ofJson? (json : Json) : Option Point := do
  let line ← json.fieldOf? asNumber? "line"
  let column ← json.fieldOf? asNumber? "column"
  let offset ← json.fieldOf? asNumber? "offset"
  return ⟨line, column, offset⟩

def Span.ofJson? (json : Json) : Option Span := do
  let start ← json.fieldOf? Point.ofJson? "start"
  let stop ← json.fieldOf? Point.ofJson? "end"
  return ⟨start, stop⟩

/-- Reads a fragment. Of which kind it is plays no part. -/
def Fragment.ofJson? (json : Json) : Option Fragment := do
  let value ← json.fieldOf? asText? "value"
  let span ← json.fieldOf? Span.ofJson? "position"
  return ⟨value, span⟩

def ValuePart.ofJson? (json : Json) : Option ValuePart := do
  let type ← json.fieldOf? asWord? "type"
  let fragment ← Fragment.ofJson? json
  if type = "text" then return .text fragment
  else if type = "expression" then return .expression fragment
  else none

def Shorthand.ofJson? (json : Json) : Option Shorthand := do
  let word ← json.asWord?
  if word = "boolean" then return .boolean
  else if word = "none" then return .none
  else if word = "expression" then return .expression
  else none

/-- The specifier of an attribute of some type: a directive has one. -/
def Attribute.specifier? (json : Json) (type : String) : Option (Option Text) :=
  if type = "property" then some none
  else if type = "directive" then (json.fieldOf? asText? "specifier").map some
  else none

def Attribute.ofJson? (json : Json) : Option Attribute := do
  let type ← json.fieldOf? asWord? "type"
  let name ← json.fieldOf? asText? "name"
  let specifier ← specifier? json type
  let shorthand ← json.fieldOf? Shorthand.ofJson? "shorthand"
  let modifiers ← json.fieldOf? (arrayOf? Fragment.ofJson?) "modifiers"
  let value ← json.fieldOf? (arrayOf? ValuePart.ofJson?) "value"
  let span ← json.fieldOf? Span.ofJson? "position"
  return ⟨name, specifier, shorthand, modifiers, value, span⟩

def TagType.ofName? (name : String) : Option TagType :=
  [element, component, namespaced, script, style].find? (·.name == name)

namespace Node

def tagOf? (json : Json) (type : TagType) (children : Option (List Node)) : Option Node := do
  let name ← json.fieldOf? asText? "tagName"
  let selfClosing ← json.fieldOf? asBool? "selfClosing"
  let attributes ← json.fieldOf? (arrayOf? Attribute.ofJson?) "properties"
  let span ← json.fieldOf? Span.ofJson? "position"
  return .tag type name selfClosing attributes (← children) span

def singleOf? (json : Json) : Option Node := do
  let name ← json.fieldOf? asText? "name"
  let script ← json.fieldOf? (optionOf? Fragment.ofJson?) "expression"
  let span ← json.fieldOf? Span.ofJson? "position"
  return .single name script span

def blockOf? (json : Json) (branches : Option (List Branch)) : Option Node := do
  let name ← json.fieldOf? asText? "name"
  let span ← json.fieldOf? Span.ofJson? "position"
  return .block name (← branches) span

/-- Reads a node, given the children and the branches that are in it. Its type says which of them
there must be. -/
def ofParts? (json : Json) (children : Option (List Node)) (branches : Option (List Branch)) :
    Option Node := do
  let type ← json.fieldOf? asWord? "type"
  match TagType.ofName? type with
  | some type => tagOf? json type children
  | none =>
    if type = "voidBlock" then singleOf? json
    else if type = "branchingBlock" then blockOf? json branches
    else if type = "expression" then (Fragment.ofJson? json).map .expression
    else if type = "text" then (Fragment.ofJson? json).map .text
    else if type = "comment" then (Fragment.ofJson? json).map .comment
    else none

end Node

def Branch.ofParts? (json : Json) (children : Option (List Node)) : Option Branch := do
  let name ← json.fieldOf? asText? "name"
  let script ← json.fieldOf? (optionOf? Fragment.ofJson?) "expression"
  let span ← json.fieldOf? Span.ofJson? "position"
  return ⟨name, script, ← children, span⟩

mutual

def Node.ofJson? : Json → Option Node
  | .object fields =>
    Node.ofParts? (.object fields) (Node.childrenIn? fields) (Branch.branchesIn? fields)
  | _ => none

def Branch.ofJson? : Json → Option Branch
  | .object fields => Branch.ofParts? (.object fields) (Node.childrenIn? fields)
  | _ => none

def Node.childrenIn? : List (Text × Json) → Option (List Node)
  | [] => none
  | (name, value) :: rest =>
    if name = "children".toList then Node.arrayOf? value else Node.childrenIn? rest

def Branch.branchesIn? : List (Text × Json) → Option (List Branch)
  | [] => none
  | (name, value) :: rest =>
    if name = "branches".toList then Branch.arrayOf? value else Branch.branchesIn? rest

def Node.arrayOf? : Json → Option (List Node)
  | .array items => Node.ofJsons? items
  | _ => none

def Branch.arrayOf? : Json → Option (List Branch)
  | .array items => Branch.ofJsons? items
  | _ => none

def Node.ofJsons? : List Json → Option (List Node)
  | [] => some []
  | item :: rest => do return (← Node.ofJson? item) :: (← Node.ofJsons? rest)

def Branch.ofJsons? : List Json → Option (List Branch)
  | [] => some []
  | item :: rest => do return (← Branch.ofJson? item) :: (← Branch.ofJsons? rest)

end

def Document.ofJson? (json : Json) : Option Document := do
  let children ← json.fieldOf? Node.arrayOf? "children"
  let span ← json.fieldOf? Span.ofJson? "position"
  return ⟨children, span⟩

def Stage.ofName? (name : String) : Option Stage :=
  [lexer, parser].find? (·.name == name.toList)

def Problem.ofJson? (json : Json) : Option Problem := do
  let source ← json.fieldOf? asWord? "source"
  let stage ← Stage.ofName? source
  let name ← json.fieldOf? asText? "name"
  let message ← json.fieldOf? asText? "message"
  let span ← json.fieldOf? Span.ofJson? "position"
  return ⟨stage, name, message, span⟩

def Parsed.ofJson? (json : Json) : Option Parsed := do
  let document ← json.fieldOf? Document.ofJson? "ast"
  let problems ← json.fieldOf? (arrayOf? Problem.ofJson?) "errors"
  return ⟨document, problems⟩

end Template
