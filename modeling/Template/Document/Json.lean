import Template.Json
import Template.Parse

set_option autoImplicit false

namespace Template

open Json (record)

def Point.toJson (point : Point) : Json :=
  record [("line", .number point.line), ("column", .number point.column),
    ("offset", .number point.offset)]

def Span.toJson (span : Span) : Json :=
  record [("start", span.start.toJson), ("end", span.stop.toJson)]

def Json.word (word : String) : Json := .string word.toList

def Fragment.toJson (fragment : Fragment) : Json :=
  record [("value", .string fragment.value), ("position", fragment.span.toJson)]

def Fragment.toTyped (type : String) (fragment : Fragment) : Json :=
  record [("type", .word type), ("value", .string fragment.value),
    ("position", fragment.span.toJson)]

def ValuePart.toJson : ValuePart → Json
  | text fragment => fragment.toTyped "text"
  | expression fragment => fragment.toTyped "expression"

def Shorthand.toJson : Shorthand → Json
  | boolean => .word "boolean"
  | none => .word "none"
  | expression => .word "expression"

def Attribute.toJson (entry : Attribute) : Json :=
  let rest := [("shorthand", entry.shorthand.toJson),
    ("modifiers", Json.array (entry.modifiers.map Fragment.toJson)),
    ("value", Json.array (entry.value.map ValuePart.toJson)),
    ("position", entry.span.toJson)]
  match entry.specifier with
  | none => record ([("type", .word "property"), ("name", .string entry.name)] ++ rest)
  | some specifier =>
    record ([("type", .word "directive"), ("name", .string entry.name),
      ("specifier", .string specifier)] ++ rest)

def TagType.name : TagType → String
  | element => "element"
  | component => "component"
  | namespaced => "meta"
  | script => "script"
  | style => "style"

def Node.type : Node → String
  | tag type _ _ _ _ _ => type.name
  | single _ _ _ => "voidBlock"
  | block _ _ _ => "branchingBlock"
  | expression _ => "expression"
  | text _ => "text"
  | comment _ => "comment"

mutual

def Node.toJson : Node → Json
  | .tag type name selfClosing attributes children span =>
    record [("type", .word type.name), ("tagName", .string name),
      ("selfClosing", .bool selfClosing),
      ("properties", .array (attributes.map Attribute.toJson)),
      ("children", .array (Node.toJsons children)), ("position", span.toJson)]
  | .single name script span =>
    record [("type", .word "voidBlock"), ("name", .string name),
      ("expression", .ofOption Fragment.toJson script), ("position", span.toJson)]
  | .block name branches span =>
    record [("type", .word "branchingBlock"), ("name", .string name),
      ("branches", .array (Branch.toJsons branches)), ("position", span.toJson)]
  | .expression fragment => fragment.toTyped "expression"
  | .text fragment => fragment.toTyped "text"
  | .comment fragment => fragment.toTyped "comment"

def Branch.toJson : Branch → Json
  | ⟨name, script, children, span⟩ =>
    record [("name", .string name), ("expression", .ofOption Fragment.toJson script),
      ("children", .array (Node.toJsons children)), ("position", span.toJson)]

def Node.toJsons : List Node → List Json
  | [] => []
  | node :: rest => node.toJson :: Node.toJsons rest

def Branch.toJsons : List Branch → List Json
  | [] => []
  | branch :: rest => branch.toJson :: Branch.toJsons rest

end

theorem Node.toJsons_eq (nodes : List Node) : Node.toJsons nodes = nodes.map Node.toJson := by
  induction nodes with
  | nil => rfl
  | cons node rest ih => rw [Node.toJsons, ih, List.map_cons]

theorem Branch.toJsons_eq (branches : List Branch) :
    Branch.toJsons branches = branches.map Branch.toJson := by
  induction branches with
  | nil => rfl
  | cons branch rest ih => rw [Branch.toJsons, ih, List.map_cons]

def Document.toJson (document : Document) : Json :=
  record [("children", .array (Node.toJsons document.children)),
    ("position", document.span.toJson)]

def Problem.toJson (problem : Problem) : Json :=
  record [("source", .string problem.stage.name), ("name", .string problem.name),
    ("message", .string problem.message), ("position", problem.span.toJson)]

def Parsed.toJson (parsed : Parsed) : Json :=
  record [("ast", parsed.document.toJson), ("errors", .array (parsed.problems.map Problem.toJson))]

end Template
