import Mathlib.Data.List.Nodup
import Template.CommandLine
import Template.Proofs.Document.Decoding
import Template.Proofs.Json.Printing
import Template.Proofs.Json.Reading

set_option autoImplicit false

namespace Template

open Json (record)

mutual

/-- No object in a value has two fields of one name. -/
def Json.Distinct : Json → Prop
  | .array items => Json.AllDistinct items
  | .object fields => (fields.map Prod.fst).Nodup ∧ Json.FieldsDistinct fields
  | .null | .bool _ | .number _ | .string _ => True

def Json.AllDistinct : List Json → Prop
  | [] => True
  | item :: rest => item.Distinct ∧ Json.AllDistinct rest

def Json.FieldsDistinct : List (Text × Json) → Prop
  | [] => True
  | (_, value) :: rest => value.Distinct ∧ Json.FieldsDistinct rest

end

theorem Json.allDistinct_map {α : Type} {encode : α → Json}
    (each : ∀ value, (encode value).Distinct) (values : List α) :
    AllDistinct (values.map encode) := by
  induction values with
  | nil => trivial
  | cons value rest ih => exact ⟨each value, ih⟩

theorem Json.distinct_record {fields : List (String × Json)}
    (names : (fields.map Prod.fst).Nodup) (each : ∀ field ∈ fields, field.2.Distinct) :
    (record fields).Distinct := by
  constructor
  · have texts := names.map fun _ _ => String.toList_inj.mp
    rw [List.map_map] at texts ⊢
    exact texts
  · induction fields with
    | nil => trivial
    | cons field rest ih =>
      obtain ⟨here, later⟩ := List.forall_mem_cons.mp each
      exact ⟨here, ih (List.nodup_cons.mp names).2 later⟩

section Distinct

open Json (distinct_record allDistinct_map)

attribute [local simp] Json.Distinct Json.word

@[simp] theorem Point.distinct_toJson (point : Point) : point.toJson.Distinct :=
  distinct_record (by simp) (by simp)

@[simp] theorem Span.distinct_toJson (span : Span) : span.toJson.Distinct :=
  distinct_record (by simp) (by simp)

@[simp] theorem Fragment.distinct_toJson (fragment : Fragment) : fragment.toJson.Distinct :=
  distinct_record (by simp) (by simp)

@[simp] theorem Fragment.distinct_toTyped (type : String) (fragment : Fragment) :
    (fragment.toTyped type).Distinct :=
  distinct_record (by simp) (by simp)

@[simp] theorem Fragment.distinct_ofOption (script : Option Fragment) :
    (Json.ofOption toJson script).Distinct := by
  cases script with
  | none => trivial
  | some fragment => exact fragment.distinct_toJson

@[simp] theorem ValuePart.distinct_toJson (part : ValuePart) : part.toJson.Distinct := by
  cases part <;> exact Fragment.distinct_toTyped _ _

theorem Attribute.distinct_toJson (entry : Attribute) : entry.toJson.Distinct := by
  have shorthand : entry.shorthand.toJson.Distinct := by cases entry.shorthand <;> trivial
  have modifiers := allDistinct_map Fragment.distinct_toJson entry.modifiers
  have value := allDistinct_map ValuePart.distinct_toJson entry.value
  unfold toJson
  cases entry.specifier with
  | none =>
    exact distinct_record (by simp) (by simp [shorthand, modifiers, value])
  | some specifier =>
    exact distinct_record (by simp) (by simp [shorthand, modifiers, value])

mutual

theorem Node.distinct_toJson : ∀ node : Node, node.toJson.Distinct
  | .tag type name selfClosing attributes children span => by
    have inside := Node.allDistinct_toJsons children
    have attributes' := allDistinct_map Attribute.distinct_toJson attributes
    exact distinct_record (by simp) (by simp [inside, attributes'])
  | .single name script span =>
    distinct_record (by simp) (by simp)
  | .block name branches span => by
    have inside := Branch.allDistinct_toJsons branches
    exact distinct_record (by simp) (by simp [inside])
  | .expression fragment | .text fragment | .comment fragment => fragment.distinct_toTyped _

theorem Branch.distinct_toJson : ∀ branch : Branch, branch.toJson.Distinct
  | ⟨name, script, children, span⟩ => by
    have inside := Node.allDistinct_toJsons children
    exact distinct_record (by simp) (by simp [inside])

theorem Node.allDistinct_toJsons : ∀ nodes : List Node, Json.AllDistinct (Node.toJsons nodes)
  | [] => trivial
  | node :: rest => ⟨Node.distinct_toJson node, Node.allDistinct_toJsons rest⟩

theorem Branch.allDistinct_toJsons : ∀ branches : List Branch,
    Json.AllDistinct (Branch.toJsons branches)
  | [] => trivial
  | branch :: rest => ⟨Branch.distinct_toJson branch, Branch.allDistinct_toJsons rest⟩

end

theorem Problem.distinct_toJson (problem : Problem) : problem.toJson.Distinct :=
  distinct_record (by simp) (by simp)

@[simp] theorem Document.distinct_toJson (document : Document) : document.toJson.Distinct :=
  distinct_record (by simp) (by simp [Node.allDistinct_toJsons])

theorem Parsed.distinct_toJson (parsed : Parsed) : parsed.toJson.Distinct := by
  have problems := allDistinct_map Problem.distinct_toJson parsed.problems
  exact distinct_record (by simp) (by simp [problems])

end Distinct

/-- What is printed of a result, in one of the two layouts. -/
def Parsed.printed (compact : Bool) (parsed : Parsed) : Text :=
  (if compact then parsed.toJson.compact else parsed.toJson.pretty 0) ++ ['\n']

theorem Parsed.denoted_printed (compact : Bool) (parsed : Parsed) :
    Json.Denoted (parsed.printed compact) parsed.toJson := by
  have feed : Json.Blank ['\n'] := List.forall_mem_singleton.mpr rfl
  cases compact with
  | true =>
    show Json.Denoted ([] ++ (parsed.toJson.compact ++ ['\n'])) _
    exact .mk Json.blank_nil (Json.denotes_compact _) feed
  | false =>
    show Json.Denoted ([] ++ (parsed.toJson.pretty 0 ++ ['\n'])) _
    exact .mk Json.blank_nil (Json.denotes_pretty 0 _) feed

/-- What is printed determines the result. It is what the command prints, in both layouts it is a
text of the same value and of no other, no object in which names a field twice, and a reader of JSON
that decodes this value gets the result back. So no other result is printed like it. -/
theorem Parsed.print_determines (compact : Bool) (parsed : Parsed) :
    (∀ keepTrailing source, parse { trimEnd := !keepTrailing } source = parsed →
      (CommandLine.answerParse compact keepTrailing source).output = parsed.printed compact) ∧
    (∀ value, Json.Denoted (parsed.printed compact) value ↔ value = parsed.toJson) ∧
    parsed.toJson.Distinct ∧
    (Json.read? (parsed.printed compact)).bind ofJson? = some parsed ∧
    ∀ (again : Bool) (other : Parsed), other.printed again = parsed.printed compact →
      other = parsed := by
  have denoted := parsed.denoted_printed compact
  have read : (Json.read? (parsed.printed compact)).bind ofJson? = some parsed := by
    rw [denoted.read?_eq]
    exact parsed.ofJson?_toJson
  refine ⟨?_, ?_, parsed.distinct_toJson, read, ?_⟩
  · rintro keepTrailing source rfl
    rfl
  · intro value
    constructor
    · intro other
      exact other.unique denoted
    · rintro rfl
      exact denoted
  · intro again other same
    have decoded := congrArg Json.read? same
    rw [denoted.read?_eq, (other.denoted_printed again).read?_eq] at decoded
    have back := other.ofJson?_toJson
    rw [Option.some.inj decoded, parsed.ofJson?_toJson] at back
    exact (Option.some.inj back).symm

end Template
