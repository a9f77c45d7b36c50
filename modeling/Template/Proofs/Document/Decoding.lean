import Template.Document.OfJson

set_option autoImplicit false

namespace Template

open Json (record fieldOf? arrayOf? optionOf?)

namespace Json

theorem field?_record (name : String) (fields : List (String × Json)) :
    (record fields).field? name = fields.lookup name := by
  show List.lookup name.toList _ = _
  induction fields with
  | nil => rfl
  | cons field rest ih =>
    have same : (name.toList == field.1.toList) = (name == field.1) := by
      rw [Bool.eq_iff_iff, beq_iff_eq, beq_iff_eq, String.toList_inj]
    rw [List.map_cons, List.lookup_cons, List.lookup_cons, same, ih]

@[simp] theorem fieldOf?_record {α : Type} (decode : Json → Option α) (name : String)
    (fields : List (String × Json)) :
    (record fields).fieldOf? decode name = (fields.lookup name).bind decode := by
  rw [fieldOf?, field?_record]

@[simp] theorem asText?_string (text : Text) : asText? (.string text) = some text := rfl

@[simp] theorem asWord?_word (word : String) : asWord? (.word word) = some word :=
  congrArg some String.ofList_toList

@[simp] theorem asNumber?_number (value : Nat) : asNumber? (.number value) = some value := rfl

@[simp] theorem asBool?_bool (value : Bool) : asBool? (.bool value) = some value := rfl

variable {α : Type} {encode : α → Json} {decode : Json → Option α}

theorem arrayOf?_map (back : ∀ value, decode (encode value) = some value) (values : List α) :
    arrayOf? decode (.array (values.map encode)) = some values := by
  rw [arrayOf?]
  induction values with
  | nil => rfl
  | cons value rest ih =>
    rw [List.map_cons, List.mapM_cons, back, ih]
    rfl

theorem optionOf?_ofOption (back : ∀ value, decode (encode value) = some value)
    (different : ∀ value, encode value ≠ .null) (value : Option α) :
    optionOf? decode (.ofOption encode value) = some value := by
  cases value with
  | none => rfl
  | some value =>
    rw [ofOption, optionOf?, back]
    · rfl
    · exact different value

end Json

@[simp] theorem Point.ofJson?_toJson (point : Point) : ofJson? point.toJson = some point := by
  simp [ofJson?, toJson, List.lookup_cons]

@[simp] theorem Span.ofJson?_toJson (span : Span) : ofJson? span.toJson = some span := by
  simp [ofJson?, toJson, List.lookup_cons]

@[simp] theorem Fragment.ofJson?_toJson (fragment : Fragment) :
    ofJson? fragment.toJson = some fragment := by
  simp [ofJson?, toJson, List.lookup_cons]

@[simp] theorem Fragment.ofJson?_toTyped (type : String) (fragment : Fragment) :
    ofJson? (fragment.toTyped type) = some fragment := by
  simp [ofJson?, toTyped, List.lookup_cons]

@[simp] theorem Fragment.type_toTyped (type : String) (fragment : Fragment) :
    (fragment.toTyped type).fieldOf? Json.asWord? "type" = some type := by
  simp [toTyped]

@[simp] theorem ValuePart.ofJson?_toJson (part : ValuePart) : ofJson? part.toJson = some part := by
  cases part <;> simp [ofJson?, toJson]

@[simp] theorem Shorthand.ofJson?_toJson (shorthand : Shorthand) :
    ofJson? shorthand.toJson = some shorthand := by
  cases shorthand <;> simp [ofJson?, toJson]

@[simp] theorem Attribute.ofJson?_toJson (entry : Attribute) :
    ofJson? entry.toJson = some entry := by
  obtain ⟨name, specifier, shorthand, modifiers, value, span⟩ := entry
  have modifiers' := Json.arrayOf?_map Fragment.ofJson?_toJson modifiers
  have value' := Json.arrayOf?_map ValuePart.ofJson?_toJson value
  cases specifier <;>
    simp [ofJson?, toJson, specifier?, List.lookup_cons, modifiers', value']

@[simp] theorem TagType.ofName?_name (type : TagType) : ofName? type.name = some type := by
  cases type <;> rfl

theorem Fragment.toJson_ne_null (fragment : Fragment) : fragment.toJson ≠ .null :=
  fun same => nomatch same

@[simp] theorem Fragment.optionOf?_ofOption (script : Option Fragment) :
    optionOf? ofJson? (.ofOption toJson script) = some script :=
  Json.optionOf?_ofOption ofJson?_toJson toJson_ne_null script

/-- A search through the fields that decodes the first one of a name finds what this field is. -/
theorem Json.search_eq {α : Type} {decode : Json → Option α} {name : String}
    {search : List (Text × Json) → Option α} (nothing : search [] = none)
    (first : ∀ here value rest, search ((here, value) :: rest) =
      if here = name.toList then decode value else search rest) (fields : List (Text × Json)) :
    search fields = (Json.object fields).fieldOf? decode name := by
  show _ = Option.bind (List.lookup _ _) _
  induction fields with
  | nil => exact nothing
  | cons field rest ih =>
    obtain ⟨here, value⟩ := field
    rw [first, ih, List.lookup_cons]
    by_cases same : here = name.toList
    · rw [if_pos same, same, beq_self_eq_true]
      rfl
    · rw [if_neg same, beq_eq_false_iff_ne.mpr (Ne.symm same)]

theorem Node.childrenIn?_eq (fields : List (Text × Json)) :
    childrenIn? fields = (Json.object fields).fieldOf? Node.arrayOf? "children" :=
  Json.search_eq rfl (fun _ _ _ => rfl) fields

theorem Branch.branchesIn?_eq (fields : List (Text × Json)) :
    branchesIn? fields = (Json.object fields).fieldOf? Branch.arrayOf? "branches" :=
  Json.search_eq rfl (fun _ _ _ => rfl) fields

theorem Node.ofJson?_record (fields : List (String × Json)) :
    ofJson? (record fields) = ofParts? (record fields)
      ((record fields).fieldOf? Node.arrayOf? "children")
      ((record fields).fieldOf? Branch.arrayOf? "branches") := by
  rw [record, ofJson?, childrenIn?_eq, Branch.branchesIn?_eq]

theorem Branch.ofJson?_record (fields : List (String × Json)) :
    ofJson? (record fields) = ofParts? (record fields)
      ((record fields).fieldOf? Node.arrayOf? "children") := by
  rw [record, ofJson?, Node.childrenIn?_eq]

/-- A fragment of a kind that is no tag and no block is read by this kind. -/
theorem Node.ofJson?_toTyped (type : String) (fragment : Fragment) :
    ofJson? (fragment.toTyped type) = ofParts? (fragment.toTyped type) none none := by
  rw [Fragment.toTyped, ofJson?_record]
  simp [List.lookup_cons]

mutual

@[simp] theorem Node.ofJson?_toJson : ∀ node : Node, Node.ofJson? node.toJson = some node
  | .tag type name selfClosing attributes children span => by
    have inside := Node.ofJsons?_toJsons children
    have attributes' := Json.arrayOf?_map Attribute.ofJson?_toJson attributes
    rw [Node.toJson, Node.ofJson?_record]
    simp [Node.ofParts?, Node.tagOf?, List.lookup_cons, Node.arrayOf?, inside, attributes']
  | .single name script span => by
    have other : TagType.ofName? "voidBlock" = none := by decide
    rw [Node.toJson, Node.ofJson?_record]
    simp [Node.ofParts?, Node.singleOf?, List.lookup_cons, other]
  | .block name branches span => by
    have other : TagType.ofName? "branchingBlock" = none := by decide
    have inside := Branch.ofJsons?_toJsons branches
    rw [Node.toJson, Node.ofJson?_record]
    simp [Node.ofParts?, Node.blockOf?, List.lookup_cons, other, Branch.arrayOf?, inside]
  | .expression fragment => by
    have other : TagType.ofName? "expression" = none := by decide
    rw [Node.toJson, Node.ofJson?_toTyped]
    simp [Node.ofParts?, other]
  | .text fragment => by
    have other : TagType.ofName? "text" = none := by decide
    rw [Node.toJson, Node.ofJson?_toTyped]
    simp [Node.ofParts?, other]
  | .comment fragment => by
    have other : TagType.ofName? "comment" = none := by decide
    rw [Node.toJson, Node.ofJson?_toTyped]
    simp [Node.ofParts?, other]

theorem Branch.ofJson?_toJson : ∀ branch : Branch, Branch.ofJson? branch.toJson = some branch
  | ⟨name, script, children, span⟩ => by
    have inside := Node.ofJsons?_toJsons children
    rw [Branch.toJson, Branch.ofJson?_record]
    simp [Branch.ofParts?, List.lookup_cons, Node.arrayOf?, inside]

theorem Node.ofJsons?_toJsons : ∀ nodes : List Node, Node.ofJsons? (Node.toJsons nodes) = some nodes
  | [] => rfl
  | node :: rest => by
    rw [Node.toJsons, Node.ofJsons?, Node.ofJson?_toJson node, Node.ofJsons?_toJsons rest]
    rfl

theorem Branch.ofJsons?_toJsons : ∀ branches : List Branch,
    Branch.ofJsons? (Branch.toJsons branches) = some branches
  | [] => rfl
  | branch :: rest => by
    rw [Branch.toJsons, Branch.ofJsons?, Branch.ofJson?_toJson branch, Branch.ofJsons?_toJsons rest]
    rfl

end

theorem Document.ofJson?_toJson (document : Document) :
    ofJson? document.toJson = some document := by
  simp [ofJson?, toJson, List.lookup_cons, Node.arrayOf?, Node.ofJsons?_toJsons]

theorem Stage.asWord?_name (stage : Stage) :
    (Json.asWord? (.string stage.name)).bind ofName? = some stage := by
  cases stage <;> decide

theorem Problem.ofJson?_toJson (problem : Problem) : ofJson? problem.toJson = some problem := by
  have stage := problem.stage.asWord?_name
  simp [ofJson?, toJson, List.lookup_cons, ← Option.bind_assoc, stage]

theorem Parsed.ofJson?_toJson (parsed : Parsed) : ofJson? parsed.toJson = some parsed := by
  have problems := Json.arrayOf?_map Problem.ofJson?_toJson parsed.problems
  simp [ofJson?, toJson, List.lookup_cons, Document.ofJson?_toJson, problems]

end Template
