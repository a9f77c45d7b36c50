import Mathlib.Data.List.Forall2
import Template.Concrete.Formed
import Template.Document.OfConcrete

set_option autoImplicit false

namespace Template

open Concrete (Child Braced Marker BlockEnd CloseTag Item Head RawBody)

/-- A span from the first of some tokens to the last. -/
structure Span.Covers (tokens : List Token) (span : Span) : Prop where
  start : tokens.head?.map Token.start = some span.start
  stop : tokens.getLast?.map Token.after = some span.stop

namespace Token

def images (tokens : List Token) : Text := tokens.flatMap image

theorem images_append (front back : List Token) :
    images (front ++ back) = images front ++ images back := List.flatMap_append

end Token

namespace Span

theorem covers_append {front back : List Token} {start stop : Point}
    (begins : front.head?.map Token.start = some start)
    (ends : back.getLast?.map Token.after = some stop) : Covers (front ++ back) ⟨start, stop⟩ := by
  constructor
  · rw [List.head?_append, Option.map_or, begins]
    rfl
  · rw [List.getLast?_append, Option.map_or, ends]
    rfl

/-- Some tokens end with the last one after the first, or with the first if there is no other. -/
theorem stop_cons (token : Token) (rest : List Token) :
    (token :: rest).getLast?.map Token.after =
      some ((rest.getLast?.map Token.after).getD token.after) := by
  rw [List.getLast?_cons, Option.map_some, Option.getD_map]

end Span

theorem Fragment.ofToken_covers (token : Token) : (ofToken token).span.Covers [token] := ⟨rfl, rfl⟩

theorem Fragment.ofBraced_covers (script : Braced Token) :
    (ofBraced script).span.Covers script.yield := Span.covers_append rfl rfl

/-- A marker, from its brace to its brace. -/
theorem Concrete.Marker.covers (marker : Marker Token) :
    Span.Covers marker.yield ⟨marker.opening.start, marker.closing.after⟩ :=
  Span.covers_append rfl rfl

/-- The last token of a marker comes before the content of its branch. -/
theorem Concrete.Branch.yield_eq (marker : Marker Token) (content : List (Child Token)) :
    Branch.yield ⟨marker, content⟩ =
      ([marker.opening, marker.name] ++ marker.blank.toList ++ marker.script.toList) ++
        marker.closing :: Child.yields content := by
  rw [Branch.yield, Marker.yield, List.append_assoc _ [marker.closing]]
  rfl

/-- A piece of a value that says what some tokens say. A text may come from several of them. -/
inductive ValuePart.Of : ValuePart → List Token → Prop where
  | text {fragment : Fragment} {tokens : List Token} (covers : fragment.span.Covers tokens)
      (same : fragment.value = Token.images tokens) : Of (.text fragment) tokens
  | expression {script : Braced Token} (formed : script.Formed) :
      Of (.expression (.ofBraced script)) script.yield

theorem ValuePart.Of.covers {piece : ValuePart} {tokens : List Token} (of : piece.Of tokens) :
    piece.span.Covers tokens := by
  cases of with
  | text covers => exact covers
  | expression => exact Fragment.ofBraced_covers _

namespace Attribute

/-- The pieces of a value are made from its tokens group by group. -/
theorem ofParts_of {parts : List (Concrete.Part Token)}
    (formed : ∀ script, .braced script ∈ parts → script.Formed) :
    ∃ groups : List (List Token), groups.flatten = parts.flatMap Concrete.Part.yield ∧
      List.Forall₂ ValuePart.Of (ValuePart.ofParts parts) groups := by
  induction parts with
  | nil => exact ⟨[], rfl, .nil⟩
  | cons part rest ih =>
    obtain ⟨groups, tokens_eq, each⟩ := ih fun script member =>
      formed script (List.mem_cons_of_mem _ member)
    cases part with
    | braced script =>
      refine ⟨script.yield :: groups, ?_, .cons (.expression ?_) each⟩
      · rw [List.flatten_cons, tokens_eq, List.flatMap_cons]
        rfl
      · exact formed script List.mem_cons_self
    | text token =>
      rw [ValuePart.ofParts]
      split
      · next after more same =>
        -- The text takes the text after it in.
        rw [same] at each
        cases each with
        | @cons _ group _ others first each =>
          cases first with
          | text covers value =>
            refine ⟨(token :: group) :: others, ?_, .cons (.text ⟨rfl, ?_⟩ ?_) each⟩
            · exact congrArg (token :: ·) tokens_eq
            · rw [Span.stop_cons, covers.stop]
              rfl
            · exact congrArg (token.image ++ ·) value
      · refine ⟨[token] :: groups, ?_, .cons (.text ⟨rfl, rfl⟩ ?_) each⟩
        · exact congrArg (token :: ·) tokens_eq
        · exact (List.append_nil _).symm

/-- The pieces of a value end with its last token. -/
theorem ofParts_stop (parts : List (Concrete.Part Token)) :
    (ValuePart.ofParts parts).getLast?.map (fun piece => piece.span.stop) =
      (parts.flatMap Concrete.Part.yield).getLast?.map Token.after := by
  induction parts with
  | nil => rfl
  | cons part rest ih =>
    rw [List.flatMap_cons]
    cases part with
    | braced script =>
      have stop := (Fragment.ofBraced_covers script).stop
      rw [Concrete.Part.yield, List.getLast?_append, Option.map_or, ← ih, stop, ValuePart.ofParts,
        List.getLast?_cons]
      cases (ValuePart.ofParts rest).getLast? <;> rfl
    | text token =>
      show _ = (token :: rest.flatMap Concrete.Part.yield).getLast?.map Token.after
      rw [Span.stop_cons, ← ih, ValuePart.ofParts]
      split
      · next after more same =>
        rw [same, List.getLast?_cons, List.getLast?_cons]
        cases more.getLast? <;> rfl
      · rw [List.getLast?_cons]
        cases (ValuePart.ofParts rest).getLast? <;> rfl

/-- The pieces of the value of a named attribute and where the attribute ends. -/
def ending (name : Token) (modifiers : List (Concrete.Modifier Token))
    (assigned : Option (Concrete.Assigned Token)) : List ValuePart × Point :=
  match assigned with
  | none => ([], (modifiers.getLast?.map fun modifier => modifier.name.after).getD name.after)
  | some assigned => valueOf assigned.equal assigned.value

theorem ofNamed_eq (name : Token) (modifiers : List (Concrete.Modifier Token))
    (assigned : Option (Concrete.Assigned Token)) :
    ofNamed name modifiers assigned =
      { name := ((Text.splitColon? name.image).map Prod.fst).getD name.image
        specifier := (Text.splitColon? name.image).map Prod.snd
        shorthand :=
          if (Text.splitColon? name.image).isSome || assigned.isSome then .none else .boolean
        modifiers := modifiers.map fun modifier => Fragment.ofToken modifier.name
        value := (ending name modifiers assigned).1
        span := ⟨name.start, (ending name modifiers assigned).2⟩ } := by
  unfold ofNamed
  cases Text.splitColon? name.image <;> cases assigned <;> rfl

theorem ofNamed_parts (name : Token) (modifiers : List (Concrete.Modifier Token))
    (assigned : Option (Concrete.Assigned Token)) :
    (ofNamed name modifiers assigned).span = ⟨name.start, (ending name modifiers assigned).2⟩ ∧
      (ofNamed name modifiers assigned).modifiers =
        modifiers.map (fun modifier => Fragment.ofToken modifier.name) ∧
      (ofNamed name modifiers assigned).value = (ending name modifiers assigned).1 := by
  rw [ofNamed_eq]
  exact ⟨rfl, rfl, rfl⟩

theorem modifiers_stop (modifiers : List (Concrete.Modifier Token)) :
    (modifiers.flatMap Concrete.Modifier.yield).getLast?.map Token.after =
      modifiers.getLast?.map fun modifier => modifier.name.after := by
  induction modifiers with
  | nil => rfl
  | cons modifier rest ih =>
    rw [List.flatMap_cons, List.getLast?_append, Option.map_or, ih, List.getLast?_cons]
    cases rest.getLast? <;> rfl

/-- A value with its equals sign ends with its last token. -/
theorem valueOf_stop (assigned : Concrete.Assigned Token) :
    assigned.yield.getLast?.map Token.after =
      some (valueOf assigned.equal assigned.value).2 := by
  obtain ⟨equal, value⟩ := assigned
  cases value with
  | quoted quote opening parts closing =>
    show ((equal :: opening :: parts.flatMap Concrete.Part.yield) ++ [closing]).getLast?.map
      Token.after = some closing.after
    rw [List.getLast?_concat]
    rfl
  | bare parts =>
    rw [Concrete.Assigned.yield, Span.stop_cons, Concrete.Value.yield, ← ofParts_stop]
    rfl

/-- A named attribute runs from its name to its last token. -/
theorem ofNamed_covers (name : Token) (modifiers : List (Concrete.Modifier Token))
    (assigned : Option (Concrete.Assigned Token)) :
    (ofNamed name modifiers assigned).span.Covers
      (Concrete.Attribute.named name modifiers assigned).yield := by
  rw [(ofNamed_parts name modifiers assigned).1]
  cases assigned with
  | none =>
    rw [Concrete.Attribute.yield, Option.toList_none, List.flatMap_nil, List.append_nil]
    refine ⟨rfl, ?_⟩
    rw [Span.stop_cons, modifiers_stop]
    rfl
  | some assigned =>
    rw [Concrete.Attribute.yield, Option.toList_some, List.flatMap_singleton]
    exact Span.covers_append rfl (valueOf_stop assigned)

end Attribute

namespace Node

/-- Where nothing comes after a token but some nodes. -/
theorem lastOr_stop {token : Token} {rest : List Token} {nodes : List Node}
    (same : rest.getLast?.map Token.after = nodes.getLast?.map fun node => node.span.stop) :
    (token :: rest).getLast?.map Token.after = some (lastOr token.after nodes) := by
  rw [Span.stop_cons, same]
  rfl

mutual

/-- A node runs from the first of its tokens to the last. -/
theorem ofChild_covers : ∀ child : Child Token, (ofChild child).span.Covers child.yield
  | .text _ => ⟨rfl, rfl⟩
  | .comment _ => ⟨rfl, rfl⟩
  | .braced script => Fragment.ofBraced_covers script
  | .single marker => marker.covers
  | .block first others none => by
    obtain ⟨start, stop⟩ := ofBranch_covers first
    constructor
    · rw [Child.yield, List.append_assoc, List.head?_append, Option.map_or, start]
      rfl
    · show (first.yield ++ Concrete.Branch.yields others ++ []).getLast?.map Token.after =
        some ((ofBranches others).getLast?.getD (ofBranch first)).span.stop
      rw [List.append_nil, List.getLast?_append, Option.map_or, ofBranches_stop others, stop]
      cases (ofBranches others).getLast? <;> rfl
  | .block first others (some finish) => by
    obtain ⟨start, -⟩ := ofBranch_covers first
    apply Span.covers_append
    · rw [List.head?_append, Option.map_or, start]
      rfl
    · rw [Option.toList_some, List.flatMap_singleton, BlockEnd.yield, List.getLast?_concat]
      rfl
  | .raw _ _ (.selfClosed _) => Span.covers_append rfl rfl
  | .raw _ _ (.content _ _) => Span.covers_append rfl rfl
  | .selfClosed _ _ _ => Span.covers_append rfl rfl
  | .void _ _ => Span.covers_append rfl rfl
  | .element head angle content none => by
    rw [Child.yield, Option.toList_none, List.flatMap_nil, List.append_nil]
    exact Span.covers_append rfl (lastOr_stop (ofChildren_stop content))
  | .element head angle content (some close) => by
    apply Span.covers_append rfl
    rw [Option.toList_some, List.flatMap_singleton, CloseTag.yield, List.getLast?_concat]
    rfl

theorem ofBranch_covers : ∀ branch : Concrete.Branch Token, (ofBranch branch).span.Covers branch.yield
  | ⟨marker, content⟩ => by
    rw [Concrete.Branch.yield_eq]
    exact Span.covers_append rfl (lastOr_stop (ofChildren_stop content))

theorem ofChildren_stop : ∀ children : List (Child Token),
    (Child.yields children).getLast?.map Token.after =
      (ofChildren children).getLast?.map fun node => node.span.stop
  | [] => rfl
  | child :: rest => by
    rw [Child.yields, List.getLast?_append, Option.map_or, ofChildren_stop rest,
      (ofChild_covers child).stop, ofChildren, List.getLast?_cons]
    cases (ofChildren rest).getLast? <;> rfl

theorem ofBranches_stop : ∀ branches : List (Concrete.Branch Token),
    (Concrete.Branch.yields branches).getLast?.map Token.after =
      (ofBranches branches).getLast?.map fun branch => branch.span.stop
  | [] => rfl
  | branch :: rest => by
    rw [Concrete.Branch.yields, List.getLast?_append, Option.map_or, ofBranches_stop rest,
      (ofBranch_covers branch).stop, ofBranches, List.getLast?_cons]
    cases (ofBranches rest).getLast? <;> rfl

end

end Node

end Template
