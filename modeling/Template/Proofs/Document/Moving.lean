import Template.Concrete.Relabel
import Template.Proofs.Document.Nesting
import Template.Proofs.Scan.Reading

set_option autoImplicit false

namespace Template

open Concrete (Child Braced Marker Item Head RawBody)

section Move

variable (f : Point → Point)

def Span.move (span : Span) : Span := ⟨f span.start, f span.stop⟩

def Fragment.move (fragment : Fragment) : Fragment :=
  { fragment with span := fragment.span.move f }

def ValuePart.move : ValuePart → ValuePart
  | text fragment => text (fragment.move f)
  | expression fragment => expression (fragment.move f)

def Attribute.move (entry : Attribute) : Attribute :=
  { entry with
    modifiers := entry.modifiers.map (Fragment.move f)
    value := entry.value.map (ValuePart.move f)
    span := entry.span.move f }

mutual

/-- A node with every place in it moved. -/
def Node.move : Node → Node
  | .tag type name selfClosing attributes children span =>
    .tag type name selfClosing (attributes.map (Attribute.move f)) (Node.moves children)
      (span.move f)
  | .single name script span => .single name (script.map (Fragment.move f)) (span.move f)
  | .block name branches span => .block name (Branch.moves branches) (span.move f)
  | .expression fragment => .expression (fragment.move f)
  | .text fragment => .text (fragment.move f)
  | .comment fragment => .comment (fragment.move f)

def Branch.move : Branch → Branch
  | ⟨name, script, children, span⟩ =>
    ⟨name, script.map (Fragment.move f), Node.moves children, span.move f⟩

def Node.moves : List Node → List Node
  | [] => []
  | node :: rest => node.move :: Node.moves rest

def Branch.moves : List Branch → List Branch
  | [] => []
  | branch :: rest => branch.move :: Branch.moves rest

end

theorem Node.moves_eq (nodes : List Node) : Node.moves f nodes = nodes.map (Node.move f) := by
  induction nodes with
  | nil => rfl
  | cons node rest ih => rw [Node.moves, ih, List.map_cons]

theorem Branch.moves_eq (branches : List Branch) :
    Branch.moves f branches = branches.map (Branch.move f) := by
  induction branches with
  | nil => rfl
  | cons branch rest ih => rw [Branch.moves, ih, List.map_cons]

theorem ValuePart.span_move (part : ValuePart) : (part.move f).span = part.span.move f := by
  cases part <;> rfl

theorem Node.span_move (node : Node) : (node.move f).span = node.span.move f := by
  cases node <;> rfl

theorem Branch.name_move (branch : Branch) : (branch.move f).name = branch.name := by
  cases branch
  rfl

theorem Branch.span_move (branch : Branch) : (branch.move f).span = branch.span.move f := by
  cases branch
  rfl

end Move

variable {f : Point → Point}

/-- A token whose end moves with it, and if it is the rest of a raw element also the place where its
end tag begins. -/
structure Token.Steady (f : Point → Point) (token : Token) : Prop where
  after : (token.move f).after = f token.after
  back : ∀ known, token.kind = .rawRest known →
    (f token.after).back (Text.size known.endTag.toList) =
      f (token.after.back (Text.size known.endTag.toList))

def Token.AllSteady (f : Point → Point) (tokens : List Token) : Prop :=
  ∀ token ∈ tokens, token.Steady f

namespace Fragment

theorem ofToken_move {token : Token} (steady : token.Steady f) :
    ofToken (token.move f) = (ofToken token).move f :=
  congrArg (fun stop => (⟨token.image, ⟨f token.start, stop⟩⟩ : Fragment)) steady.after

theorem ofComment_move {token : Token} (steady : token.Steady f) :
    ofComment (token.move f) = (ofComment token).move f :=
  congrArg (fun stop => (⟨(ofComment token).value, ⟨f token.start, stop⟩⟩ : Fragment)) steady.after

theorem ofBraced_move {script : Braced Token} (steady : Token.AllSteady f script.yield) :
    ofBraced (script.map (Token.move f)) = (ofBraced script).move f := by
  have closing := (steady script.closing (by simp [Braced.yield])).after
  exact congrArg (fun stop => (⟨script.content.image, ⟨f script.opening.start, stop⟩⟩ : Fragment))
    closing

theorem ofRaw_move {known : RawElement} {token : Token} (steady : token.Steady f)
    (kind : token.kind = .rawRest known) :
    ofRaw known (token.move f) = (ofRaw known token).move f := by
  have stop := steady.back known kind
  rw [← steady.after] at stop
  exact congrArg (fun stop => (⟨(ofRaw known token).value, ⟨f token.start, stop⟩⟩ : Fragment)) stop

end Fragment

/-- The script of a marker. -/
theorem Concrete.Marker.script_move {marker : Marker Token}
    (steady : Token.AllSteady f marker.yield) :
    (marker.map (Token.move f)).script.map Fragment.ofToken =
      (marker.script.map Fragment.ofToken).map (Fragment.move f) := by
  rw [Marker.map, Option.map_map, Option.map_map]
  refine Option.map_congr fun token member => ?_
  exact Fragment.ofToken_move (steady token (by simp [Marker.yield, member]))

namespace Attribute

theorem ofParts_move {parts : List (Concrete.Part Token)}
    (steady : Token.AllSteady f (parts.flatMap Concrete.Part.yield)) :
    ValuePart.ofParts (parts.map (Concrete.Part.map (Token.move f))) =
      (ValuePart.ofParts parts).map (ValuePart.move f) := by
  induction parts with
  | nil => rfl
  | cons part rest ih =>
    obtain ⟨here, further⟩ := List.forall_mem_append.mp steady
    have others := ih further
    cases part with
    | braced script =>
      simp only [List.map_cons, Concrete.Part.map, ValuePart.ofParts, others, ValuePart.move,
        Fragment.ofBraced_move here]
    | text token =>
      have first := Fragment.ofToken_move (here token (List.mem_singleton.mpr rfl))
      simp only [List.map_cons, Concrete.Part.map, ValuePart.ofParts, others]
      cases ValuePart.ofParts rest with
      | nil => simp only [List.map_nil, first, List.map_cons, ValuePart.move]
      | cons piece more =>
        cases piece with
        | text after => rfl
        | expression after => simp only [List.map_cons, first, ValuePart.move]

theorem valueOf_move {assigned : Concrete.Assigned Token}
    (steady : Token.AllSteady f assigned.yield) :
    valueOf (assigned.map (Token.move f)).equal (assigned.map (Token.move f)).value =
      ((valueOf assigned.equal assigned.value).1.map (ValuePart.move f),
        f (valueOf assigned.equal assigned.value).2) := by
  obtain ⟨equal, rest⟩ := List.forall_mem_cons.mp steady
  unfold Concrete.Assigned.map
  cases value : assigned.value with
  | quoted quote opening parts closing =>
    rw [value] at rest
    obtain ⟨-, rest⟩ := List.forall_mem_cons.mp rest
    obtain ⟨inside, close⟩ := List.forall_mem_append.mp rest
    have ended := (List.forall_mem_singleton.mp close).after
    simp only [Concrete.Value.map, valueOf, ofParts_move inside, ended]
  | bare parts =>
    rw [value] at rest
    simp only [Concrete.Value.map, valueOf, ofParts_move rest, List.getLast?_map, Option.map_map,
      Function.comp_def, ValuePart.span_move, Span.move, equal.after, Prod.mk.injEq, true_and]
    cases (ValuePart.ofParts parts).getLast? <;> rfl

theorem ending_move {name : Token} {modifiers : List (Concrete.Modifier Token)}
    {assigned : Option (Concrete.Assigned Token)}
    (steady : Token.AllSteady f (Concrete.Attribute.named name modifiers assigned).yield) :
    ending (name.move f) (modifiers.map (Concrete.Modifier.map (Token.move f)))
        (assigned.map (Concrete.Assigned.map (Token.move f))) =
      ((ending name modifiers assigned).1.map (ValuePart.move f),
        f (ending name modifiers assigned).2) := by
  obtain ⟨first, rest⟩ := List.forall_mem_cons.mp steady
  obtain ⟨marks, value⟩ := List.forall_mem_append.mp rest
  cases assigned with
  | none =>
    simp only [ending, Option.map_none, List.getLast?_map, Option.map_map, Function.comp_def,
      List.map_nil, first.after, Prod.mk.injEq, true_and]
    cases last : modifiers.getLast? with
    | none => rfl
    | some modifier =>
      exact (marks modifier.name (name_mem_of_mem (List.mem_of_getLast? last))).after
  | some assigned =>
    rw [Option.toList_some, List.flatMap_singleton] at value
    exact valueOf_move value

/-- The name of an attribute does not depend on where it stands. -/
theorem ofNamed_move {name : Token} {modifiers : List (Concrete.Modifier Token)}
    {assigned : Option (Concrete.Assigned Token)}
    (steady : Token.AllSteady f (Concrete.Attribute.named name modifiers assigned).yield) :
    ofNamed (name.move f) (modifiers.map (Concrete.Modifier.map (Token.move f)))
        (assigned.map (Concrete.Assigned.map (Token.move f))) =
      (ofNamed name modifiers assigned).move f := by
  obtain ⟨-, rest⟩ := List.forall_mem_cons.mp steady
  obtain ⟨marks, -⟩ := List.forall_mem_append.mp rest
  have names : (modifiers.map (Concrete.Modifier.map (Token.move f))).map
        (fun modifier => Fragment.ofToken modifier.name) =
      (modifiers.map fun modifier => Fragment.ofToken modifier.name).map (Fragment.move f) := by
    rw [List.map_map, List.map_map]
    refine List.map_congr_left fun modifier member => ?_
    exact Fragment.ofToken_move (marks modifier.name (name_mem_of_mem member))
  rw [ofNamed_eq, ofNamed_eq, ending_move steady, names, Option.isSome_map]
  rfl

theorem ofItem_move {item : Item Token} (steady : Token.AllSteady f item.yield) :
    ofItem (item.map (Token.move f)) = (ofItem item).move f := by
  have entry : Token.AllSteady f item.entry.yield := (List.forall_mem_append.mp steady).2
  unfold ofItem Concrete.Item.map
  cases same : item.entry with
  | named name modifiers assigned =>
    rw [same] at entry
    exact ofNamed_move entry
  | braced script =>
    rw [same] at entry
    simp only [Concrete.Attribute.map, Fragment.ofBraced_move entry]
    rfl

theorem ofItems_move {head : Head Token} (steady : Token.AllSteady f head.yield) :
    (head.map (Token.move f)).items.map ofItem = (head.items.map ofItem).map (move f) := by
  obtain ⟨-, rest⟩ := List.forall_mem_cons.mp steady
  obtain ⟨items, -⟩ := List.forall_mem_append.mp rest
  simp only [Head.map, List.map_map]
  refine List.map_congr_left fun item member => ofItem_move fun token inside => ?_
  exact items token (List.mem_flatMap.mpr ⟨item, member, inside⟩)

end Attribute

namespace Node

theorem lastOr_move (point : Point) (nodes : List Node) :
    lastOr (f point) (moves f nodes) = f (lastOr point nodes) := by
  simp only [lastOr, moves_eq, List.getLast?_map, Option.map_map, Function.comp_def, span_move,
    Span.move]
  cases nodes.getLast? <;> rfl

theorem lastBranch_move (first : Branch) (others : List Branch) :
    ((Branch.moves f others).getLast?.getD (first.move f)).span.stop =
      f (others.getLast?.getD first).span.stop := by
  rw [Branch.moves_eq, List.getLast?_map, Option.getD_map, Branch.span_move]
  rfl

theorem ofHead_move {head : Head Token} (steady : Token.AllSteady f head.yield)
    (selfClosing : Bool) (children : List Node) (finish : Point) :
    ofHead (head.map (Token.move f)) selfClosing (moves f children) (f finish) =
      (ofHead head selfClosing children finish).move f := by
  simp only [ofHead, Attribute.ofItems_move steady, move]
  rfl

theorem ofRaw_move {known : RawElement} {head : Head Token} {body : RawBody Token}
    (formed : body.Formed known) (steady : Token.AllSteady f (head.yield ++ body.yield)) :
    ofRaw known (head.map (Token.move f)) (body.map (Token.move f)) =
      (ofRaw known head body).move f := by
  obtain ⟨front, back⟩ := List.forall_mem_append.mp steady
  cases body with
  | selfClosed closing =>
    have ended := (List.forall_mem_singleton.mp back).after
    simp only [RawBody.map, ofRaw, Attribute.ofItems_move front, ended, move]
    rfl
  | content angle rest =>
    obtain ⟨-, back⟩ := List.forall_mem_cons.mp back
    have last := List.forall_mem_singleton.mp back
    simp only [RawBody.map, ofRaw, Attribute.ofItems_move front, last.after, move, moves,
      Fragment.ofRaw_move last formed.2]
    rfl

variable {extent : Concrete.Extent Token}

mutual

/-- The document of moved tokens is the moved document. -/
theorem ofChild_move {depth : Nat} : ∀ {child : Child Token} {after : List Token},
    child.Formed extent depth after → Token.AllSteady f child.yield →
      ofChild (child.map (Token.move f)) = (ofChild child).move f
  | .text _, _, _, steady =>
    congrArg Node.text (Fragment.ofToken_move (List.forall_mem_singleton.mp steady))
  | .comment _, _, _, steady =>
    congrArg Node.comment (Fragment.ofComment_move (List.forall_mem_singleton.mp steady))
  | .braced _, _, _, steady => congrArg Node.expression (Fragment.ofBraced_move steady)
  | .single marker, _, _, steady => by
    have closing := (steady marker.closing (by simp [Child.yield, Marker.yield])).after
    simp only [Child.map, ofChild, Concrete.Marker.script_move steady, move]
    simp only [Marker.map, closing]
    rfl
  | .block first others finish, _, ⟨opened, further, _⟩, steady => by
    obtain ⟨clauses, ending⟩ := List.forall_mem_append.mp steady
    obtain ⟨head, tail⟩ := List.forall_mem_append.mp clauses
    have here := ofBranch_move opened head
    have rest := ofBranches_move further tail
    simp only [Child.map, ofChild, here, rest, move, Branch.moves, Branch.name_move,
      Branch.span_move]
    cases finish with
    | none =>
      simp only [Option.map_none, lastBranch_move]
      rfl
    | some finish =>
      have closing := (ending finish.closing (by simp [Concrete.BlockEnd.yield])).after
      simp only [Option.map_some, Concrete.BlockEnd.map, closing]
      rfl
  | .raw known head body, _, ⟨_, formed⟩, steady => ofRaw_move formed steady
  | .selfClosed head slash angle, _, _, steady => by
    obtain ⟨front, back⟩ := List.forall_mem_append.mp steady
    have ended := (back angle (by simp)).after
    rw [Child.map, ofChild, ended]
    exact ofHead_move front true [] _
  | .void head angle, _, _, steady => by
    obtain ⟨front, back⟩ := List.forall_mem_append.mp steady
    have ended := (back angle (by simp)).after
    rw [Child.map, ofChild, ended]
    exact ofHead_move front false [] _
  | .element head angle content close, _, ⟨_, _, _, _, _, inside, _⟩, steady => by
    obtain ⟨body, ending⟩ := List.forall_mem_append.mp steady
    obtain ⟨front, back⟩ := List.forall_mem_append.mp body
    obtain ⟨opened, tail⟩ := List.forall_mem_cons.mp back
    have children := ofChildren_move inside tail
    rw [Child.map]
    simp only [ofChild, children]
    cases close with
    | none =>
      simp only [Option.map_none, opened.after, lastOr_move]
      exact ofHead_move front false _ _
    | some close =>
      have ended := (ending close.angle (by simp [Concrete.CloseTag.yield])).after
      simp only [Option.map_some, Concrete.CloseTag.map, ended]
      exact ofHead_move front false _ _

theorem ofBranch_move {depth : Nat} {sigil : Sigil} : ∀ {branch : Concrete.Branch Token}
    {after : List Token}, branch.Formed extent depth sigil after →
      Token.AllSteady f branch.yield →
        ofBranch (branch.map (Token.move f)) = (ofBranch branch).move f
  | ⟨marker, content⟩, _, ⟨_, _, inside⟩, steady => by
    obtain ⟨opened, tail⟩ := List.forall_mem_append.mp steady
    have closing := (opened marker.closing (by simp [Marker.yield])).after
    simp only [Concrete.Branch.map, ofBranch, Concrete.Marker.script_move opened,
      ofChildren_move inside tail, Branch.move]
    simp only [Marker.map, closing, lastOr_move]
    rfl

theorem ofChildren_move {depth : Nat} : ∀ {children : List (Child Token)} {after : List Token},
    Child.AllFormed extent depth children after → Token.AllSteady f (Child.yields children) →
      ofChildren (Child.maps (Token.move f) children) = moves f (ofChildren children)
  | [], _, _, _ => rfl
  | child :: rest, _, ⟨first, others⟩, steady => by
    obtain ⟨here, further⟩ := List.forall_mem_append.mp steady
    rw [Child.maps, ofChildren, ofChild_move first here, ofChildren_move others further]
    rfl

theorem ofBranches_move {depth : Nat} : ∀ {branches : List (Concrete.Branch Token)}
    {after : List Token}, Concrete.Branch.AllFormed extent depth branches after →
      Token.AllSteady f (Concrete.Branch.yields branches) →
        ofBranches (Concrete.Branch.maps (Token.move f) branches) =
          Branch.moves f (ofBranches branches)
  | [], _, _, _ => rfl
  | branch :: rest, _, ⟨first, others⟩, steady => by
    obtain ⟨here, further⟩ := List.forall_mem_append.mp steady
    rw [Concrete.Branch.maps, ofBranches, ofBranch_move first here, ofBranches_move others further]
    rfl

end

end Node

end Template
