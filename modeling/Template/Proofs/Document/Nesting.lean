import Template.Proofs.Document.Order

set_option autoImplicit false

namespace Template

open Concrete (Child Braced Marker BlockEnd CloseTag Item Head RawBody)

/-- Spans inside a span, in order and none over another. -/
def Span.Holds (span : Span) (inner : List Span) : Prop :=
  Between span.start.offset span.stop.offset inner

/-- An attribute holds its modifiers and then the pieces of its value. -/
def Attribute.Nested (entry : Attribute) : Prop :=
  entry.span.Holds (entry.modifiers.map Fragment.span ++ entry.value.map ValuePart.span)

mutual

/-- At every level, a tag holds its attributes and then its children, and a block its script or its
branches. -/
def Node.Nested : Node → Prop
  | .tag _ _ _ attributes children span =>
    span.Holds (attributes.map Attribute.span ++ children.map Node.span) ∧
      (∀ entry ∈ attributes, entry.Nested) ∧ Node.AllNested children
  | .single _ script span => span.Holds (script.toList.map Fragment.span)
  | .block _ branches span => span.Holds (branches.map Branch.span) ∧ Branch.AllNested branches
  | .expression fragment | .text fragment | .comment fragment => fragment.span.Holds []

def Branch.Nested : Branch → Prop
  | ⟨_, script, children, span⟩ =>
    span.Holds (script.toList.map Fragment.span ++ children.map Node.span) ∧
      Node.AllNested children

def Node.AllNested : List Node → Prop
  | [] => True
  | node :: rest => node.Nested ∧ Node.AllNested rest

def Branch.AllNested : List Branch → Prop
  | [] => True
  | branch :: rest => branch.Nested ∧ Branch.AllNested rest

end

/-- A document whose parts lie inside one another. It runs from its first child to its last, and
where it has none it is empty. -/
structure Document.Nested (document : Document) : Prop where
  empty : document.children = [] → document.span = .empty .origin
  first : ∀ node ∈ document.children.head?, document.span.start = node.span.start
  last : ∀ node ∈ document.children.getLast?, document.span.stop = node.span.stop
  holds : document.span.Holds (document.children.map Node.span)
  nested : Node.AllNested document.children

/-- Tokens from one offset to another, in order. -/
def Token.Between (low high : Nat) (tokens : List Token) : Prop :=
  Span.Between low high (tokens.map span)

theorem Token.between_append {low high : Nat} {front back : List Token} :
    Between low high (front ++ back) ↔
      ∃ middle, Between low middle front ∧ Between middle high back := by
  rw [Between, List.map_append]
  exact Span.between_append

theorem Token.Between.sublist {low high : Nat} {tokens others : List Token}
    (between : Between low high tokens) (sub : others.Sublist tokens) : Between low high others :=
  Span.Between.sublist between (sub.map span)

variable {low high : Nat}

theorem Fragment.ofBraced_between {script : Braced Token}
    (between : Token.Between low high script.yield) :
    Span.Between low high [(ofBraced script).span] := by
  have ends : script.yield =
      script.opening :: ((script.blank.toList ++ [script.content]) ++ [script.closing]) := by
    simp only [Braced.yield, List.cons_append, List.append_assoc, List.nil_append]
  rw [ends, Token.Between, List.map_cons, List.map_append] at between
  exact between.hull

/-- A marker holds its script. -/
theorem Concrete.Marker.between {marker : Marker Token}
    (between : Token.Between low high marker.yield) :
    low ≤ marker.opening.start.offset ∧
      Span.Between marker.opening.start.offset marker.closing.after.offset
        ((marker.script.map Fragment.ofToken).toList.map Fragment.span) ∧
      marker.closing.after.offset ≤ high := by
  have first : low ≤ marker.opening.start.offset := between.1
  have anchored : Token.Between marker.opening.start.offset high marker.yield :=
    ⟨Nat.le_refl _, between.2⟩
  have sub : (marker.script.toList ++ [marker.closing]).Sublist marker.yield := by
    rw [Marker.yield, List.append_assoc]
    exact List.sublist_append_right _ _
  obtain ⟨middle, inside, ends⟩ := Token.between_append.mp (anchored.sublist sub)
  refine ⟨first, ?_, ends.2.2⟩
  have spans : (marker.script.map Fragment.ofToken).toList.map Fragment.span =
      marker.script.toList.map Token.span := by cases marker.script <;> rfl
  rw [spans]
  exact inside.raise (ends.1.trans ends.2.1)

namespace Attribute

theorem ofParts_between {parts : List (Concrete.Part Token)}
    (between : Token.Between low high (parts.flatMap Concrete.Part.yield)) :
    Span.Between low high ((ValuePart.ofParts parts).map ValuePart.span) := by
  induction parts generalizing low with
  | nil => exact between
  | cons part rest ih =>
    obtain ⟨middle, here, further⟩ := Token.between_append.mp between
    have others := ih further
    cases part with
    | braced script =>
      obtain ⟨begins, forwards, ends⟩ := Fragment.ofBraced_between here
      exact ⟨begins, forwards, others.lower ends⟩
    | text token =>
      obtain ⟨begins, forwards, ends⟩ := here
      rw [ValuePart.ofParts]
      split
      · next after more same =>
        rw [same] at others
        obtain ⟨starts, goes, left⟩ := others
        exact ⟨begins, forwards.trans (ends.trans (starts.trans goes)), left⟩
      · exact ⟨begins, forwards, others.lower ends⟩

/-- The pieces of a value lie between its equals sign and its end. -/
theorem valueOf_between {assigned : Concrete.Assigned Token}
    (between : Token.Between low high assigned.yield) :
    Span.Between low (valueOf assigned.equal assigned.value).2.offset
        ((valueOf assigned.equal assigned.value).1.map ValuePart.span) ∧
      (valueOf assigned.equal assigned.value).2.offset ≤ high := by
  obtain ⟨begins, forwards, rest⟩ := between
  have start := begins.trans forwards
  cases value : assigned.value with
  | quoted quote opening parts closing =>
    rw [value] at rest
    obtain ⟨enters, crosses, rest⟩ := rest
    obtain ⟨middle, inside, ends⟩ := Token.between_append.mp rest
    have pieces := ofParts_between inside
    exact ⟨(pieces.raise (ends.1.trans ends.2.1)).lower (start.trans (enters.trans crosses)), ends.2.2⟩
  | bare parts =>
    rw [value] at rest
    have pieces := (ofParts_between rest).tight
    rw [List.getLast?_map, Option.map_map] at pieces
    exact ⟨pieces.1.lower start, pieces.2⟩

/-- The name of a modifier is one of the tokens of all modifiers. -/
theorem name_mem_of_mem {modifiers : List (Concrete.Modifier Token)}
    {modifier : Concrete.Modifier Token} (member : modifier ∈ modifiers) :
    modifier.name ∈ modifiers.flatMap Concrete.Modifier.yield :=
  List.mem_flatMap.mpr ⟨modifier, member, List.mem_cons_of_mem _ List.mem_cons_self⟩

theorem modifiers_between {modifiers : List (Concrete.Modifier Token)}
    (between : Token.Between low high (modifiers.flatMap Concrete.Modifier.yield)) :
    Span.Between low high (modifiers.map fun modifier => modifier.name.span) := by
  rw [Token.Between, List.map_flatMap] at between
  refine between.flatMap fun modifier _ low high inside => ?_
  exact inside.sublist (List.sublist_cons_self _ _)

/-- A named attribute holds its modifiers and its value. -/
theorem ofNamed_nested {name : Token} {modifiers : List (Concrete.Modifier Token)}
    {assigned : Option (Concrete.Assigned Token)}
    (between : Token.Between low high (Concrete.Attribute.named name modifiers assigned).yield) :
    Span.Between low high [(ofNamed name modifiers assigned).span] ∧
      (ofNamed name modifiers assigned).Nested := by
  obtain ⟨begins, forwards, rest⟩ := between
  obtain ⟨middle, marks, value⟩ := Token.between_append.mp rest
  have names := modifiers_between marks
  obtain ⟨span_eq, modifiers_eq, value_eq⟩ := ofNamed_parts name modifiers assigned
  have inside : Span.Between name.start.offset (ending name modifiers assigned).2.offset
      (modifiers.map (fun modifier => modifier.name.span) ++
        (ending name modifiers assigned).1.map ValuePart.span) ∧
      (ending name modifiers assigned).2.offset ≤ high := by
    cases assigned with
    | none =>
      have tight := names.tight
      rw [List.getLast?_map, Option.map_map] at tight
      rw [ending, List.map_nil, List.append_nil]
      exact ⟨tight.1.lower forwards, tight.2.trans value.le⟩
    | some assigned =>
      rw [Option.toList_some, List.flatMap_singleton] at value
      have pieces := valueOf_between value
      exact ⟨Span.between_append.mpr ⟨middle, names.lower forwards, pieces.1⟩, pieces.2⟩
  rw [Nested, span_eq, modifiers_eq, value_eq, List.map_map]
  exact ⟨⟨begins, inside.1.le, inside.2⟩, inside.1⟩

theorem ofItem_nested {item : Item Token} (between : Token.Between low high item.yield) :
    Span.Between low high [(ofItem item).span] ∧ (ofItem item).Nested := by
  have entry : Token.Between low high item.entry.yield :=
    between.sublist (List.sublist_append_right _ _)
  unfold ofItem
  cases same : item.entry with
  | named name modifiers assigned =>
    rw [same] at entry
    exact ofNamed_nested entry
  | braced script =>
    rw [same] at entry
    obtain ⟨begins, forwards, ends⟩ := Fragment.ofBraced_between entry
    exact ⟨⟨begins, forwards, ends⟩, Nat.le_refl _, forwards, Nat.le_refl _⟩

end Attribute

/-- A head holds its attributes, and what comes after it comes after them. -/
theorem Concrete.Head.between {head : Head Token} {rest : List Token}
    (between : Token.Between low high (head.yield ++ rest)) :
    low ≤ head.opening.start.offset ∧
      (∀ entry ∈ head.items.map Attribute.ofItem, entry.Nested) ∧
      ∃ middle, Span.Between head.opening.start.offset middle
          ((head.items.map Attribute.ofItem).map Attribute.span) ∧
        Token.Between middle high rest := by
  rw [Head.yield_append] at between
  obtain ⟨begins, forwards, further⟩ := between
  obtain ⟨middle, items, after⟩ := Token.between_append.mp further
  obtain ⟨later, blank, rest⟩ := Token.between_append.mp after
  rw [Token.Between, List.map_flatMap] at items
  refine ⟨begins, List.forall_mem_map.mpr fun item member => ?_, later, ?_, rest⟩
  · have sub := List.sublist_flatten_of_mem
      (List.mem_map_of_mem (f := fun item => (Item.yield item).map Token.span) member)
    exact (Attribute.ofItem_nested (items.sublist sub)).2
  · rw [List.map_map]
    have spans := items.flatMap fun item _ low high inside => (Attribute.ofItem_nested inside).1
    exact (spans.lower forwards).raise blank.le

namespace Node

theorem lastOr_tight {point : Point} {nodes : List Node}
    (between : Span.Between point.offset high (nodes.map span)) :
    Span.Between point.offset (lastOr point nodes).offset (nodes.map span) ∧
      (lastOr point nodes).offset ≤ high := by
  have tight := between.tight
  rw [List.getLast?_map, Option.map_map] at tight
  exact tight

theorem lastBranch_tight {first : Branch} {others : List Branch}
    (between : Span.Between first.span.stop.offset high (others.map Branch.span)) :
    Span.Between first.span.stop.offset (others.getLast?.getD first).span.stop.offset
        (others.map Branch.span) ∧
      (others.getLast?.getD first).span.stop.offset ≤ high := by
  have tight := between.tight
  rw [List.getLast?_map, Option.map_map] at tight
  have last := Option.getD_map (fun branch => branch.span.stop) first others.getLast?
  rw [← last]
  exact tight

/-- A tag that ends here, with its children after its head. -/
theorem ofHead_nested {head : Head Token} {selfClosing : Bool} {children : List Node}
    {finish : Point} {rest : List Token}
    (between : Token.Between low high (head.yield ++ rest))
    (inside : ∀ middle, Token.Between middle high rest →
      Span.Between middle finish.offset (children.map span) ∧ finish.offset ≤ high)
    (nested : AllNested children) :
    Span.Between low high [(ofHead head selfClosing children finish).span] ∧
      (ofHead head selfClosing children finish).Nested := by
  obtain ⟨begins, attributes, middle, front, back⟩ := Concrete.Head.between between
  obtain ⟨content, ends⟩ := inside middle back
  have holds := Span.between_append.mpr ⟨middle, front, content⟩
  exact ⟨⟨begins, holds.le, ends⟩, holds, attributes, nested⟩

/-- A block that ends here, with its branches after its first one. -/
theorem block_nested {name : Text} {first : Branch} {others : List Branch} {finish : Point}
    (begins : low ≤ first.span.start.offset)
    (forwards : first.span.start.offset ≤ first.span.stop.offset)
    (rest : Span.Between first.span.stop.offset finish.offset (others.map Branch.span))
    (ends : finish.offset ≤ high) (nested : first.Nested) (rest_nested : Branch.AllNested others) :
    Span.Between low high [(block name (first :: others) ⟨first.span.start, finish⟩).span] ∧
      (block name (first :: others) ⟨first.span.start, finish⟩).Nested := by
  have holds : Span.Between first.span.start.offset finish.offset
      ((first :: others).map Branch.span) := ⟨Nat.le_refl _, forwards, rest⟩
  exact ⟨⟨begins, holds.le, ends⟩, holds, nested, rest_nested⟩

/-- A raw element, whose content ends where its end tag begins. -/
theorem ofRaw_nested {source : Text} {known : RawElement} {head : Head Token}
    {body : RawBody Token} (tagged : Child.Tagged source (.raw known head body))
    (between : Token.Between low high (head.yield ++ body.yield)) :
    Span.Between low high [(ofRaw known head body).span] ∧ (ofRaw known head body).Nested := by
  obtain ⟨begins, attributes, middle, front, back⟩ := Concrete.Head.between between
  cases body with
  | selfClosed closing =>
    obtain ⟨starts, forwards, ends⟩ := back
    have holds : Span.Between head.opening.start.offset closing.after.offset
        ((head.items.map Attribute.ofItem).map Attribute.span ++ [].map span) := by
      rw [List.map_nil, List.append_nil]
      exact front.raise (starts.trans forwards)
    exact ⟨⟨begins, holds.le, ends⟩, holds, attributes, trivial⟩
  | content angle rest =>
    obtain ⟨starts, forwards, enters, crosses, ends⟩ := back
    obtain ⟨before, text, tag, after, -, like, start_eq, after_eq⟩ := tagged
    have stop_eq := Fragment.ofRaw_stop like after_eq
    have start_le : rest.start.offset ≤ (Fragment.ofRaw known rest).span.stop.offset := by
      rw [stop_eq, start_eq, Point.walk_append, Point.offset_walk _ text]
      exact Nat.le_add_right _ _
    have stop_le : (Fragment.ofRaw known rest).span.stop.offset ≤ rest.after.offset := by
      rw [stop_eq, after_eq, Point.offset_walk _ tag]
      exact Nat.le_add_right _ _
    have holds := Span.between_append.mpr ⟨middle, front,
      show Span.Between middle rest.after.offset [(Fragment.ofRaw known rest).span] from
        ⟨starts.trans (forwards.trans enters), start_le, stop_le⟩⟩
    exact ⟨⟨begins, holds.le, ends⟩, holds, attributes,
      start_le, trivial⟩

mutual

/-- A node lies where its tokens do and holds what is inside it. -/
theorem ofChild_nested {source : Text} {low high : Nat} : ∀ {child : Child Token},
    (∀ inner ∈ child.family, inner.Tagged source) → Token.Between low high child.yield →
      Span.Between low high [(ofChild child).span] ∧ (ofChild child).Nested
  | .text _, _, between => ⟨between, between.2.1⟩
  | .comment _, _, between => ⟨between, between.2.1⟩
  | .braced _, _, between =>
    have span := Fragment.ofBraced_between between
    ⟨span, span.2.1⟩
  | .single marker, _, between =>
    have ⟨begins, inside, ends⟩ := Concrete.Marker.between between
    ⟨⟨begins, inside.le, ends⟩, inside⟩
  | .block first others finish, tagged, between => by
    obtain ⟨_, tagged⟩ := List.forall_mem_cons.mp tagged
    obtain ⟨tagged, rest_tagged⟩ := List.forall_mem_append.mp tagged
    obtain ⟨middle, clauses, ending⟩ := Token.between_append.mp between
    obtain ⟨point, opened, tail⟩ := Token.between_append.mp clauses
    obtain ⟨⟨begins, forwards, goes⟩, nested⟩ := ofBranch_nested tagged opened
    obtain ⟨further, rest_nested⟩ := ofBranches_nested rest_tagged tail
    cases finish with
    | none =>
      -- The block ends with its last branch.
      obtain ⟨last, ends⟩ := lastBranch_tight (further.lower goes)
      exact block_nested begins forwards last (ends.trans ending.le) nested rest_nested
    | some finish =>
      have close := ending.sublist (List.singleton_sublist.mpr
        (show finish.closing ∈ (some finish).toList.flatMap BlockEnd.yield by
          simp [BlockEnd.yield]))
      have inside := (further.lower goes).raise (close.1.trans close.2.1)
      exact block_nested begins forwards inside close.2.2 nested rest_nested
  | .raw known head body, tagged, between =>
    ofRaw_nested (tagged _ List.mem_cons_self) between
  | .selfClosed head slash angle, _, between => by
    refine ofHead_nested between (fun middle rest => ?_) trivial
    obtain ⟨starts, forwards, enters, crosses, ends⟩ := rest
    exact ⟨(starts.trans forwards).trans (enters.trans crosses), ends⟩
  | .void head angle, _, between => by
    refine ofHead_nested between (fun middle rest => ?_) trivial
    obtain ⟨starts, forwards, ends⟩ := rest
    exact ⟨starts.trans forwards, ends⟩
  | .element head angle content close, tagged, between => by
    obtain ⟨_, tagged⟩ := List.forall_mem_cons.mp tagged
    rw [Child.yield, List.append_assoc] at between
    -- That the children hold what is inside them does not depend on where the head ends.
    have nested : AllNested (ofChildren content) := by
      obtain ⟨_, _, _, _, rest⟩ := Concrete.Head.between between
      obtain ⟨_, inside, _⟩ := Token.between_append.mp rest.2.2
      exact (ofChildren_nested tagged inside).2
    refine ofHead_nested between (fun middle rest => ?_) nested
    obtain ⟨starts, forwards, rest⟩ := rest
    obtain ⟨later, inside, ending⟩ := Token.between_append.mp rest
    have children := (ofChildren_nested tagged inside).1
    cases close with
    | none =>
      obtain ⟨last, ends⟩ := lastOr_tight children
      exact ⟨last.lower (starts.trans forwards), ends.trans ending.le⟩
    | some close =>
      have angle := ending.sublist (List.singleton_sublist.mpr
        (show close.angle ∈ (some close).toList.flatMap CloseTag.yield by simp [CloseTag.yield]))
      exact ⟨(children.raise (angle.1.trans angle.2.1)).lower (starts.trans forwards), angle.2.2⟩

theorem ofBranch_nested {source : Text} {low high : Nat} : ∀ {branch : Concrete.Branch Token},
    (∀ inner ∈ branch.family, inner.Tagged source) → Token.Between low high branch.yield →
      Span.Between low high [(ofBranch branch).span] ∧ (ofBranch branch).Nested
  | ⟨marker, content⟩, tagged, between => by
    obtain ⟨middle, opened, tail⟩ := Token.between_append.mp between
    obtain ⟨begins, script, ends⟩ := Concrete.Marker.between opened
    obtain ⟨inside, nested⟩ := ofChildren_nested tagged tail
    have tight := lastOr_tight (inside.lower ends)
    have holds := Span.between_append.mpr ⟨_, script, tight.1⟩
    exact ⟨⟨begins, holds.le, tight.2⟩, holds, nested⟩

theorem ofChildren_nested {source : Text} {low high : Nat} : ∀ {children : List (Child Token)},
    (∀ inner ∈ Child.families children, inner.Tagged source) →
      Token.Between low high (Child.yields children) →
        Span.Between low high ((ofChildren children).map span) ∧ AllNested (ofChildren children)
  | [], _, between => ⟨between, trivial⟩
  | child :: rest, tagged, between => by
    obtain ⟨tagged, rest_tagged⟩ := List.forall_mem_append.mp tagged
    obtain ⟨middle, here, further⟩ := Token.between_append.mp between
    obtain ⟨⟨begins, forwards, ends⟩, nested⟩ := ofChild_nested tagged here
    obtain ⟨others, rest_nested⟩ := ofChildren_nested rest_tagged further
    exact ⟨⟨begins, forwards, others.lower ends⟩, nested, rest_nested⟩

theorem ofBranches_nested {source : Text} {low high : Nat} :
    ∀ {branches : List (Concrete.Branch Token)},
      (∀ inner ∈ Concrete.Branch.families branches, inner.Tagged source) →
        Token.Between low high (Concrete.Branch.yields branches) →
          Span.Between low high ((ofBranches branches).map Branch.span) ∧
            Branch.AllNested (ofBranches branches)
  | [], _, between => ⟨between, trivial⟩
  | branch :: rest, tagged, between => by
    obtain ⟨tagged, rest_tagged⟩ := List.forall_mem_append.mp tagged
    obtain ⟨middle, here, further⟩ := Token.between_append.mp between
    obtain ⟨⟨begins, forwards, ends⟩, nested⟩ := ofBranch_nested tagged here
    obtain ⟨others, rest_nested⟩ := ofBranches_nested rest_tagged further
    exact ⟨⟨begins, forwards, others.lower ends⟩, nested, rest_nested⟩

end

end Node

theorem Document.ofNodes_nested {nodes : List Node}
    (between : Span.Between 0 high (nodes.map Node.span)) (nested : Node.AllNested nodes) :
    (ofNodes nodes).Nested := by
  cases nodes with
  | nil =>
    refine ⟨fun _ => rfl, ?_, ?_, Nat.le_refl _, trivial⟩
    · exact fun _ none => nomatch none
    · exact fun _ none => nomatch none
  | cons first rest =>
    obtain ⟨-, forwards, further⟩ := between
    have tight := Node.lastOr_tight further
    refine ⟨?_, ?_, ?_, ⟨Nat.le_refl _, forwards, tight.1⟩, nested⟩
    · exact fun empty => nomatch empty
    · rintro _ ⟨⟩
      rfl
    · intro last final
      change (first :: rest).getLast? = some last at final
      rw [List.getLast?_cons, Option.some.injEq] at final
      rw [← final]
      exact Option.getD_map (fun node => node.span.stop) first rest.getLast?

/-- What is built from tokens in order lies inside one another. -/
theorem Document.ofConcrete_nested {source : Text} {children : List (Child Token)}
    (ordered : Ordered source children) : (ofConcrete children).Nested := by
  obtain ⟨spans, nested⟩ := Node.ofChildren_nested ordered.tagged ordered.between
  exact ofNodes_nested spans nested

/-- In the document of a source, whatever is wrong with it, the parts lie inside one another. The
document runs from its first child to its last, and is empty at the beginning where it has none.
At every level what stands side by side is in order and does not overlap: the children of the
document, the attributes and then the children of a tag, the branches of a block, the script and
then the children of a branch, the modifiers and then the pieces of the value of an attribute; and
all of them lie within the part that they belong to. -/
theorem parse_nests (options : Options) (source : Text) :
    (parse options source).document.Nested := by
  have ordered := ordered_build (options.read source)
  exact Document.ofConcrete_nested ordered

end Template
