import Template.Proofs.Document.Nesting

set_option autoImplicit false

namespace Template

open Concrete (Child Braced Marker BlockEnd CloseTag Item Head RawBody Site)

/-- A place of a source: its offset lies between two characters or at an end, and walking over the
source up to the offset leads to it. -/
def Point.Exact (source : Text) (point : Point) : Prop :=
  ∃ front back, source.cut? point.offset = some (front, back) ∧ point = origin.walk front

/-- A part of a source: both ends are places of the source, and the text between them can be cut
out. -/
structure Span.Exact (source : Text) (span : Span) : Prop where
  start : span.start.Exact source
  stop : span.stop.Exact source
  ordered : span.start.offset ≤ span.stop.offset
  sliced : ∃ part, span.slice? source = some part

def Attribute.spans (entry : Attribute) : List Span :=
  entry.span :: (entry.modifiers.map Fragment.span ++ entry.value.map ValuePart.span)

mutual

def Node.spans : Node → List Span
  | .tag _ _ _ attributes children span =>
    span :: (attributes.flatMap Attribute.spans ++ Node.allSpans children)
  | .single _ script span => span :: script.toList.map Fragment.span
  | .block _ branches span => span :: Branch.allSpans branches
  | .expression fragment | .text fragment | .comment fragment => [fragment.span]

def Branch.spans : Branch → List Span
  | ⟨_, script, children, span⟩ =>
    span :: (script.toList.map Fragment.span ++ Node.allSpans children)

def Node.allSpans : List Node → List Span
  | [] => []
  | node :: rest => node.spans ++ Node.allSpans rest

def Branch.allSpans : List Branch → List Span
  | [] => []
  | branch :: rest => branch.spans ++ Branch.allSpans rest

end

/-- All spans of a result: of the document, of every part of it, and of the problems. -/
def Parsed.spans (parsed : Parsed) : List Span :=
  parsed.document.span :: Node.allSpans parsed.document.children ++ parsed.problems.map Problem.span

theorem Node.span_mem_spans (node : Node) : node.span ∈ node.spans := by
  cases node with
  | tag | single | block => exact List.mem_cons_self
  | _ => exact List.mem_singleton.mpr rfl

theorem Branch.span_mem_spans (branch : Branch) : branch.span ∈ branch.spans := by
  cases branch
  exact List.mem_cons_self

theorem Node.span_mem_allSpans {nodes : List Node} {node : Node} (member : node ∈ nodes) :
    node.span ∈ Node.allSpans nodes := by
  induction nodes with
  | nil => cases member
  | cons first rest ih =>
    rcases List.mem_cons.mp member with rfl | member
    · exact List.mem_append_left _ node.span_mem_spans
    · exact List.mem_append_right _ (ih member)

theorem Branch.span_mem_allSpans {branches : List Branch} {branch : Branch}
    (member : branch ∈ branches) : branch.span ∈ Branch.allSpans branches := by
  induction branches with
  | nil => cases member
  | cons first rest ih =>
    rcases List.mem_cons.mp member with rfl | member
    · exact List.mem_append_left _ branch.span_mem_spans
    · exact List.mem_append_right _ (ih member)

theorem Attribute.Nested.forwards {entry : Attribute} (nested : entry.Nested) :
    ∀ span ∈ entry.spans, span.start.offset ≤ span.stop.offset :=
  List.forall_mem_cons.mpr ⟨nested.le, fun _ member => (nested.mem member).2.1⟩

mutual

theorem Node.Nested.forwards : ∀ {node : Node}, node.Nested →
    ∀ span ∈ node.spans, span.start.offset ≤ span.stop.offset
  | .tag .., ⟨holds, attributes, children⟩ => by
    refine List.forall_mem_cons.mpr ⟨holds.le, List.forall_mem_append.mpr ⟨?_, ?_⟩⟩
    · intro span member
      obtain ⟨entry, member, inside⟩ := List.mem_flatMap.mp member
      exact (attributes entry member).forwards span inside
    · exact Node.AllNested.forwards children
  | .single .., holds => List.forall_mem_cons.mpr ⟨holds.le, fun _ member => (holds.mem member).2.1⟩
  | .block .., ⟨holds, branches⟩ =>
    List.forall_mem_cons.mpr ⟨holds.le, Branch.AllNested.forwards branches⟩
  | .expression _, holds => List.forall_mem_singleton.mpr holds
  | .text _, holds => List.forall_mem_singleton.mpr holds
  | .comment _, holds => List.forall_mem_singleton.mpr holds

theorem Branch.Nested.forwards : ∀ {branch : Branch}, branch.Nested →
    ∀ span ∈ branch.spans, span.start.offset ≤ span.stop.offset
  | ⟨_, _, _, _⟩, ⟨holds, children⟩ => by
    refine List.forall_mem_cons.mpr ⟨holds.le, List.forall_mem_append.mpr ⟨?_, ?_⟩⟩
    · exact fun span member => (holds.mem (List.mem_append_left _ member)).2.1
    · exact Node.AllNested.forwards children

theorem Node.AllNested.forwards : ∀ {nodes : List Node}, Node.AllNested nodes →
    ∀ span ∈ Node.allSpans nodes, span.start.offset ≤ span.stop.offset
  | [], _ => List.forall_mem_nil _
  | _ :: _, ⟨first, rest⟩ =>
    List.forall_mem_append.mpr ⟨Node.Nested.forwards first, Node.AllNested.forwards rest⟩

theorem Branch.AllNested.forwards : ∀ {branches : List Branch}, Branch.AllNested branches →
    ∀ span ∈ Branch.allSpans branches, span.start.offset ≤ span.stop.offset
  | [], _ => List.forall_mem_nil _
  | _ :: _, ⟨first, rest⟩ =>
    List.forall_mem_append.mpr ⟨Branch.Nested.forwards first, Branch.AllNested.forwards rest⟩

end

def Span.Ends (good : Point → Prop) (span : Span) : Prop := good span.start ∧ good span.stop

variable {good : Point → Prop}

def Token.AllEnd (good : Point → Prop) (tokens : List Token) : Prop :=
  ∀ token ∈ tokens, token.span.Ends good

/-- The last of some spans ends well, and so does nothing after a point that is good. -/
theorem Span.lastEnds {α : Type} (span : α → Span) {items : List α} {point : Point}
    (here : good point) (ends : ∀ item ∈ items, (span item).Ends good) :
    good ((items.getLast?.map fun item => (span item).stop).getD point) := by
  cases last : items.getLast? with
  | none => exact here
  | some item => exact (ends item (List.mem_of_getLast? last)).2

theorem Fragment.ofBraced_ends {script : Braced Token} (ends : Token.AllEnd good script.yield) :
    (ofBraced script).span.Ends good :=
  ⟨(ends script.opening (by simp [Braced.yield])).1, (ends script.closing (by simp [Braced.yield])).2⟩

theorem Concrete.Marker.script_ends {marker : Marker Token}
    (ends : Token.AllEnd good marker.yield) :
    ∀ span ∈ (marker.script.map Fragment.ofToken).toList.map Fragment.span, span.Ends good := by
  cases same : marker.script with
  | none => exact List.forall_mem_nil _
  | some token =>
    exact List.forall_mem_singleton.mpr (ends token (by simp [Marker.yield, same]))

namespace Attribute

theorem ofParts_ends {parts : List (Concrete.Part Token)}
    (ends : Token.AllEnd good (parts.flatMap Concrete.Part.yield)) :
    ∀ piece ∈ ValuePart.ofParts parts, piece.span.Ends good := by
  induction parts with
  | nil => exact List.forall_mem_nil _
  | cons part rest ih =>
    obtain ⟨here, further⟩ := List.forall_mem_append.mp ends
    have others := ih further
    cases part with
    | braced script => exact List.forall_mem_cons.mpr ⟨Fragment.ofBraced_ends here, others⟩
    | text token =>
      have first := here token (List.mem_singleton.mpr rfl)
      rw [ValuePart.ofParts]
      split
      · next after more same =>
        rw [same] at others
        obtain ⟨second, others⟩ := List.forall_mem_cons.mp others
        exact List.forall_mem_cons.mpr ⟨⟨first.1, second.2⟩, others⟩
      · exact List.forall_mem_cons.mpr ⟨first, others⟩

theorem valueOf_ends {assigned : Concrete.Assigned Token}
    (ends : Token.AllEnd good assigned.yield) :
    (∀ piece ∈ (valueOf assigned.equal assigned.value).1, piece.span.Ends good) ∧
      good (valueOf assigned.equal assigned.value).2 := by
  obtain ⟨equal, rest⟩ := List.forall_mem_cons.mp ends
  cases value : assigned.value with
  | quoted quote opening parts closing =>
    rw [value] at rest
    obtain ⟨-, rest⟩ := List.forall_mem_cons.mp rest
    obtain ⟨inside, close⟩ := List.forall_mem_append.mp rest
    exact ⟨ofParts_ends inside, (List.forall_mem_singleton.mp close).2⟩
  | bare parts =>
    rw [value] at rest
    have pieces := ofParts_ends rest
    exact ⟨pieces, Span.lastEnds ValuePart.span equal.2 pieces⟩

theorem ofNamed_ends {name : Token} {modifiers : List (Concrete.Modifier Token)}
    {assigned : Option (Concrete.Assigned Token)}
    (ends : Token.AllEnd good (Concrete.Attribute.named name modifiers assigned).yield) :
    ∀ span ∈ (ofNamed name modifiers assigned).spans, span.Ends good := by
  obtain ⟨first, rest⟩ := List.forall_mem_cons.mp ends
  obtain ⟨marks, value⟩ := List.forall_mem_append.mp rest
  have names : ∀ modifier ∈ modifiers, modifier.name.span.Ends good :=
    fun modifier member => marks modifier.name (name_mem_of_mem member)
  have ended : (∀ piece ∈ (ending name modifiers assigned).1, piece.span.Ends good) ∧
      good (ending name modifiers assigned).2 := by
    cases assigned with
    | none =>
      refine ⟨List.forall_mem_nil _, ?_⟩
      exact Span.lastEnds (fun modifier : Concrete.Modifier Token => modifier.name.span) first.2 names
    | some assigned =>
      rw [Option.toList_some, List.flatMap_singleton] at value
      exact valueOf_ends value
  obtain ⟨span_eq, modifiers_eq, value_eq⟩ := ofNamed_parts name modifiers assigned
  rw [spans, span_eq, modifiers_eq, value_eq, List.map_map]
  refine List.forall_mem_cons.mpr ⟨⟨first.1, ended.2⟩, List.forall_mem_append.mpr ⟨?_, ?_⟩⟩
  · exact List.forall_mem_map.mpr names
  · exact List.forall_mem_map.mpr ended.1

theorem ofItem_ends {item : Item Token} (ends : Token.AllEnd good item.yield) :
    ∀ span ∈ (ofItem item).spans, span.Ends good := by
  have entry : Token.AllEnd good item.entry.yield := (List.forall_mem_append.mp ends).2
  unfold ofItem
  cases same : item.entry with
  | named name modifiers assigned =>
    rw [same] at entry
    exact ofNamed_ends entry
  | braced script =>
    rw [same] at entry
    have span := Fragment.ofBraced_ends entry
    exact List.forall_mem_cons.mpr ⟨span, List.forall_mem_singleton.mpr span⟩

theorem ofHead_ends {head : Head Token} (ends : Token.AllEnd good head.yield) :
    good head.opening.start ∧
      ∀ span ∈ (head.items.map ofItem).flatMap spans, span.Ends good := by
  obtain ⟨first, rest⟩ := List.forall_mem_cons.mp ends
  obtain ⟨items, -⟩ := List.forall_mem_append.mp rest
  refine ⟨first.1, fun span member => ?_⟩
  obtain ⟨entry, member, inside⟩ := List.mem_flatMap.mp member
  obtain ⟨item, among, rfl⟩ := List.mem_map.mp member
  exact ofItem_ends (fun token here => items token (List.mem_flatMap.mpr ⟨item, among, here⟩))
    span inside

end Attribute

namespace Node

/-- A tag whose children and whose end are good. -/
theorem ofHead_ends {head : Head Token} {selfClosing : Bool} {children : List Node} {finish : Point}
    (ends : Token.AllEnd good head.yield) (inside : ∀ span ∈ allSpans children, span.Ends good)
    (last : good finish) :
    ∀ span ∈ (ofHead head selfClosing children finish).spans, span.Ends good := by
  obtain ⟨first, attributes⟩ := Attribute.ofHead_ends ends
  exact List.forall_mem_cons.mpr
    ⟨⟨first, last⟩, List.forall_mem_append.mpr ⟨attributes, inside⟩⟩

theorem lastOr_ends {point : Point} {nodes : List Node} (here : good point)
    (inside : ∀ span ∈ allSpans nodes, span.Ends good) : good (lastOr point nodes) :=
  Span.lastEnds Node.span here fun _ member => inside _ (span_mem_allSpans member)

theorem lastBranch_ends {first : Branch} {others : List Branch} (here : first.span.Ends good)
    (inside : ∀ span ∈ Branch.allSpans others, span.Ends good) :
    good (others.getLast?.getD first).span.stop := by
  cases last : others.getLast? with
  | none => exact here.2
  | some branch => exact (inside _ (Branch.span_mem_allSpans (List.mem_of_getLast? last))).2

/-- A raw element of a source whose places are good. -/
theorem ofRaw_ends {source : Text} {known : RawElement} {head : Head Token} {body : RawBody Token}
    (walked : ∀ front back, source = front ++ back → good (Point.origin.walk front))
    (tagged : Child.Tagged source (.raw known head body))
    (ends : Token.AllEnd good (head.yield ++ body.yield)) :
    ∀ span ∈ (ofRaw known head body).spans, span.Ends good := by
  obtain ⟨front, back⟩ := List.forall_mem_append.mp ends
  obtain ⟨first, attributes⟩ := Attribute.ofHead_ends front
  cases body with
  | selfClosed closing =>
    have last := (List.forall_mem_singleton.mp back).2
    exact List.forall_mem_cons.mpr
      ⟨⟨first, last⟩, List.forall_mem_append.mpr ⟨attributes, List.forall_mem_nil _⟩⟩
  | content angle rest =>
    obtain ⟨-, back⟩ := List.forall_mem_cons.mp back
    have last := List.forall_mem_singleton.mp back
    obtain ⟨before, text, tag, after, source_eq, like, start_eq, after_eq⟩ := tagged
    have text_ends : (Fragment.ofRaw known rest).span.Ends good := by
      refine ⟨last.1, ?_⟩
      rw [Fragment.ofRaw_stop like after_eq]
      exact walked _ (tag ++ after) (by rw [source_eq, List.append_assoc])
    exact List.forall_mem_cons.mpr ⟨⟨first, last.2⟩,
      List.forall_mem_append.mpr ⟨attributes, List.forall_mem_singleton.mpr text_ends⟩⟩

mutual

/-- Where the ends of all tokens are good, so are the ends of all spans. -/
theorem ofChild_ends {source : Text}
    (walked : ∀ front back, source = front ++ back → good (Point.origin.walk front)) :
    ∀ {child : Child Token},
    (∀ inner ∈ child.family, inner.Tagged source) → Token.AllEnd good child.yield →
      ∀ span ∈ (ofChild child).spans, span.Ends good
  | .text token, _, ends => List.forall_mem_singleton.mpr (ends token List.mem_cons_self)
  | .comment token, _, ends => List.forall_mem_singleton.mpr (ends token List.mem_cons_self)
  | .braced _, _, ends => List.forall_mem_singleton.mpr (Fragment.ofBraced_ends ends)
  | .single marker, _, ends => by
    refine List.forall_mem_cons.mpr ⟨⟨?_, ?_⟩, Concrete.Marker.script_ends ends⟩
    · exact (ends marker.opening (by simp [Child.yield, Marker.yield])).1
    · exact (ends marker.closing (by simp [Child.yield, Marker.yield])).2
  | .block first others finish, tagged, ends => by
    obtain ⟨_, tagged⟩ := List.forall_mem_cons.mp tagged
    obtain ⟨tagged, rest_tagged⟩ := List.forall_mem_append.mp tagged
    obtain ⟨clauses, ending⟩ := List.forall_mem_append.mp ends
    obtain ⟨opened, tail⟩ := List.forall_mem_append.mp clauses
    have here := ofBranch_ends walked tagged opened
    have rest := ofBranches_ends walked rest_tagged tail
    have begins := here _ (ofBranch first).span_mem_spans
    refine List.forall_mem_cons.mpr ⟨⟨begins.1, ?_⟩, List.forall_mem_append.mpr ⟨here, rest⟩⟩
    cases finish with
    | none => exact lastBranch_ends begins rest
    | some finish =>
      exact (ending finish.closing (by simp [BlockEnd.yield])).2
  | .raw known head body, tagged, ends =>
    ofRaw_ends walked (tagged _ List.mem_cons_self) ends
  | .selfClosed head slash angle, _, ends => by
    obtain ⟨front, back⟩ := List.forall_mem_append.mp ends
    exact ofHead_ends front (List.forall_mem_nil _) (back angle (by simp)).2
  | .void head angle, _, ends => by
    obtain ⟨front, back⟩ := List.forall_mem_append.mp ends
    exact ofHead_ends front (List.forall_mem_nil _) (back angle (by simp)).2
  | .element head angle content close, tagged, ends => by
    obtain ⟨_, tagged⟩ := List.forall_mem_cons.mp tagged
    obtain ⟨body, ending⟩ := List.forall_mem_append.mp ends
    obtain ⟨front, back⟩ := List.forall_mem_append.mp body
    obtain ⟨opened, inside⟩ := List.forall_mem_cons.mp back
    have children := ofChildren_ends walked tagged inside
    refine ofHead_ends front children ?_
    cases close with
    | none => exact lastOr_ends opened.2 children
    | some close => exact (ending close.angle (by simp [CloseTag.yield])).2

theorem ofBranch_ends {source : Text}
    (walked : ∀ front back, source = front ++ back → good (Point.origin.walk front)) :
    ∀ {branch : Concrete.Branch Token},
    (∀ inner ∈ branch.family, inner.Tagged source) → Token.AllEnd good branch.yield →
      ∀ span ∈ (ofBranch branch).spans, span.Ends good
  | ⟨marker, content⟩, tagged, ends => by
    obtain ⟨opened, tail⟩ := List.forall_mem_append.mp ends
    have children := ofChildren_ends walked tagged tail
    have begins := (opened marker.opening (by simp [Marker.yield])).1
    have closes := (opened marker.closing (by simp [Marker.yield])).2
    exact List.forall_mem_cons.mpr ⟨⟨begins, lastOr_ends closes children⟩,
      List.forall_mem_append.mpr ⟨Concrete.Marker.script_ends opened, children⟩⟩

theorem ofChildren_ends {source : Text}
    (walked : ∀ front back, source = front ++ back → good (Point.origin.walk front)) :
    ∀ {children : List (Child Token)},
    (∀ inner ∈ Child.families children, inner.Tagged source) →
      Token.AllEnd good (Child.yields children) →
        ∀ span ∈ allSpans (ofChildren children), span.Ends good
  | [], _, _ => List.forall_mem_nil _
  | child :: rest, tagged, ends => by
    obtain ⟨tagged, rest_tagged⟩ := List.forall_mem_append.mp tagged
    obtain ⟨here, further⟩ := List.forall_mem_append.mp ends
    exact List.forall_mem_append.mpr
      ⟨ofChild_ends walked tagged here, ofChildren_ends walked rest_tagged further⟩

theorem ofBranches_ends {source : Text}
    (walked : ∀ front back, source = front ++ back → good (Point.origin.walk front)) :
    ∀ {branches : List (Concrete.Branch Token)},
    (∀ inner ∈ Concrete.Branch.families branches, inner.Tagged source) →
      Token.AllEnd good (Concrete.Branch.yields branches) →
        ∀ span ∈ Branch.allSpans (ofBranches branches), span.Ends good
  | [], _, _ => List.forall_mem_nil _
  | branch :: rest, tagged, ends => by
    obtain ⟨tagged, rest_tagged⟩ := List.forall_mem_append.mp tagged
    obtain ⟨here, further⟩ := List.forall_mem_append.mp ends
    exact List.forall_mem_append.mpr
      ⟨ofBranch_ends walked tagged here, ofBranches_ends walked rest_tagged further⟩

end

end Node

/-- A point that walking over the beginning of a text leads to. -/
def Point.Walked (text : Text) (point : Point) : Prop :=
  ∃ front back, text = front ++ back ∧ point = origin.walk front

/-- What walking over the beginning of a text leads to is a place of every text that goes on with
it. -/
theorem Point.Walked.exact {text : Text} {point : Point} (walked : point.Walked text)
    (more : Text) : point.Exact (text ++ more) := by
  obtain ⟨front, back, rfl, rfl⟩ := walked
  refine ⟨front, back ++ more, ?_, rfl⟩
  rw [Point.offset_walk, List.append_assoc]
  have zero : origin.offset = 0 := rfl
  rw [zero, Nat.zero_add, Text.cut?_append]

/-- Between two places of a text there is a part of it. -/
theorem Span.exact_of_walked {text : Text} {span : Span} (ends : span.Ends (Point.Walked text))
    (ordered : span.start.offset ≤ span.stop.offset) (more : Text) :
    span.Exact (text ++ more) := by
  refine ⟨ends.1.exact more, ends.2.exact more, ordered, ?_⟩
  obtain ⟨⟨front, rest, split, start_eq⟩, first, back, split', stop_eq⟩ := ends
  rw [start_eq, stop_eq, Point.offset_walk, Point.offset_walk] at ordered
  obtain ⟨part, rest_eq⟩ := Scanner.exists_between (split.symm.trans split')
    (Nat.le_of_add_le_add_left ordered)
  have first_eq : first = front ++ part := by
    rw [split, rest_eq, ← List.append_assoc] at split'
    exact (List.append_cancel_right split').symm
  obtain ⟨start, stop⟩ := span
  refine ⟨part, ?_⟩
  cases start_eq
  cases stop_eq
  rw [split, rest_eq, first_eq, ← List.append_assoc, List.append_assoc _ back more]
  exact Span.slice?_walk front part (back ++ more)

theorem Token.StandsIn.walked {text front back : Text} {token : Token}
    (stands : token.StandsIn text front back) : token.span.Ends (Point.Walked text) := by
  refine ⟨⟨front, token.image ++ back, ?_, stands.start_eq⟩, ⟨_, back, ?_, stands.after_eq⟩⟩
  · rw [stands.source_eq, List.append_assoc]
  · exact stands.source_eq

/-- A span of a text that runs forwards, between two points that walking over the text leads to. -/
structure Span.Lies (text : Text) (span : Span) : Prop where
  ends : span.Ends (Point.Walked text)
  ordered : span.start.offset ≤ span.stop.offset

theorem Span.lies_empty {text : Text} {point : Point} (walked : point.Walked text) :
    (Span.empty point).Lies text := ⟨⟨walked, walked⟩, Nat.le_refl _⟩

/-- What a scan reports stands in its source. -/
theorem Scanned.Tiles.lies {text : Text} {scanned : Scanned} {stretches : List Stretch}
    (tiles : scanned.Tiles text stretches) :
    ∀ problem ∈ scanned.faults.map LexicalFault.problem, problem.span.Lies text := by
  rw [tiles.problems_eq]
  refine List.forall_mem_append.mpr ⟨fun problem member => ?_, fun problem member => ?_⟩
  · obtain ⟨⟨point, stretch⟩, placed, reported⟩ := List.mem_filterMap.mp member
    cases stretch with
    | token kind image => cases reported
    | gap char more =>
      cases reported
      obtain ⟨front, back, split, rfl⟩ := Stretch.placed_split placed
      have source_eq : text = Stretch.texts front ++ ([char] ++ (more ++ Stretch.texts back)) := by
        rw [← tiles.source_eq, split, Stretch.texts_append, Stretch.texts_cons]
        rfl
      have after : (Point.origin.walk (Stretch.texts front)).next char =
          Point.origin.walk (Stretch.texts front ++ [char]) := (Point.walk_append _ _ [char]).symm
      refine ⟨⟨⟨_, _, source_eq, rfl⟩, ⟨_, more ++ Stretch.texts back, ?_, after⟩⟩, ?_⟩
      · rw [source_eq, List.append_assoc]
      · change _ ≤ (Point.next _ char).offset
        rw [Point.offset_next]
        exact Nat.le_add_right _ _
  · unfold ModeStack.problems at member
    split at member
    · cases member
    · cases List.mem_singleton.mp member
      exact Span.lies_empty ⟨text, [], (List.append_nil _).symm, rfl⟩

/-- From the first of some spans in order to the last. -/
theorem Span.Between.forwards {low high : Nat} {spans : List Span} {first last : Span}
    (between : Between low high spans) (head : spans.head? = some first)
    (final : spans.getLast? = some last) : first.start.offset ≤ last.stop.offset := by
  cases spans with
  | nil => cases head
  | cons other rest =>
    cases head
    obtain ⟨-, forwards, further⟩ := between
    rw [List.getLast?_cons, Option.some.injEq] at final
    cases ends : rest.getLast? with
    | none =>
      rw [ends] at final
      exact final ▸ forwards
    | some span =>
      rw [ends] at final
      cases final
      have inside := further.mem (List.mem_of_getLast? ends)
      exact forwards.trans (inside.1.trans inside.2.1)

/-- A site among the tokens of a scan stands in its source. -/
theorem Concrete.Site.Within.lies {text : Text} {site : Site Token}
    (within : site.Within (scan text).tokens) :
    (site.span (Concrete.finishOf (scan text).tokens)).Lies text := by
  obtain ⟨stretches, tiles⟩ := exists_tiles text
  have stands : ∀ token ∈ (scan text).tokens, token.span.Ends (Point.Walked text) := by
    intro token member
    obtain ⟨front, back, stands⟩ := tiles.standsIn member
    exact stands.walked
  have between := between_scan text
  cases site with
  | across first last =>
    obtain ⟨run, inside, head, final⟩ := within
    have begins := stands first (inside.subset (List.mem_of_head? head))
    have ends := stands last (inside.subset (List.mem_of_getLast? final))
    have ordered := (between.sublist (inside.sublist.map _)).forwards
      (by rw [List.head?_map, head]; rfl) (by rw [List.getLast?_map, final]; rfl)
    exact ⟨⟨begins.1, ends.2⟩, ordered⟩
  | before token =>
    exact ⟨stands token within, (between.mem (List.mem_map_of_mem within)).2.1⟩
  | finish =>
    refine Span.lies_empty ?_
    unfold Concrete.finishOf
    cases last : (scan text).tokens.getLast? with
    | none => exact ⟨[], text, rfl, rfl⟩
    | some token => exact (stands token (List.mem_of_getLast? last)).2

/-- The document of nodes whose spans stand in a text stands in it. -/
theorem Document.ofNodes_ends {nodes : List Node} (start : good .origin)
    (inside : ∀ span ∈ Node.allSpans nodes, span.Ends good) : (ofNodes nodes).span.Ends good := by
  cases nodes with
  | nil => exact ⟨start, start⟩
  | cons first rest =>
    obtain ⟨here, further⟩ := List.forall_mem_append.mp inside
    have begins := here _ first.span_mem_spans
    exact ⟨begins.1, Node.lastOr_ends begins.2 further⟩

theorem Document.ofNodes_children (nodes : List Node) : (ofNodes nodes).children = nodes := by
  cases nodes <;> rfl

/-- Every place in the result of parsing, whatever is wrong with the source, is exact: its offset
lies between two characters of the text that was read, and its line and column are those that
walking over the source from its beginning up to the offset gives. Every span ends where it begins
or later, and it can be cut out of the source. -/
theorem parse_exact (options : Options) (source : Text) :
    ∀ span ∈ (parse options source).spans,
      span.Exact (options.read source) ∧ span.Exact source := by
  set text := options.read source
  have ordered := ordered_build text
  have nested : (parse options source).document.Nested := Document.ofConcrete_nested ordered
  obtain ⟨stands, -, tagged⟩ := ordered
  obtain ⟨stretches, tiles⟩ := exists_tiles text
  have walked : ∀ front back, text = front ++ back →
      (Point.origin.walk front).Walked text := fun front back split => ⟨front, back, split, rfl⟩
  have tokens : Token.AllEnd (Point.Walked text)
      (Child.yields (Concrete.build (scan text).tokens).children) := by
    intro token member
    obtain ⟨front, back, stands⟩ := stands token member
    exact stands.walked
  have parts := Node.ofChildren_ends walked tagged tokens
  have lies : ∀ span ∈ (parse options source).spans, span.Lies text := by
    refine List.forall_mem_cons.mpr ⟨⟨?_, nested.holds.le⟩, List.forall_mem_append.mpr ⟨?_, ?_⟩⟩
    · exact Document.ofNodes_ends ⟨[], text, rfl, rfl⟩ parts
    · refine fun span member => ⟨parts span ?_, nested.nested.forwards span member⟩
      rwa [← Document.ofNodes_children (Node.ofChildren _)]
    · refine List.forall_mem_map.mpr (List.forall_mem_append.mpr ⟨tiles.lies, ?_⟩)
      refine List.forall_mem_map.mpr fun fault recorded => ?_
      exact ((Concrete.sound_build (scan text).tokens).1 fault recorded).lies
  obtain ⟨blanks, source_eq, -⟩ := options.read_append source
  intro span member
  obtain ⟨ends, ordered⟩ := lies span member
  have here := Span.exact_of_walked ends ordered []
  have further := Span.exact_of_walked ends ordered blanks
  rw [List.append_nil] at here
  exact ⟨here, source_eq ▸ further⟩

/-- A closing tag that closes nothing, on the second line and after a letter of two bytes. -/
def strayClose : Text := "é\n</p>".toList

theorem strayClose_exact :
    (parse {} strayClose).problems.map Problem.span = [⟨⟨2, 1, 3⟩, ⟨2, 5, 7⟩⟩] ∧
      Span.Exact strayClose ⟨⟨2, 1, 3⟩, ⟨2, 5, 7⟩⟩ := by
  have found : (parse {} strayClose).problems.map Problem.span = [⟨⟨2, 1, 3⟩, ⟨2, 5, 7⟩⟩] := by
    decide +kernel
  have member : ⟨⟨2, 1, 3⟩, ⟨2, 5, 7⟩⟩ ∈ (parse {} strayClose).spans :=
    List.mem_append_right _ (found ▸ List.mem_singleton.mpr rfl)
  exact ⟨found, (parse_exact {} strayClose _ member).2⟩

end Template
