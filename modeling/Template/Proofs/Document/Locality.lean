import Template.Proofs.Concrete.Locality
import Template.Proofs.Document.Exactness
import Template.Proofs.Document.Moving

set_option autoImplicit false

namespace Template

open Concrete (Child build)

/-- Whether a tag is a script, a style sheet or a text area, whose content is read as it stands. -/
def TagType.isRaw (type : TagType) (name : Text) : Bool :=
  match type with
  | .script | .style => true
  | .element => Text.lower name = RawElement.textArea.name.toList
  | .component | .namespaced => false

/-- The nodes that a node holds directly, without the text of a raw element. -/
def Node.parts : Node → List Node
  | .tag type name _ _ children _ =>
    if type.isRaw name then children.filter (!·.isText) else children
  | .block _ branches _ => branches.flatMap Branch.children
  | .single .. | .expression _ | .text _ | .comment _ => []

/-- A document has a node, at any depth. -/
def Document.Has (document : Document) (node : Node) : Prop :=
  ∃ top ∈ document.children,
    Relation.ReflTransGen (fun outer inner => inner ∈ outer.parts) top node

/-- A node with its places counted from another place, as if a source began there. -/
def Node.rebase (base : Point) (node : Node) : Node := node.move base.rebase

/-- A raw element is opened with its name, in letters of any size. -/
theorem Munch.lower_tagName_of_rawOpen {token : Token} {known : RawElement}
    (belongs : Language (.rawOpen known) token.image) :
    Text.lower token.tagName = known.name.toList := by
  obtain ⟨first, more, letters, name_eq, image_eq, like⟩ := belongs
  have small : Text.lower known.name.toList = known.name.toList := by cases known <;> decide
  have plain : ∀ char ∈ known.name.toList, char ≠ '<' ∧ char ≠ '/' :=
    List.all_iff_forall_prop.mp (by cases known <;> decide)
  rw [name_eq] at small plain ⊢
  have letter := plain first List.mem_cons_self
  have tagName_eq : token.tagName = first :: letters := by
    simp [Token.tagName, image_eq, letter.1, letter.2]
  rw [tagName_eq, Text.lower, List.map_cons, (List.cons.inj small).1]
  exact congrArg (first :: ·) like

namespace Node

theorem parts_tag (type : TagType) (name : Text) (selfClosing : Bool)
    (attributes : List Attribute) (children : List Node) (span : Span) :
    (tag type name selfClosing attributes children span).parts ⊆ children := by
  rw [parts]
  split
  · exact List.filter_subset_self children
  · exact List.Subset.refl children

/-- The text of a raw element is not one of its parts. -/
theorem parts_ofRaw {known : RawElement} {head : Concrete.Head Token} {body : Concrete.RawBody Token}
    (opened : Munch.Language (.rawOpen known) head.opening.image) :
    (ofRaw known head body).parts = [] := by
  have raw : (TagType.ofRaw known).isRaw head.opening.tagName = true := by
    cases known with
    | textArea => exact decide_eq_true (Munch.lower_tagName_of_rawOpen opened)
    | _ => rfl
  cases body <;> exact if_pos raw

variable {depth : Nat} {after : List Token}

/-- What the node of a well-formed child holds are the nodes of what the child holds. -/
theorem exists_of_mem_parts {child : Child Token} (formed : child.Formed .whole depth after)
    (belongs : ∀ token ∈ child.yield, Munch.Language token.kind token.image) {node : Node}
    (member : node ∈ (ofChild child).parts) : ∃ inner ∈ child.contents, ofChild inner = node := by
  cases child with
  | block first others finish =>
    have branches : node ∈ (ofBranches (first :: others)).flatMap Branch.children := by
      cases finish <;> exact member
    rw [ofBranches_eq, List.flatMap_map] at branches
    obtain ⟨⟨marker, content⟩, among, inside⟩ := List.mem_flatMap.mp branches
    have inside : node ∈ ofChildren content := inside
    rw [ofChildren_eq] at inside
    obtain ⟨inner, held, same⟩ := List.mem_map.mp inside
    exact ⟨inner, List.mem_flatMap.mpr ⟨_, among, held⟩, same⟩
  | element head angle content close =>
    have inside : node ∈ ofChildren content := by
      cases close <;> exact parts_tag _ _ _ _ _ _ member
    rw [ofChildren_eq] at inside
    exact List.mem_map.mp inside
  | raw known head body =>
    have opened := belongs head.opening (by simp [Child.yield, Concrete.Head.yield])
    have kind : head.opening.kind = .rawOpen known := formed.1.opening
    rw [kind] at opened
    rw [ofChild, parts_ofRaw opened] at member
    cases member
  | selfClosed | void => cases parts_tag _ _ _ _ _ _ member
  | _ => cases member

/-- Every node inside that of a well-formed child is the node of a child among its tokens. -/
theorem exists_sits {child : Child Token} (formed : child.Formed .whole depth after)
    (belongs : ∀ token ∈ child.yield, Munch.Language token.kind token.image) {node : Node}
    (inside : Relation.ReflTransGen (fun outer inner => inner ∈ outer.parts) (ofChild child) node) :
    ∃ inner : Child Token, ofChild inner = node ∧ inner.Sits child.yield := by
  induction inside with
  | refl => exact ⟨child, rfl, formed.sits⟩
  | tail _ member ih =>
    obtain ⟨outer, rfl, sits⟩ := ih
    obtain ⟨_, _, sound⟩ := sits.formed
    obtain ⟨inner, held, rfl⟩ := exists_of_mem_parts sound
      (fun token among => belongs token (sits.subset among)) member
    exact ⟨inner, rfl, (sound.sits_contents inner held).trans sits⟩

end Node

/-- What is read of a source begins at its first column or later, wherever it is counted from. -/
theorem Point.one_le_column_rebase {base point : Point} (positive : 1 ≤ point.column) :
    1 ≤ (base.rebase point).column := by
  unfold rebase
  split
  · exact Nat.le_add_left 1 _
  · exact positive

theorem Token.steady_place {base point : Point} (follows : base.Follows point)
    (positive : 1 ≤ point.column) {kind : Kind} {image : Text}
    (belongs : Munch.Language kind image) : (place kind image point).Steady base.rebase where
  after := by rw [move_place follows, after_place, after_place, (follows.walk image).2]
  back := by
    rintro known (rfl : kind = _)
    obtain ⟨⟨body, tag, image_eq, like⟩, -⟩ := belongs
    have ascii := ascii_endTag known
    have undone : ∀ {point : Point}, 1 ≤ point.column →
        (point.walk image).back (Text.size known.endTag.toList) = point.walk body := by
      intro point positive
      rw [image_eq, Point.walk_append, ← size_of_lower like ascii]
      exact Point.back_walk (ascii_of_lower like ascii) (Point.one_le_column_walk positive body)
    rw [after_place, undone positive, (follows.walk image).2, (follows.walk body).2]
    exact undone (Point.one_le_column_rebase positive)

namespace Reads

variable {modes : ModeStack} {base point : Point} {text : Text} {tokens : List Token}

theorem steady (reads : Reads modes point text tokens) (follows : base.Follows point)
    (positive : 1 ≤ point.column) : Token.AllSteady base.rebase tokens := by
  induction reads with
  | nil => exact List.forall_mem_nil _
  | @cons modes point kind image rest tokens takes _ ih =>
    refine List.forall_mem_cons.mpr ⟨Token.steady_place follows positive takes.belongs, ?_⟩
    exact ih (follows.walk image).1 (Point.one_le_column_walk positive image)

theorem tile (reads : Reads modes point text tokens) :
    Token.Tile point (point.walk text) tokens := by
  induction reads with
  | nil => rfl
  | @cons modes point kind image rest tokens takes _ ih =>
    refine ⟨rfl, ?_⟩
    change Span.Tile (Token.after _) _ _
    rw [Token.after_place, Point.walk_append]
    exact ih

end Reads

/-- The grammar does not see where tokens stand. -/
theorem Token.keeps_move (f : Point → Point) : Terminal.Keeps (Token.move f) :=
  ⟨fun _ => rfl, fun _ _ => rfl, fun _ _ => rfl⟩

/-- The text of a well-formed child, read from some place on, is a source of its own. -/
theorem parse_of_reads {base : Point} {text : Text} {child : Child Token} {depth : Nat}
    {after : List Token} (reads : Reads .initial base text child.yield)
    (positive : 1 ≤ base.column) (formed : child.Formed .whole depth after) :
    (parse { trimEnd := false } text).problems = [] ∧
      (parse { trimEnd := false } text).document.children = [(Node.ofChild child).rebase base] := by
  set moved := child.yield.map (Token.move base.rebase)
  have origin : base.rebase base = .origin := Point.rebase_walk base []
  have again : Reads .initial .origin text moved := origin ▸ reads.rebase (Point.follows_refl base)
  have ended : ModeStack.after moved = .initial := by
    rw [ModeStack.after_eq_through, List.map_map]
    exact formed.neutral .initial
  have scanned : scan text = ⟨moved, []⟩ := scan_eq_iff.mpr ⟨again, by rw [ended]; rfl⟩
  have built : build moved = ⟨[child.map (Token.move base.rebase)], []⟩ := by
    have alone := Concrete.build_of_wellFormed formed.alone
    rw [Child.yields, Child.yields, List.append_nil] at alone
    rw [Concrete.build_map (Token.keeps_move _), alone]
    rfl
  have parsed : parse { trimEnd := false } text =
      ⟨.ofConcrete [child.map (Token.move base.rebase)], []⟩ := by
    have read : Options.read { trimEnd := false } text = text := rfl
    rw [parse, read, scanned, parseTokens, built]
    rfl
  have node := Node.ofChild_move formed (reads.steady (Point.follows_refl base) positive)
  rw [parsed]
  exact ⟨rfl, congrArg (fun node => [node]) node⟩

/-- Where nothing is wrong with a source, a node of its document is that of a well-formed child whose
tokens can be read from the place where it begins, in the mode in which sources begin. -/
theorem Document.Has.exists_reads {source : Text} {node : Node}
    (sound : (parse { trimEnd := false } source).problems = [])
    (has : (parse { trimEnd := false } source).document.Has node) :
    ∃ (front slice back : Text) (child : Child Token), source = front ++ slice ++ back ∧
      Reads .initial (Point.origin.walk front) slice child.yield ∧
      (∃ depth after, child.Formed .whole depth after) ∧ Node.ofChild child = node := by
  obtain ⟨scanned, parsed⟩ := List.append_eq_nil_iff.mp sound
  have clean : (scan source).faults = [] := List.map_eq_nil_iff.mp scanned
  have faultless : (build (scan source).tokens).faults = [] := List.map_eq_nil_iff.mp parsed
  have formed := Concrete.wellFormed_of_clean faultless
  have yields := Concrete.yields_of_clean faultless
  obtain ⟨reads, -⟩ := scan_eq_iff.mp (congrArg (Scanned.mk (scan source).tokens) clean)
  -- The node is that of a child among the tokens.
  obtain ⟨top, among, inside⟩ := has
  have among : top ∈ Node.ofChildren (build (scan source).tokens).children := by
    rwa [← Document.ofNodes_children (Node.ofChildren _)]
  rw [Node.ofChildren_eq] at among
  obtain ⟨outer, member, rfl⟩ := List.mem_map.mp among
  have around := formed.sits outer member
  rw [yields] at around
  obtain ⟨_, _, outer_formed⟩ := around.formed
  obtain ⟨child, same, held⟩ := Node.exists_sits outer_formed
    (fun token member => reads.belongs token (around.subset member)) inside
  -- Its tokens are read between those before and those after it.
  obtain ⟨front, back, tokens_eq, neutral, child_formed⟩ := held.trans around
  rw [tokens_eq] at reads
  obtain ⟨before, rest, source_eq, -, reads⟩ := reads.split
  obtain ⟨slice, behind, rfl, here, -⟩ := reads.split
  have modes : ModeStack.initial.through (front.map Token.kind) = .initial := neutral .initial
  rw [modes] at here
  rw [← List.append_assoc] at source_eq
  exact ⟨before, slice, behind, child, source_eq, here, child_formed, same⟩

/-- Where nothing is wrong with a source, nothing is wrong with the text under a node of its
document, at any depth, and the document of that text has one child: the node, with its places
counted from where it begins. Only the text of a raw element is no source of its own. -/
theorem parse_local {source : Text} {node : Node}
    (sound : (parse { trimEnd := false } source).problems = [])
    (has : (parse { trimEnd := false } source).document.Has node) :
    ∃ slice, node.span.slice? source = some slice ∧
      (parse { trimEnd := false } slice).problems = [] ∧
      (parse { trimEnd := false } slice).document.children = [node.rebase node.span.start] := by
  obtain ⟨front, slice, back, child, rfl, reads, ⟨_, _, formed⟩, rfl⟩ := has.exists_reads sound
  have span_eq := Node.ofChild_span reads.tile
  rw [← Point.walk_append] at span_eq
  have positive : 1 ≤ (Point.origin.walk front).column :=
    Point.one_le_column_walk (Nat.le_refl 1) front
  refine ⟨slice, ?_, ?_⟩
  · rw [span_eq]
    exact Span.slice?_walk front slice back
  · rw [span_eq]
    exact parse_of_reads reads positive formed

/-- The second item of the loose list, which is ended there by the end of the list. -/
def looseItem : Text := "<li>b\x7b#if c\x7d,\x7b:else\x7d<br>\x7b/if\x7d".toList

theorem looseItem_local : ∃ item,
    (parse { trimEnd := false } looseList).document.Has item ∧
      item.span.slice? looseList = some looseItem ∧
      (parse { trimEnd := false } looseItem).problems = [] ∧
      (parse { trimEnd := false } looseItem).document.children = [item.rebase item.span.start] := by
  have sound : (parse { trimEnd := false } looseList).problems = [] := by decide +kernel
  have sliced : (((parse { trimEnd := false } looseList).document.children.head?.bind fun list =>
      list.parts.getLast?).bind fun item => item.span.slice? looseList) = some looseItem := by
    decide +kernel
  obtain ⟨item, held, slice_eq⟩ := Option.bind_eq_some_iff.mp sliced
  obtain ⟨list, first, last⟩ := Option.bind_eq_some_iff.mp held
  have has : (parse { trimEnd := false } looseList).document.Has item :=
    ⟨list, List.mem_of_head? first, .single (List.mem_of_getLast? last)⟩
  obtain ⟨slice, same, alone⟩ := parse_local sound has
  cases same.symm.trans slice_eq
  exact ⟨item, has, slice_eq, alone⟩

end Template
