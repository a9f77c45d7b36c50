import Template.Parse
import Template.Proofs.Concrete.Soundness
import Template.Proofs.Document.Extents
import Template.Proofs.Scan.Placement

set_option autoImplicit false

namespace Template

open Concrete (Child Braced Marker BlockEnd CloseTag Head RawBody)

namespace Span

/-- Spans that lie side by side from one point to another. -/
def Tile (start stop : Point) : List Span → Prop
  | [] => start = stop
  | span :: rest => span.start = start ∧ Tile span.stop stop rest

theorem tile_append {start stop : Point} {front back : List Span} :
    Tile start stop (front ++ back) ↔
      ∃ middle, Tile start middle front ∧ Tile middle stop back := by
  induction front generalizing start with
  | nil => simp only [List.nil_append, Tile, exists_eq_left']
  | cons span rest ih => simp only [List.cons_append, Tile, ih, and_assoc, exists_and_left]

/-- What lies side by side meets. -/
theorem Tile.meet {start stop : Point} {spans : List Span} (tile : Tile start stop spans) :
    spans.IsChain fun left right => left.stop = right.start := by
  induction spans generalizing start with
  | nil => exact .nil
  | cons first rest ih =>
    cases rest with
    | nil => exact .singleton first
    | cons second rest => exact .cons_cons tile.2.1.symm (ih tile.2)

/-- The last of the spans ends where all of them do. -/
theorem Tile.last {start stop : Point} {spans : List Span} (tile : Tile start stop spans) :
    (spans.getLast?.map Span.stop).getD start = stop := by
  rcases List.eq_nil_or_concat spans with rfl | ⟨front, span, rfl⟩
  · exact tile
  · rw [List.concat_eq_append] at tile ⊢
    obtain ⟨middle, -, tile⟩ := tile_append.mp tile
    rw [List.getLast?_concat, Option.map_some, Option.getD_some]
    exact tile.2

end Span

namespace Token

/-- Tokens that lie side by side from one point to another. -/
def Tile (start stop : Point) (tokens : List Token) : Prop := Span.Tile start stop (tokens.map span)

theorem tile_append {start stop : Point} {front back : List Token} :
    Tile start stop (front ++ back) ↔
      ∃ middle, Tile start middle front ∧ Tile middle stop back := by
  rw [Tile, List.map_append]
  exact Span.tile_append

/-- The last of the tokens ends where all of them do. -/
theorem Tile.after_eq {start stop : Point} {front : List Token} {last : Token}
    (tile : Tile start stop (front ++ [last])) : last.after = stop := by
  obtain ⟨_, -, ends⟩ := tile_append.mp tile
  exact ends.2

end Token

section Spans

variable {start stop : Point}

/-- What covers tokens side by side runs from where they begin to where they end. -/
theorem Span.Covers.eq_of_tile {tokens : List Token} {span : Span} (covers : span.Covers tokens)
    (tile : Token.Tile start stop tokens) : span = ⟨start, stop⟩ := by
  obtain ⟨begins, ends⟩ := covers
  have last := Span.Tile.last tile
  rw [List.getLast?_map, Option.map_map] at last
  have finish : span.stop = stop := by
    rw [← last]
    exact (congrArg (Option.getD · start) ends).symm
  cases tokens with
  | nil => cases begins
  | cons token rest =>
    have first : token.start = span.start := Option.some.inj begins
    rw [← finish, ← tile.1]
    exact congrArg (Span.mk · span.stop) first.symm

namespace Node

theorem lastOr_eq {nodes : List Node} (tile : Span.Tile start stop (nodes.map span)) :
    lastOr start nodes = stop := by
  have last := tile.last
  rw [List.getLast?_map, Option.map_map] at last
  exact last

/-- A node covers the tokens it was made from. -/
theorem ofChild_span {child : Child Token} (tile : Token.Tile start stop child.yield) :
    (ofChild child).span = ⟨start, stop⟩ := (ofChild_covers child).eq_of_tile tile

theorem ofBranch_span {branch : Concrete.Branch Token}
    (tile : Token.Tile start stop branch.yield) : (ofBranch branch).span = ⟨start, stop⟩ :=
  (ofBranch_covers branch).eq_of_tile tile

theorem ofChildren_tile {children : List (Child Token)}
    (tile : Token.Tile start stop (Child.yields children)) :
    Span.Tile start stop ((ofChildren children).map span) := by
  induction children generalizing start with
  | nil => exact tile
  | cons child rest ih =>
    obtain ⟨middle, first, tail⟩ := Token.tile_append.mp tile
    rw [ofChildren, List.map_cons, ofChild_span first]
    exact ⟨rfl, ih tail⟩

theorem ofBranches_tile {branches : List (Concrete.Branch Token)}
    (tile : Token.Tile start stop (Concrete.Branch.yields branches)) :
    Span.Tile start stop ((ofBranches branches).map Branch.span) := by
  induction branches generalizing start with
  | nil => exact tile
  | cons branch rest ih =>
    obtain ⟨middle, first, tail⟩ := Token.tile_append.mp tile
    rw [ofBranches, List.map_cons, ofBranch_span first]
    exact ⟨rfl, ih tail⟩

end Node

end Spans

/-- Two tokens that may stand side by side: not both of them are texts. -/
def Token.Apart (left right : Token) : Prop := ¬ (left.kind = .text ∧ right.kind = .text)

/-- Tokens side by side from one point to another, with no text beside a text. -/
structure Token.Row (start stop : Point) (tokens : List Token) : Prop where
  tile : Tile start stop tokens
  apart : tokens.IsChain Apart

theorem Token.Row.split {start stop : Point} {front back : List Token}
    (row : Row start stop (front ++ back)) :
    ∃ middle, Row start middle front ∧ Row middle stop back := by
  obtain ⟨middle, first, second⟩ := tile_append.mp row.tile
  obtain ⟨before, after, -⟩ := List.isChain_append.mp row.apart
  exact ⟨middle, ⟨first, before⟩, ⟨second, after⟩⟩

theorem Token.Row.tail {start stop : Point} {first : Token} {rest : List Token}
    (row : Row start stop (first :: rest)) : Row first.after stop rest :=
  ⟨row.tile.2, row.apart.tail⟩

def Node.isText : Node → Bool
  | .text _ => true
  | _ => false

/-- Two nodes that may stand side by side: the second begins where the first ends, and not both of
them are texts. -/
def Node.Meets (left right : Node) : Prop :=
  left.span.stop = right.span.start ∧ ¬ (left.isText = true ∧ right.isText = true)

/-- Two branches of a block that may stand side by side: the second begins where the first ends. -/
def Branch.Meets (left right : Branch) : Prop := left.span.stop = right.span.start

mutual

/-- A node inside which, at every level, neighbours may stand side by side. -/
def Node.Seamless : Node → Prop
  | .tag _ _ _ _ children _ => children.IsChain Node.Meets ∧ Node.AllSeamless children
  | .block _ branches _ => branches.IsChain Branch.Meets ∧ Branch.AllSeamless branches
  | .single .. | .expression _ | .text _ | .comment _ => True

def Branch.Seamless : Branch → Prop
  | ⟨_, _, children, _⟩ => children.IsChain Node.Meets ∧ Node.AllSeamless children

def Node.AllSeamless : List Node → Prop
  | [] => True
  | node :: rest => node.Seamless ∧ Node.AllSeamless rest

def Branch.AllSeamless : List Branch → Prop
  | [] => True
  | branch :: rest => branch.Seamless ∧ Branch.AllSeamless rest

end

namespace Node

theorem eq_text_of_isText {child : Child Token} (text : (ofChild child).isText = true) :
    ∃ token, child = .text token := by
  cases child with
  | text token => exact ⟨token, rfl⟩
  | block first others finish => cases finish <;> cases text
  | element head angle content close => cases close <;> cases text
  | _ => cases text

variable {extent : Concrete.Extent Token}

/-- Neighbours among the children of an element, of a branch or of a template. -/
theorem ofChildren_meets {start stop : Point} {depth : Nat} {children : List (Child Token)}
    {after : List Token} (row : Token.Row start stop (Child.yields children))
    (formed : Child.AllFormed extent depth children after) :
    (ofChildren children).IsChain Meets := by
  induction children generalizing start with
  | nil => exact .nil
  | cons first rest ih =>
    obtain ⟨middle, opened, tail⟩ := row.split
    have others := ih tail formed.2
    cases rest with
    | nil => exact .singleton _
    | cons second rest =>
      obtain ⟨_, next, -⟩ := tail.split
      refine .cons_cons ⟨?_, ?_⟩ others
      · rw [ofChild_span opened.tile, ofChild_span next.tile]
      · rintro ⟨left, right⟩
        obtain ⟨token, rfl⟩ := eq_text_of_isText left
        obtain ⟨other, rfl⟩ := eq_text_of_isText right
        exact row.apart.rel ⟨formed.1, formed.2.1⟩

theorem ofBranches_meets {start stop : Point} {branches : List (Concrete.Branch Token)}
    (tile : Token.Tile start stop (Concrete.Branch.yields branches)) :
    (ofBranches branches).IsChain Branch.Meets :=
  List.isChain_map Branch.span |>.mp (ofBranches_tile tile).meet

mutual

theorem ofChild_seamless {start stop : Point} {depth : Nat} : ∀ {child : Child Token}
    {after : List Token}, Token.Row start stop child.yield → child.Formed extent depth after →
      (ofChild child).Seamless
  | .text _, _, _, _ => trivial
  | .comment _, _, _, _ => trivial
  | .braced _, _, _, _ => trivial
  | .single _, _, _, _ => trivial
  | .block first others finish, _, row, formed => by
    obtain ⟨_, clauses, _⟩ := row.split
    obtain ⟨_, opened, tail⟩ := clauses.split
    have meets : (ofBranches (first :: others)).IsChain Branch.Meets :=
      ofBranches_meets clauses.tile
    have seamless := ofBranches_seamless tail formed.2.1
    cases finish <;> exact ⟨meets, ofBranch_seamless opened formed.1, seamless⟩
  | .raw _ _ (.selfClosed _), _, _, _ => ⟨.nil, trivial⟩
  | .raw _ _ (.content ..), _, _, _ => ⟨.singleton _, trivial, trivial⟩
  | .selfClosed .., _, _, _ => ⟨.nil, trivial⟩
  | .void .., _, _, _ => ⟨.nil, trivial⟩
  | .element head angle content close, _, row, formed => by
    obtain ⟨_, body, _⟩ := row.split
    obtain ⟨_, _, rest⟩ := body.split
    have tail := rest.tail
    obtain ⟨-, -, -, -, -, inside, -⟩ := formed
    have meets := ofChildren_meets tail inside
    have seamless := ofChildren_seamless tail inside
    cases close <;> exact ⟨meets, seamless⟩

theorem ofBranch_seamless {start stop : Point} {depth : Nat} {sigil : Sigil} :
    ∀ {branch : Concrete.Branch Token} {after : List Token}, Token.Row start stop branch.yield →
      branch.Formed extent depth sigil after → (ofBranch branch).Seamless
  | ⟨marker, content⟩, _, row, formed => by
    obtain ⟨_, _, tail⟩ := row.split
    exact ⟨ofChildren_meets tail formed.2.2, ofChildren_seamless tail formed.2.2⟩

theorem ofChildren_seamless {start stop : Point} {depth : Nat} : ∀ {children : List (Child Token)}
    {after : List Token}, Token.Row start stop (Child.yields children) →
      Child.AllFormed extent depth children after → AllSeamless (ofChildren children)
  | [], _, _, _ => trivial
  | child :: rest, _, row, formed => by
    obtain ⟨_, first, tail⟩ := row.split
    exact ⟨ofChild_seamless first formed.1, ofChildren_seamless tail formed.2⟩

theorem ofBranches_seamless {start stop : Point} {depth : Nat} :
    ∀ {branches : List (Concrete.Branch Token)} {after : List Token},
      Token.Row start stop (Concrete.Branch.yields branches) →
        Concrete.Branch.AllFormed extent depth branches after →
          Branch.AllSeamless (ofBranches branches)
  | [], _, _, _ => trivial
  | branch :: rest, _, row, formed => by
    obtain ⟨_, first, tail⟩ := row.split
    exact ⟨ofBranch_seamless first formed.1, ofBranches_seamless tail formed.2⟩

end

end Node

namespace Token

/-- Tokens side by side reach as far as their texts do. -/
theorem Tile.walk_eq {start stop : Point} {tokens : List Token} (tile : Tile start stop tokens)
    (placed : ∀ token ∈ tokens, token.after = token.start.walk token.image) :
    stop = start.walk (images tokens) := by
  induction tokens generalizing start with
  | nil => exact tile.symm
  | cons token rest ih =>
    obtain ⟨begins, tile⟩ := tile
    obtain ⟨here, later⟩ := List.forall_mem_cons.mp placed
    have further := ih tile later
    change stop = (token.after).walk (images rest) at further
    rw [further, here, ← Point.walk_append, ← begins]
    rfl

end Token

/-- The slices of nodes made from tokens side by side are the texts of these tokens. -/
theorem Node.slices_eq {source : Text} (front back : Text) {stop : Point}
    {children : List (Child Token)}
    (tile : Token.Tile (Point.origin.walk front) stop (Child.yields children))
    (placed : ∀ token ∈ Child.yields children, token.after = token.start.walk token.image)
    (source_eq : source = front ++ Token.images (Child.yields children) ++ back) :
    (ofChildren children).map (fun node => node.span.slice? source) =
      children.map fun child => some (Token.images child.yield) := by
  induction children generalizing front with
  | nil => rfl
  | cons child rest ih =>
    obtain ⟨middle, first, tail⟩ := Token.tile_append.mp tile
    obtain ⟨here, later⟩ := List.forall_mem_append.mp placed
    have reaches := first.walk_eq here
    rw [← Point.walk_append] at reaches
    subst reaches
    rw [Child.yields, Token.images_append, ← List.append_assoc] at source_eq
    have slice : (ofChild child).span.slice? source = some (Token.images child.yield) := by
      rw [ofChild_span first, source_eq, List.append_assoc]
      exact Span.slice?_walk _ _ _
    rw [ofChildren, List.map_cons, List.map_cons, slice, ih _ tail later source_eq]

/-- Without gaps between them, the tokens of some stretches lie side by side. -/
theorem Stretch.row_of_runs {start : Point} {stretches : List Stretch}
    (runs : (placed start stretches).filterMap run? = []) (apart : stretches.IsChain Apart) :
    Token.Row start (start.walk (texts stretches)) ((placed start stretches).filterMap token?) ∧
      Token.images ((placed start stretches).filterMap token?) = texts stretches := by
  induction stretches generalizing start with
  | nil => exact ⟨⟨rfl, .nil⟩, rfl⟩
  | cons stretch rest ih =>
    cases stretch with
    | gap char more => cases runs
    | token kind image =>
      obtain ⟨row, images⟩ := ih runs apart.tail
      have ends := Token.after_place kind image start
      refine ⟨⟨⟨rfl, ?_⟩, List.isChain_cons.mpr ⟨?_, row.apart⟩⟩, congrArg (image ++ ·) images⟩
      · change Span.Tile (Token.after _) _ _
        rw [ends, texts_cons, Point.walk_append]
        exact row.tile
      · intro next member
        cases rest with
        | nil => cases member
        | cons second rest =>
          cases second with
          | gap char more => cases runs
          | token other text =>
            cases member
            exact apart.rel

/-- Where a scan finds nothing wrong, its tokens lie side by side and their texts are the source. -/
theorem Scanned.Tiles.row {source : Text} {scanned : Scanned} {stretches : List Stretch}
    (tiles : scanned.Tiles source stretches) (clean : scanned.faults = []) :
    Token.Row .origin (Point.origin.walk source) scanned.tokens ∧
      Token.images scanned.tokens = source := by
  have gaps := tiles.faults_eq
  rw [clean, eq_comm, List.append_eq_nil_iff, List.map_eq_nil_iff] at gaps
  have row := Stretch.row_of_runs gaps.1 tiles.apart
  rw [tiles.source_eq, ← tiles.tokens_eq] at row
  exact row

/-- A token of a scan ends where walking over its text leads. -/
theorem Scanned.Tiles.after_eq {source : Text} {scanned : Scanned} {stretches : List Stretch}
    (tiles : scanned.Tiles source stretches) :
    ∀ token ∈ scanned.tokens, token.after = token.start.walk token.image := by
  intro token member
  obtain ⟨front, back, stands⟩ := tiles.standsIn member
  rw [stands.after_eq, stands.start_eq, Point.walk_append]

/-- Trimming leaves the beginning of a text and takes blanks. -/
theorem Text.trimEnd_append (text : Text) :
    ∃ blanks, text.trimEnd ++ blanks = text ∧ ∀ char ∈ blanks, isBlank char = true := by
  refine ⟨(text.reverse.takeWhile isBlank).reverse, ?_, ?_⟩
  · rw [trimEnd, ← List.reverse_append, List.takeWhile_append_dropWhile, List.reverse_reverse]
  · intro char member
    exact List.all_eq_true.mp List.all_takeWhile char (List.mem_reverse.mp member)

/-- What is read of a source is its beginning, up to blanks. -/
theorem Options.read_append (options : Options) (source : Text) :
    ∃ blanks, options.read source ++ blanks = source ∧
      ∀ char ∈ blanks, Text.isBlank char = true := by
  unfold read
  split
  · exact source.trimEnd_append
  · exact ⟨[], List.append_nil source, List.forall_mem_nil _⟩

/-- The document of nodes side by side spans all of them. -/
theorem Document.ofNodes_eq {stop : Point} {nodes : List Node}
    (tile : Span.Tile .origin stop (nodes.map Node.span)) :
    ofNodes nodes = ⟨nodes, .origin, stop⟩ := by
  cases nodes with
  | nil =>
    obtain rfl : Point.origin = stop := tile
    rfl
  | cons first rest =>
    rw [ofNodes, Node.lastOr_eq tile.2, tile.1]

/-- A document that covers a text, the beginning of a source, and holds together at every level. -/
structure Document.Covers (source text : Text) (document : Document) : Prop where
  /-- The children lie side by side from the beginning of the text to its end. -/
  tile : Span.Tile .origin (Point.origin.walk text) (document.children.map Node.span)
  /-- Their slices of the source, one after another, are the text. -/
  slices : ∃ parts : List Text, parts.flatten = text ∧
    document.children.map (fun node => node.span.slice? source) = parts.map some
  span_eq : document.span = ⟨.origin, Point.origin.walk text⟩
  meets : document.children.IsChain Node.Meets
  seamless : Node.AllSeamless document.children

/-- The document of a source in which nothing is wrong covers the text that was read. At every level
each node begins where the one before it ends, no text stands beside a text, and each branch begins
where the one before it ends. -/
theorem parse_covers {options : Options} {source : Text}
    (sound : (parse options source).problems = []) :
    (parse options source).document.Covers source (options.read source) := by
  set text := options.read source
  obtain ⟨scanned, parsed⟩ := List.append_eq_nil_iff.mp sound
  have clean := List.map_eq_nil_iff.mp scanned
  have built := List.map_eq_nil_iff.mp parsed
  obtain ⟨stretches, tiles⟩ := exists_tiles text
  obtain ⟨row, images⟩ := tiles.row clean
  set children := (Concrete.build (scan text).tokens).children
  have yields : Child.yields children = (scan text).tokens := Concrete.yields_of_clean built
  have formed : Concrete.WellFormed .whole children := Concrete.wellFormed_of_clean built
  have placed := tiles.after_eq
  rw [← yields] at row images placed
  have tile := Node.ofChildren_tile row.tile
  have whole : (parse options source).document =
      ⟨Node.ofChildren children, .origin, Point.origin.walk text⟩ := Document.ofNodes_eq tile
  obtain ⟨blanks, source_eq, -⟩ := options.read_append source
  have slices : (Node.ofChildren children).map (fun node => node.span.slice? source) =
      children.map fun child => some (Token.images child.yield) := by
    refine Node.slices_eq [] blanks row.tile placed ?_
    rw [images]
    exact source_eq.symm
  rw [whole]
  refine ⟨tile, ⟨children.map fun child => Token.images child.yield, ?_, ?_⟩, rfl,
    Node.ofChildren_meets row formed, Node.ofChildren_seamless row formed⟩
  · rw [← images, Child.yields_eq, Token.images, List.flatMap_assoc]
    rfl
  · rw [slices, List.map_map]
    rfl

/-- A list whose items end without closing tags, around a block with two branches. -/
def looseList : Text :=
  "<ul><li>a<li>b\x7b#if c\x7d,\x7b:else\x7d<br>\x7b/if\x7d</ul>\n".toList

theorem looseList_covers :
    (parse {} looseList).problems = [] ∧
      (parse {} looseList).document.Covers looseList (Options.read {} looseList) :=
  have sound : (parse {} looseList).problems = [] := by decide +kernel
  ⟨sound, parse_covers sound⟩

end Template
