import Template.Proofs.Concrete.Joins
import Template.Proofs.Document.Writing

set_option autoImplicit false

namespace Template

open Concrete (Child Braced Marker BlockEnd CloseTag Item Head RawBody)

def Text.AllBlank (text : Text) : Prop := ∀ char ∈ text, isBlank char = true

/-- The source of a fragment is what it says. -/
def Fragment.Verbatim (source : Text) (fragment : Fragment) : Prop :=
  fragment.span.slice? source = some fragment.value

/-- The source of a fragment is what it says in braces, after blanks or right away. -/
def Fragment.InBraces (source : Text) (fragment : Fragment) : Prop :=
  ∃ blanks : Text, blanks.AllBlank ∧
    fragment.span.slice? source = some ('\x7b' :: blanks ++ fragment.value ++ ['\x7d'])

/-- The source of a marker: its braces, sigil and name, and its script, after blanks or right
away. -/
def Sigil.Spells (sigil : Sigil) (name : Text) (script : Option Fragment) (text : Text) : Prop :=
  ∃ blanks : Text, blanks.AllBlank ∧
    text = '\x7b' :: sigil.char :: name ++ blanks ++ (script.map Fragment.value).getD [] ++ ['\x7d']

/-- A text is its source, and a script is its source in braces. -/
def ValuePart.Spelled (source : Text) : ValuePart → Prop
  | text fragment => fragment.Verbatim source
  | expression fragment => fragment.InBraces source

namespace Attribute

def label (entry : Attribute) : Text :=
  match entry.specifier with
  | none => entry.name
  | some specifier => entry.name ++ ':' :: specifier

/-- The source of the value of an attribute: nothing, or an equals sign and then the sources of the
pieces one after another, bare or between two equal quotes. -/
inductive Assigns (source : Text) (entry : Attribute) : Text → Prop where
  | nothing (empty : entry.value = []) : Assigns source entry []
  | bare {pieces : List Text}
      (slices : entry.value.map (fun piece => piece.span.slice? source) = pieces.map some) :
      Assigns source entry ('=' :: pieces.flatten)
  | quoted (quote : Quote) {pieces : List Text}
      (slices : entry.value.map (fun piece => piece.span.slice? source) = pieces.map some) :
      Assigns source entry ('=' :: quote.char :: pieces.flatten ++ [quote.char])

/-- The source of an attribute with a name: the name with its specifier, the modifiers, each after a
bar, and the value. Without a specifier, the attribute is a shorthand if it has no equals sign. -/
structure Labelled (source : Text) (entry : Attribute) : Prop where
  colon : ':' ∉ entry.name
  written : ∃ assigned, entry.Assigns source assigned ∧
    entry.span.slice? source = some (entry.label ++
      entry.modifiers.flatMap (fun modifier => '|' :: modifier.value) ++ assigned) ∧
    (entry.specifier = none → (entry.shorthand = .boolean ↔ assigned = []))

/-- An attribute that is a braced script. It goes by the script without the blanks around it. -/
def IsScript (entry : Attribute) : Prop :=
  ∃ script, entry.value = [.expression script] ∧ entry.span = script.span ∧
    entry.name = Text.trim script.value ∧ entry.specifier = none ∧ entry.modifiers = []

structure Spelled (source : Text) (entry : Attribute) : Prop where
  value : ∀ piece ∈ entry.value, piece.Spelled source
  modifiers : ∀ modifier ∈ entry.modifiers, modifier.Verbatim source
  script : entry.shorthand = .expression → entry.IsScript
  named : entry.shorthand ≠ .expression → entry.Labelled source

end Attribute

/-- How the name of a tag is written. That of a namespaced one has a prefix and a colon before it. -/
def TagType.Writes (name written : Text) : TagType → Prop
  | namespaced => ∃ front, written = front ++ ':' :: name
  | _ => written = name

/-- The source of a tag begins with an angle bracket and with its name as it is written, which goes
as far as there are characters of names. -/
def TagType.Spelled (source : Text) (type : TagType) (name : Text) (span : Span) : Prop :=
  ∃ written rest, type.Writes name written ∧ span.slice? source = some ('<' :: written ++ rest) ∧
    (∀ char ∈ written, Munch.TagNameChar char) ∧ ∀ char ∈ rest.head?, ¬Munch.TagNameChar char

mutual

/-- The source of a node and of all its parts. -/
def Node.Spelled (source : Text) : Node → Prop
  | .tag type name _ attributes children span =>
    type.Spelled source name span ∧ (∀ entry ∈ attributes, entry.Spelled source) ∧
      Node.AllSpelled source children
  | .single name script span =>
    (∃ text, span.slice? source = some text ∧ Sigil.single.Spells name script text) ∧
      ∀ fragment ∈ script, fragment.Verbatim source
  | .block name branches _ =>
    branches.head?.map Branch.name = some name ∧ Branch.AllSpelled source .opening branches
  | .expression fragment => fragment.InBraces source
  | .text fragment => fragment.Verbatim source
  | .comment fragment =>
    fragment.span.slice? source =
      some (['<', '!', '-', '-'] ++ fragment.value ++ ['-', '-', '>'])

/-- The source of a branch, which begins with a marker, and of all its parts. -/
def Branch.Spelled (source : Text) (sigil : Sigil) : Branch → Prop
  | ⟨name, script, children, span⟩ =>
    (∃ text rest, span.slice? source = some (text ++ rest) ∧ sigil.Spells name script text) ∧
      (∀ fragment ∈ script, fragment.Verbatim source) ∧ Node.AllSpelled source children

def Node.AllSpelled (source : Text) : List Node → Prop
  | [] => True
  | node :: rest => node.Spelled source ∧ Node.AllSpelled source rest

/-- The sources of some branches, of which all but the first go on with a block. -/
def Branch.AllSpelled (source : Text) (sigil : Sigil) : List Branch → Prop
  | [] => True
  | branch :: rest => branch.Spelled source sigil ∧ Branch.AllSpelled source .continuing rest

end

variable {source : Text} {tokens : List Token}

/-- The text of one of some tokens belongs to its kind. -/
theorem Token.Written.language (written : Token.Written source tokens) {token : Token}
    (member : token ∈ tokens) {kind : Kind} (same : Terminal.kind token = kind) :
    Munch.Language kind token.image := by
  subst same
  exact written.belongs token member

theorem Token.Written.verbatim (written : Token.Written source tokens) {token : Token}
    (member : token ∈ tokens) : (Fragment.ofToken token).Verbatim source := by
  have slice := (written.alone member).slice (Fragment.ofToken_covers token)
  rw [Token.images, List.flatMap_singleton] at slice
  exact slice

theorem Token.Written.allBlank (written : Token.Written source tokens) {blank : Option Token}
    (inside : blank.toList ⊆ tokens) (formed : Concrete.IfAny .blank blank) :
    Text.AllBlank (Token.images blank.toList) := by
  cases blank with
  | none => exact List.forall_mem_nil _
  | some token =>
    have belongs := written.language (inside List.mem_cons_self)
      ((Concrete.ifAny_some _ _).mp formed)
    rw [Option.toList_some, Token.images, List.flatMap_singleton]
    exact belongs.2

theorem Fragment.ofBraced_inBraces {script : Braced Token} (formed : script.Formed)
    (written : Token.Written source script.yield) : (ofBraced script).InBraces source := by
  have opening : script.opening.image = ['\x7b'] :=
    written.language (by simp [Braced.yield]) formed.opening
  have closing : script.closing.image = ['\x7d'] :=
    written.language (by simp [Braced.yield]) formed.closing
  refine ⟨Token.images script.blank.toList, ?_, ?_⟩
  · apply written.allBlank _ formed.blank
    intro token member
    simp [Braced.yield, member]
  · rw [written.slice (ofBraced_covers script)]
    simp only [Braced.yield, Token.images, List.flatMap_append, List.flatMap_cons, opening,
      closing, List.flatMap_nil, List.append_nil, List.append_assoc, List.cons_append,
      List.nil_append, ofBraced]

/-- The tokens of a marker spell its name and its script. -/
theorem Concrete.Marker.spells {marker : Marker Token} {sigil : Sigil}
    (formed : marker.Formed sigil) (written : Token.Written source marker.yield) :
    sigil.Spells marker.name.blockName (marker.script.map Fragment.ofToken)
      (Token.images marker.yield) := by
  have opening : marker.opening.image = ['\x7b'] :=
    written.language (by simp [Marker.yield]) formed.opening
  have closing : marker.closing.image = ['\x7d'] :=
    written.language (by simp [Marker.yield]) formed.closing
  obtain ⟨name, name_eq, -⟩ := written.language (by simp [Marker.yield]) formed.name
  refine ⟨Token.images marker.blank.toList, ?_, ?_⟩
  · apply written.allBlank _ formed.blank
    intro token member
    simp [Marker.yield, member]
  · cases script : marker.script <;>
      simp [Marker.yield, Token.images, opening, closing, name_eq, Token.blockName, script,
        Fragment.ofToken]

theorem Concrete.Marker.script_verbatim {marker : Marker Token}
    (written : Token.Written source marker.yield) :
    ∀ fragment ∈ marker.script.map Fragment.ofToken, fragment.Verbatim source := by
  cases script : marker.script with
  | none =>
    intro fragment none
    cases none
  | some token =>
    intro fragment same
    cases same
    exact written.verbatim (by simp [Marker.yield, script])

theorem Text.dropStart_append (start rest : Text) : dropStart start (start ++ rest) = rest := by
  have starts : start.isPrefixOf (start ++ rest) = true :=
    List.isPrefixOf_iff_prefix.mpr (List.prefix_append start rest)
  rw [dropStart, if_pos starts, List.drop_left]

theorem Text.dropFinish_append (front finish : Text) :
    dropFinish finish (front ++ finish) = front := by
  have ends : finish.isSuffixOf (front ++ finish) = true :=
    List.isSuffixOf_iff_suffix.mpr (List.suffix_append front finish)
  rw [dropFinish, if_pos ends, List.length_append, Nat.add_sub_cancel, List.take_left]

/-- A comment is its text between its delimiters. -/
theorem Fragment.ofComment_image {token : Token} (belongs : Munch.Language .comment token.image) :
    token.image = ['<', '!', '-', '-'] ++ (ofComment token).value ++ ['-', '-', '>'] := by
  obtain ⟨body, image_eq, ⟨front, ending, rfl, rfl⟩, -⟩ := belongs
  have value : (ofComment token).value = front := by
    rw [ofComment, image_eq, Text.dropStart_append, Text.dropFinish_append]
  rw [value, image_eq, List.append_assoc]

/-- The content of a raw element is what stands before its end tag. -/
theorem Fragment.ofRaw_eq {known : RawElement} {rest : Token} {front body tag : Text}
    (image_eq : rest.image = body ++ tag) (like : Text.lower tag = known.endTag.toList)
    (start_eq : rest.start = Point.origin.walk front)
    (after_eq : rest.after = Point.origin.walk (front ++ body ++ tag)) :
    ofRaw known rest = ⟨body, Point.origin.walk front, Point.origin.walk (front ++ body)⟩ := by
  have bytes : rest.image.size - Text.size known.endTag.toList = body.size := by
    rw [image_eq, Text.size_append, size_of_lower like (ascii_endTag known), Nat.add_sub_cancel]
  have value : (ofRaw known rest).value = body := by
    rw [ofRaw, bytes, image_eq, Text.cut?_append]
    rfl
  rw [Point.walk_append] at after_eq
  calc
    ofRaw known rest = ⟨(ofRaw known rest).value, rest.start, (ofRaw known rest).span.stop⟩ := rfl
    _ = _ := by rw [value, start_eq, ofRaw_stop like after_eq]

/-- The content of a raw element is its source. -/
theorem Fragment.ofRaw_verbatim {known : RawElement} {rest : Token}
    (written : Token.Written source [rest]) (belongs : Munch.Language (.rawRest known) rest.image) :
    (ofRaw known rest).Verbatim source := by
  obtain ⟨⟨body, tag, image_eq, like⟩, -⟩ := belongs
  obtain ⟨front, back, source_eq, span_eq⟩ := written.exists_part (ofToken_covers rest)
  obtain ⟨start_eq, after_eq⟩ := Span.mk.inj span_eq
  rw [Token.images, List.flatMap_singleton, image_eq] at source_eq after_eq
  rw [← List.append_assoc] at after_eq
  rw [Verbatim, ofRaw_eq image_eq like start_eq after_eq, source_eq, ← List.append_assoc front,
    List.append_assoc _ tag]
  exact Span.slice?_walk front body (tag ++ back)

theorem Text.splitColon?_eq (text : Text) :
    match splitColon? text with
    | some (front, back) => text = front ++ ':' :: back ∧ ':' ∉ front
    | none => ':' ∉ text := by
  induction text with
  | nil => exact List.not_mem_nil
  | cons char rest ih =>
    rw [splitColon?]
    by_cases colon : char = ':'
    · rw [if_pos colon]
      exact ⟨congrArg (· :: rest) colon, List.not_mem_nil⟩
    · rw [if_neg colon]
      have other : ':' ≠ char := Ne.symm colon
      cases split : splitColon? rest with
      | none =>
        rw [split] at ih
        exact List.not_mem_cons_of_ne_of_not_mem other ih
      | some found =>
        rw [split] at ih
        exact ⟨congrArg (char :: ·) ih.1, List.not_mem_cons_of_ne_of_not_mem other ih.2⟩

/-- A piece of a value is spelled by its tokens. -/
theorem ValuePart.Of.spelled {piece : ValuePart} (of : piece.Of tokens)
    (written : Token.Written source tokens) : piece.Spelled source := by
  cases of with
  | text covers same =>
    rw [Spelled, Fragment.Verbatim, same]
    exact written.slice covers
  | expression formed => exact Fragment.ofBraced_inBraces formed written

namespace Attribute

/-- The pieces of a value are spelled by its tokens, and their sources make up its source. -/
theorem ofParts_spelled {parts : List (Concrete.Part Token)}
    (formed : ∀ script, .braced script ∈ parts → script.Formed)
    (written : Token.Written source (parts.flatMap Concrete.Part.yield)) :
    (∀ piece ∈ ValuePart.ofParts parts, piece.Spelled source) ∧
      ∃ pieces : List Text, pieces.flatten = Token.images (parts.flatMap Concrete.Part.yield) ∧
        (ValuePart.ofParts parts).map (fun piece => piece.span.slice? source) =
          pieces.map some := by
  obtain ⟨groups, tokens_eq, each⟩ := ofParts_of formed
  rw [← tokens_eq] at written ⊢
  clear tokens_eq
  generalize ValuePart.ofParts parts = pieces at each ⊢
  induction each with
  | nil => exact ⟨List.forall_mem_nil _, [], rfl, rfl⟩
  | @cons piece group pieces groups of _ ih =>
    obtain ⟨here, further⟩ := written.append
    obtain ⟨spelled, texts, texts_eq, slices⟩ := ih further
    refine ⟨List.forall_mem_cons.mpr ⟨of.spelled here, spelled⟩, Token.images group :: texts, ?_, ?_⟩
    · rw [List.flatten_cons, List.flatten_cons, Token.images_append, texts_eq]
    · rw [List.map_cons, List.map_cons, here.slice of.covers, slices]

/-- The value of an attribute is spelled by its tokens. -/
theorem valueOf_assigns {assigned : Concrete.Assigned Token} {after : List Token}
    (formed : assigned.Formed .whole after) (written : Token.Written source assigned.yield) :
    (∀ piece ∈ (valueOf assigned.equal assigned.value).1, piece.Spelled source) ∧
      ∀ entry : Attribute, entry.value = (valueOf assigned.equal assigned.value).1 →
        entry.Assigns source (Token.images assigned.yield) := by
  obtain ⟨sign, value⟩ := assigned
  obtain ⟨equals, kinds⟩ := formed
  have equal : sign.image = ['='] := written.language List.mem_cons_self equals
  cases value with
  | quoted quote opening parts closing =>
    obtain ⟨opens, quoted, closes⟩ := kinds
    have first : opening.image = [quote.char] :=
      written.language (by simp [Concrete.Assigned.yield, Concrete.Value.yield]) opens
    have last : closing.image = [quote.char] :=
      written.language (by simp [Concrete.Assigned.yield, Concrete.Value.yield]) closes
    have inside : Token.Written source (parts.flatMap Concrete.Part.yield) :=
      written.within ⟨[sign, opening], [closing], rfl⟩
    obtain ⟨spelled, pieces, pieces_eq, slices⟩ :=
      ofParts_spelled (fun script member => quoted _ member) inside
    refine ⟨spelled, ?_⟩
    intro entry same
    have same : entry.value = ValuePart.ofParts parts := same
    rw [← same] at slices
    have assigns := Assigns.quoted quote slices
    rw [pieces_eq] at assigns
    simpa [Concrete.Assigned.yield, Concrete.Value.yield, Token.images, equal, first, last]
      using assigns
  | bare parts =>
    have inside : Token.Written source (parts.flatMap Concrete.Part.yield) :=
      written.within ⟨[sign], [], List.append_nil _⟩
    obtain ⟨spelled, pieces, pieces_eq, slices⟩ :=
      ofParts_spelled (fun script member => kinds.1 _ member) inside
    refine ⟨spelled, ?_⟩
    intro entry same
    have same : entry.value = ValuePart.ofParts parts := same
    rw [← same] at slices
    have assigns := Assigns.bare slices
    rw [pieces_eq] at assigns
    simpa [Concrete.Assigned.yield, Concrete.Value.yield, Token.images, equal] using assigns

/-- The value of a named attribute, if it has one, is spelled by its tokens. -/
theorem ending_assigns (name : Token) (modifiers : List (Concrete.Modifier Token))
    {assigned : Option (Concrete.Assigned Token)} {after : List Token}
    (formed : ∀ found ∈ assigned, found.Formed .whole after)
    (written : Token.Written source (assigned.toList.flatMap Concrete.Assigned.yield)) :
    (∀ piece ∈ (ending name modifiers assigned).1, piece.Spelled source) ∧
      (∀ entry : Attribute, entry.value = (ending name modifiers assigned).1 →
        entry.Assigns source (Token.images (assigned.toList.flatMap Concrete.Assigned.yield))) ∧
      (assigned = none ↔ Token.images (assigned.toList.flatMap Concrete.Assigned.yield) = []) := by
  cases assigned with
  | none =>
    refine ⟨List.forall_mem_nil _, ?_, iff_of_true rfl rfl⟩
    intro entry same
    exact .nothing same
  | some assigned =>
    rw [Option.toList_some, List.flatMap_singleton] at written ⊢
    obtain ⟨spelled, assigns⟩ := valueOf_assigns (formed assigned rfl) written
    refine ⟨spelled, assigns, ?_⟩
    have equal : assigned.equal.image = ['='] :=
      written.language List.mem_cons_self (formed assigned rfl).equal
    have some : Token.images assigned.yield ≠ [] := by
      rw [Concrete.Assigned.yield, Token.images, List.flatMap_cons, equal]
      exact List.cons_ne_nil _ _
    exact iff_of_false (Option.some_ne_none _) some

theorem modifiers_images {modifiers : List (Concrete.Modifier Token)}
    (formed : ∀ modifier ∈ modifiers, modifier.Formed)
    (written : Token.Written source (modifiers.flatMap Concrete.Modifier.yield)) :
    Token.images (modifiers.flatMap Concrete.Modifier.yield) =
      (modifiers.map fun modifier => Fragment.ofToken modifier.name).flatMap
        fun fragment => '|' :: fragment.value := by
  induction modifiers with
  | nil => rfl
  | cons modifier rest ih =>
    obtain ⟨first, others⟩ := List.forall_mem_cons.mp formed
    obtain ⟨here, further⟩ := written.append
    have pipe : modifier.pipe.image = ['|'] := here.language List.mem_cons_self first.pipe
    rw [List.flatMap_cons, Token.images_append, ih others further]
    simp [Token.images, Concrete.Modifier.yield, pipe, Fragment.ofToken]

/-- A named attribute is spelled by its tokens. -/
theorem ofNamed_spelled {name : Token} {modifiers : List (Concrete.Modifier Token)}
    {assigned : Option (Concrete.Assigned Token)} {after : List Token}
    (formed : (Concrete.Attribute.named name modifiers assigned).Formed .whole after)
    (written : Token.Written source (Concrete.Attribute.named name modifiers assigned).yield) :
    (ofNamed name modifiers assigned).Spelled source := by
  obtain ⟨-, marks, assigns⟩ := formed
  have slice := written.slice (ofNamed_covers name modifiers assigned)
  rw [Concrete.Attribute.yield] at written
  obtain ⟨front, back⟩ := written.append
  have bars : Token.Written source (modifiers.flatMap Concrete.Modifier.yield) :=
    front.within (List.suffix_cons name _).isInfix
  obtain ⟨spelled, values, unassigned⟩ := ending_assigns name modifiers assigns back
  have images : Token.images (Concrete.Attribute.named name modifiers assigned).yield =
      name.image ++ Token.images (modifiers.flatMap Concrete.Modifier.yield) ++
        Token.images (assigned.toList.flatMap Concrete.Assigned.yield) := Token.images_append _ _
  rw [images, modifiers_images marks bars] at slice
  have colon := Text.splitColon?_eq name.image
  rw [ofNamed_eq] at slice ⊢
  refine ⟨spelled, ?_, ?_, ?_⟩
  · refine List.forall_mem_map.mpr fun modifier member => ?_
    exact bars.verbatim (name_mem_of_mem member)
  · intro script
    split at script <;> cases script
  · intro _
    cases split : Text.splitColon? name.image with
    | none =>
      rw [split] at colon slice
      refine ⟨colon, _, values _ rfl, slice, ?_⟩
      intro _
      cases assigned with
      | none => exact iff_of_true rfl rfl
      | some found =>
        apply iff_of_false
        · intro same
          cases same
        · exact unassigned.not.mp (Option.some_ne_none found)
    | some found =>
      rw [split] at colon slice
      obtain ⟨name_eq, alone⟩ := colon
      refine ⟨alone, _, values _ rfl, ?_, ?_⟩
      · rw [name_eq] at slice
        exact slice
      · intro none
        cases none

theorem ofItem_spelled {item : Item Token} {after : List Token}
    (formed : item.Formed .whole after) (written : Token.Written source item.yield) :
    (ofItem item).Spelled source := by
  have entry := written.append.2
  obtain ⟨-, kinds⟩ := formed
  unfold ofItem
  cases same : item.entry with
  | named name modifiers assigned =>
    rw [same] at entry kinds
    exact ofNamed_spelled kinds entry
  | braced script =>
    rw [same] at entry kinds
    have inBraces := Fragment.ofBraced_inBraces kinds entry
    refine ⟨List.forall_mem_singleton.mpr inBraces, List.forall_mem_nil _, ?_, ?_⟩
    · intro _
      exact ⟨Fragment.ofBraced script, rfl, rfl, rfl, rfl, rfl⟩
    · intro other
      exact absurd rfl other

theorem ofItems_spelled {items : List (Item Token)} {after : List Token}
    (formed : Item.AllFormed .whole items after)
    (written : Token.Written source (items.flatMap Item.yield)) :
    ∀ entry ∈ items.map ofItem, entry.Spelled source := by
  induction items with
  | nil => exact List.forall_mem_nil _
  | cons item rest ih =>
    obtain ⟨here, further⟩ := written.append
    exact List.forall_mem_cons.mpr ⟨ofItem_spelled formed.1 here, ih formed.2 further⟩

/-- The attributes of a head are spelled by its tokens. -/
theorem ofHead_spelled {head : Head Token} {opener : Kind} {after : List Token}
    (formed : head.Formed .whole opener after) (written : Token.Written source head.yield) :
    ∀ entry ∈ head.items.map ofItem, entry.Spelled source := by
  apply ofItems_spelled formed.items
  exact written.within ⟨[head.opening], head.blank.toList, rfl⟩

end Attribute

theorem Token.tagName_eq {token : Token} {run : Text} (image_eq : token.image = '<' :: run)
    (filled : run ≠ []) (named : ∀ char ∈ run, Munch.TagNameChar char) : token.tagName = run := by
  cases run with
  | nil => exact absurd rfl filled
  | cons char rest =>
    have first := named char List.mem_cons_self
    have angle : char ≠ '<' := by
      rintro rfl
      exact absurd ((Munch.isTagNameChar_iff _).mpr first) (by decide)
    have slash : char ≠ '/' := by
      rintro rfl
      exact absurd ((Munch.isTagNameChar_iff _).mpr first) (by decide)
    simp [tagName, image_eq, angle, slash]

/-- The name under which a tag goes is that with which it is opened. -/
theorem TagType.writes_ofName (written : Text) :
    (TagType.ofName written).1.Writes (TagType.ofName written).2 written := by
  have colon := Text.splitColon?_eq written
  unfold ofName
  split
  · next front rest same =>
    rw [same] at colon
    exact ⟨front, colon.1⟩
  · show TagType.Writes written written (if _ then _ else _)
    split <;> rfl

namespace Node

/-- A tag is spelled by its opening. -/
theorem tag_spelled (legible : Token.Legible source tokens) {opening : Token} {more : List Token}
    {type : TagType} {name : Text} {selfClosing : Bool} {attributes : List Attribute}
    {children : List Node} {span : Span} (opens : opening.OpensTag)
    (sub : (opening :: more).Sublist tokens) (covers : span.Covers (opening :: more))
    (writes : type.Writes name opening.tagName)
    (entries : ∀ entry ∈ attributes, entry.Spelled source) (inside : AllSpelled source children) :
    (tag type name selfClosing attributes children span).Spelled source := by
  have member : opening ∈ tokens := sub.subset List.mem_cons_self
  obtain ⟨front, back, source_eq, span_eq, ended⟩ := legible.names opening member opens
  obtain ⟨start_eq, after_eq⟩ := Span.mk.inj span_eq
  obtain ⟨run, image_eq, filled, named⟩ := opens.language (legible.written.belongs opening member)
  rw [Token.tagName_eq image_eq filled named] at writes
  obtain ⟨walked, later⟩ :=
    legible.reaches (show ([] ++ opening :: more).Sublist tokens from sub) covers
  have start : span.start = Point.origin.walk front := by
    rw [← start_eq]
    exact (Option.some.inj covers.start).symm
  rw [after_eq] at later
  rw [source_eq] at walked
  obtain ⟨rest, starts, slice⟩ := Span.slice?_from start walked later
  rw [← source_eq, image_eq] at slice
  refine ⟨⟨run, rest, writes, slice, named, ?_⟩, entries, inside⟩
  intro char first
  apply ended char
  obtain ⟨further, rfl⟩ := starts
  rw [List.head?_append, first]
  rfl

theorem ofHead_spelled (legible : Token.Legible source tokens) {head : Head Token}
    {selfClosing : Bool} {children : List Node} {finish : Point} {after more : List Token}
    (formed : head.Formed .whole .openTag after) (beside : head.yield <:+: tokens)
    (sub : (head.opening :: more).Sublist tokens)
    (covers : Span.Covers (head.opening :: more) ⟨head.opening.start, finish⟩)
    (inside : AllSpelled source children) :
    (ofHead head selfClosing children finish).Spelled source :=
  tag_spelled legible (.inl formed.opening) sub covers (TagType.writes_ofName _)
    (Attribute.ofHead_spelled formed (legible.written.within beside)) inside

/-- A raw element is spelled by its tokens. -/
theorem ofRaw_spelled (legible : Token.Legible source tokens) {known : RawElement}
    {head : Head Token} {body : RawBody Token} {after : List Token}
    (beside : head.yield ++ body.yield <:+: tokens)
    (formed : (Child.raw known head body).Formed .whole 0 after) :
    (ofRaw known head body).Spelled source := by
  obtain ⟨opened, closed⟩ := formed
  have written := legible.written.within beside
  have opens : head.opening.OpensTag := .inr ⟨known, opened.opening⟩
  have covers := ofChild_covers (.raw known head body)
  have writes : (TagType.ofRaw known).Writes head.opening.tagName head.opening.tagName := by
    cases known <;> rfl
  have entries := Attribute.ofHead_spelled opened written.append.1
  cases body with
  | selfClosed closing =>
    exact tag_spelled legible opens beside.sublist covers writes entries trivial
  | content angle rest =>
    have last := written.append.2.alone (List.mem_cons_of_mem _ List.mem_cons_self)
    have belongs := last.language List.mem_cons_self closed.2
    refine tag_spelled legible opens beside.sublist covers writes entries ⟨?_, trivial⟩
    exact Fragment.ofRaw_verbatim last belongs

mutual

/-- A node is spelled by the tokens it was made from. -/
theorem ofChild_spelled (legible : Token.Legible source tokens) : ∀ {child : Child Token},
    (∀ inner ∈ child.family, inner.Joined tokens) → child.yield.Sublist tokens →
      (ofChild child).Spelled source
  | .text token, _, sub => legible.written.verbatim (sub.subset List.mem_cons_self)
  | .comment token, joined, sub => by
    obtain ⟨-, _, kind⟩ := joined _ List.mem_cons_self
    have alone := legible.written.alone (sub.subset List.mem_cons_self)
    have slice := alone.slice (Fragment.ofToken_covers token)
    rw [Token.images, List.flatMap_singleton,
      Fragment.ofComment_image (alone.language List.mem_cons_self kind)] at slice
    exact slice
  | .braced script, joined, _ => by
    obtain ⟨beside, _, formed⟩ := joined _ List.mem_cons_self
    exact Fragment.ofBraced_inBraces formed (legible.written.within beside)
  | .single marker, joined, _ => by
    obtain ⟨beside, _, formed⟩ := joined _ List.mem_cons_self
    have written := legible.written.within beside
    exact ⟨⟨_, written.slice marker.covers, marker.spells formed written⟩,
      marker.script_verbatim written⟩
  | .block first others finish, joined, sub => by
    obtain ⟨markers, joined⟩ := List.forall_mem_cons.mp joined
    obtain ⟨inner, rest⟩ := List.forall_mem_append.mp joined
    have clauses : (first.yield ++ Concrete.Branch.yields others).Sublist tokens :=
      (List.sublist_append_left _ _).trans sub
    have opened := ofBranch_spelled legible markers.1 inner
      ((List.sublist_append_left _ _).trans clauses)
    have further := ofBranches_spelled legible (List.forall_mem_map.mp markers.2) rest
      ((List.sublist_append_right _ _).trans clauses)
    exact ⟨rfl, opened, further⟩
  | .raw known head body, joined, _ => by
    obtain ⟨beside, _, formed⟩ := joined _ List.mem_cons_self
    exact ofRaw_spelled legible beside formed
  | .selfClosed head slash angle, joined, sub => by
    obtain ⟨beside, _, formed⟩ := joined _ List.mem_cons_self
    exact ofHead_spelled legible formed.1 ((List.prefix_append _ _).isInfix.trans beside) sub
      (ofChild_covers (.selfClosed head slash angle)) trivial
  | .void head angle, joined, sub => by
    obtain ⟨beside, _, formed⟩ := joined _ List.mem_cons_self
    exact ofHead_spelled legible formed ((List.prefix_append _ _).isInfix.trans beside) sub
      (ofChild_covers (.void head angle)) trivial
  | .element head angle content close, joined, sub => by
    obtain ⟨⟨beside, _, formed⟩, inner⟩ := List.forall_mem_cons.mp joined
    have body : (head.yield ++ angle :: Child.yields content).Sublist tokens :=
      (List.sublist_append_left _ _).trans sub
    have inside : AllSpelled source (ofChildren content) := ofChildren_spelled legible inner
      ((List.sublist_cons_self angle _).trans ((List.sublist_append_right _ _).trans body))
    exact ofHead_spelled legible formed ((List.prefix_append _ _).isInfix.trans beside) sub
      (ofChild_covers (.element head angle content close)) inside

theorem ofBranch_spelled (legible : Token.Legible source tokens) {sigil : Sigil} :
    ∀ {branch : Concrete.Branch Token}, branch.marker.Joined tokens sigil →
      (∀ inner ∈ branch.family, inner.Joined tokens) → branch.yield.Sublist tokens →
        (ofBranch branch).Spelled source sigil
  | ⟨marker, content⟩, opened, joined, sub => by
    have written := legible.written.within opened.beside
    have inside : AllSpelled source (ofChildren content) :=
      ofChildren_spelled legible joined ((List.sublist_append_right _ _).trans sub)
    obtain ⟨front, back, source_eq, span_eq⟩ := written.exists_part marker.covers
    obtain ⟨start_eq, after_eq⟩ := Span.mk.inj span_eq
    have covers := ofBranch_covers ⟨marker, content⟩
    rw [Concrete.Branch.yield_eq] at covers sub
    obtain ⟨walked, later⟩ := legible.reaches sub covers
    rw [after_eq] at later
    rw [source_eq] at walked
    obtain ⟨rest, -, slice⟩ := Span.slice?_from start_eq walked later
    rw [← source_eq] at slice
    exact ⟨⟨_, rest, slice, marker.spells opened.formed written⟩,
      marker.script_verbatim written, inside⟩

theorem ofChildren_spelled (legible : Token.Legible source tokens) :
    ∀ {children : List (Child Token)},
      (∀ inner ∈ Child.families children, inner.Joined tokens) →
        (Child.yields children).Sublist tokens → AllSpelled source (ofChildren children)
  | [], _, _ => trivial
  | child :: rest, joined, sub => by
    obtain ⟨here, further⟩ := List.forall_mem_append.mp joined
    refine ⟨ofChild_spelled legible here ?_, ofChildren_spelled legible further ?_⟩
    · exact (List.sublist_append_left _ _).trans sub
    · exact (List.sublist_append_right _ _).trans sub

theorem ofBranches_spelled (legible : Token.Legible source tokens) :
    ∀ {branches : List (Concrete.Branch Token)},
      (∀ branch ∈ branches, branch.marker.Joined tokens .continuing) →
        (∀ inner ∈ Concrete.Branch.families branches, inner.Joined tokens) →
          (Concrete.Branch.yields branches).Sublist tokens →
            Branch.AllSpelled source .continuing (ofBranches branches)
  | [], _, _, _ => trivial
  | branch :: rest, opened, joined, sub => by
    obtain ⟨first, others⟩ := List.forall_mem_cons.mp opened
    obtain ⟨here, further⟩ := List.forall_mem_append.mp joined
    refine ⟨ofBranch_spelled legible first here ?_, ofBranches_spelled legible others further ?_⟩
    · exact (List.sublist_append_left _ _).trans sub
    · exact (List.sublist_append_right _ _).trans sub

end

end Node

/-- Where a source is scanned without passing anything over, what the parts of its document say can
be read off the source under their spans, also where the tree is broken. Texts, the scripts of
markers and modifiers say what stands there; comments and other scripts say what stands there
between their delimiters. Markers and the openings of tags stand where their blocks, branches and
tags begin, with the names under which these go. Attributes stand as a whole: their name with its
specifier, their modifiers and the pieces of their value; and one that is a script goes by it. -/
theorem parse_spells (options : Options) (source : Text)
    (clean : (scan (options.read source)).faults = []) :
    Node.AllSpelled source (parse options source).document.children := by
  set text := options.read source
  obtain ⟨blanks, source_eq, blank⟩ := options.read_append source
  have legible : Token.Legible source (scan text).tokens := by
    have legible := Token.legible_scan clean blank
    rwa [source_eq] at legible
  have spelled := Node.ofChildren_spelled legible (Concrete.joined_build (scan text).tokens)
    (Concrete.yields_sublist (scan text).tokens)
  have children : (parse options source).document.children =
      Node.ofChildren (Concrete.build (scan text).tokens).children := Document.ofNodes_children _
  rw [children]
  exact spelled

/-- A tag that is never closed, around attributes of all shapes, a block that ends under another name
and a closing tag that closes nothing. -/
def brokenTag : Text :=
  "<a:B c:d|e=\"f\x7b g\x7dh\" i=j/k l \x7bm\x7d><!--n-->\x7b@o p\x7d".toList ++
    "\x7b#q\x7dr\x7b:s t\x7d\x7b/u\x7d<style>v</style></w> ".toList

theorem brokenTag_spells :
    (scan (Options.read {} brokenTag)).faults = [] ∧ (parse {} brokenTag).problems ≠ [] ∧
      Node.AllSpelled brokenTag (parse {} brokenTag).document.children := by
  have clean : (scan (Options.read {} brokenTag)).faults = [] := by decide +kernel
  have broken : (parse {} brokenTag).problems ≠ [] := by
    intro none
    have some : (parse {} brokenTag).problems.isEmpty = false := by decide +kernel
    rw [none] at some
    cases some
  exact ⟨clean, broken, parse_spells {} brokenTag clean⟩

end Template
