import Template.Proofs.Document.Spelling
import Template.Proofs.Scan.Brackets

set_option autoImplicit false

namespace Template

open Concrete (Child Braced Item Head RawBody)

/-- The raw element that a tag of this type and name is, if it is one. -/
def TagType.rawElement? (type : TagType) (name : Text) : Option RawElement :=
  match type with
  | .script => some .script
  | .style => some .style
  | .element => if Text.lower name = RawElement.textArea.name.toList then some .textArea else none
  | .component | .namespaced => none

/-- Among some tokens stands the opening tag of a raw element, which begins at a place, and the angle
that ends it begins at another. -/
def RawElement.Opens (element : RawElement) (tokens : List Token) (start stop : Point) : Prop :=
  ∃ first more angle, first :: more ++ [angle] <:+: tokens ∧
    first.kind = .rawOpen element ∧ first.start = start ∧
    (∀ token ∈ more, ¬(Mode.rawTag element).EndedBy token.kind) ∧
    angle.kind = .rawAngle element ∧ angle.start = stop

/-- A raw element in a source, with what stands before its angle, its content, its end tag and what
comes after it. The content is its only child, and the end tag does not begin earlier. -/
structure RawElement.Encloses (element : RawElement) (source : Text) (tokens : List Token)
    (span : Span) (children : List Node) (front opening content closing back : Text) : Prop where
  source_eq : source = front ++ (opening ++ ['>'] ++ content ++ closing) ++ back
  span_eq : span = ⟨Point.origin.walk front,
    Point.origin.walk (front ++ (opening ++ ['>'] ++ content ++ closing))⟩
  slice : span.slice? source = some (opening ++ ['>'] ++ content ++ closing)
  opens : element.Opens tokens span.start (Point.origin.walk (front ++ opening))
  children_eq : children = [.text ⟨content, Point.origin.walk (front ++ opening ++ ['>']),
    Point.origin.walk (front ++ opening ++ ['>'] ++ content)⟩]
  closes : Text.lower closing = element.endTag.toList
  first : ∀ before word after, content ++ closing = before ++ word ++ after →
    Text.lower word = element.endTag.toList → before = content

/-- A comment in a source. Its text goes on to the first end of a comment. -/
structure Fragment.Commented (source : Text) (fragment : Fragment) : Prop where
  slice : fragment.span.slice? source =
    some (['<', '!', '-', '-'] ++ fragment.value ++ ['-', '-', '>'])
  first : ∀ before after, fragment.value ++ ['-', '-', '>'] = before ++ ['-', '-', '>'] ++ after →
    before = fragment.value

mutual

/-- The raw elements and the comments of a node, at any depth, end at their first terminators. -/
def Node.Terminated (source : Text) (tokens : List Token) : Node → Prop
  | .tag type name selfClosing _ children span =>
    (selfClosing = false → ∀ element ∈ type.rawElement? name,
      ∃ front opening content closing back,
        element.Encloses source tokens span children front opening content closing back) ∧
      Node.AllTerminated source tokens children
  | .block _ branches _ => Branch.AllTerminated source tokens branches
  | .comment fragment => fragment.Commented source
  | .single .. | .expression _ | .text _ => True

def Branch.Terminated (source : Text) (tokens : List Token) : Branch → Prop
  | ⟨_, _, children, _⟩ => Node.AllTerminated source tokens children

def Node.AllTerminated (source : Text) (tokens : List Token) : List Node → Prop
  | [] => True
  | node :: rest => node.Terminated source tokens ∧ Node.AllTerminated source tokens rest

def Branch.AllTerminated (source : Text) (tokens : List Token) : List Branch → Prop
  | [] => True
  | branch :: rest => branch.Terminated source tokens ∧ Branch.AllTerminated source tokens rest

end

/-- The kinds of the tokens between the opening of a tag and its end. -/
def Kind.inner : Kind → Bool
  | blank | attributeText | equal | pipe | slash | quoteOpen _ | quoted _ | quoteClose _
  | braceOpen | expression | braceClose => true
  | _ => false

namespace Concrete

variable {τ : Type} [Terminal τ] {extent : Extent τ} {after : List τ}

def Inner (tokens : List τ) : Prop := ∀ token ∈ tokens, (Terminal.kind token).inner = true

theorem Inner.append {front back : List τ} (first : Inner front) (second : Inner back) :
    Inner (front ++ back) := List.forall_mem_append.mpr ⟨first, second⟩

theorem inner_single {token : τ} {wanted : Kind} (same : Terminal.kind token = wanted)
    (inner : wanted.inner = true) : Inner [token] :=
  List.forall_mem_singleton.mpr (same ▸ inner)

theorem inner_ifAny {token : Option τ} (same : IfAny .blank token) : Inner token.toList := by
  cases token with
  | none => exact List.forall_mem_nil _
  | some token => exact inner_single (same token rfl) rfl

theorem inner_flatMap {α : Type} {items : List α} {yield : α → List τ}
    (each : ∀ item ∈ items, Inner (yield item)) : Inner (items.flatMap yield) := by
  intro token member
  obtain ⟨item, inside, here⟩ := List.mem_flatMap.mp member
  exact each item inside token here

theorem Braced.Formed.inner {script : Braced τ} (formed : script.Formed) : Inner script.yield :=
  (inner_single formed.opening rfl).append ((inner_ifAny formed.blank).append
    ((inner_single formed.content rfl).append (inner_single formed.closing rfl)))

theorem Value.Formed.inner {value : Value τ} (formed : value.Formed extent after) :
    Inner value.yield := by
  cases value with
  | quoted quote opening parts closing =>
    obtain ⟨opens, inside, closes⟩ := formed
    refine (inner_single opens rfl).append (.append (inner_flatMap fun part member => ?_)
      (inner_single closes rfl))
    have sound := inside part member
    cases part with
    | text token => exact inner_single sound rfl
    | braced script => exact Braced.Formed.inner sound
  | bare parts =>
    refine inner_flatMap fun part member => ?_
    have sound := formed.1 part member
    cases part with
    | text token => exact sound.elim (inner_single · rfl) (inner_single · rfl)
    | braced script => exact Braced.Formed.inner sound

theorem Item.Formed.inner {item : Item τ} (formed : item.Formed extent after) :
    Inner item.yield := by
  refine (inner_ifAny formed.blank).append ?_
  have entry := formed.entry
  cases same : item.entry with
  | named name modifiers value =>
    rw [same] at entry
    obtain ⟨first, marks, assigned⟩ := entry
    refine (inner_single first rfl).append (.append (inner_flatMap fun modifier member => ?_) ?_)
    · exact (inner_single (marks modifier member).pipe rfl).append
        (inner_single (marks modifier member).name rfl)
    · refine inner_flatMap fun found member => ?_
      have sound := assigned found (Option.mem_toList.mp member)
      exact (inner_single sound.equal rfl).append sound.value.inner
  | braced script =>
    rw [same] at entry
    exact Braced.Formed.inner entry

theorem Item.AllFormed.inner {items : List (Item τ)} (formed : Item.AllFormed extent items after) :
    Inner (items.flatMap Item.yield) := by
  induction items with
  | nil => exact List.forall_mem_nil _
  | cons item rest ih => exact formed.1.inner.append (ih formed.2)

end Concrete

namespace Token.StandsIn

variable {text front back earlier rest : Text} {first second : Token}

/-- A token that does not begin before another stands some text further. -/
theorem exists_part (here : first.StandsIn text front back)
    (there : second.StandsIn text earlier rest) (later : first.start.offset ≤ second.start.offset) :
    ∃ part, earlier = front ++ part := by
  rw [here.start_eq, there.start_eq, Point.offset_walk, Point.offset_walk] at later
  have split : front ++ (first.image ++ back) = earlier ++ (second.image ++ rest) := by
    rw [← List.append_assoc, ← List.append_assoc, ← here.source_eq, ← there.source_eq]
  obtain ⟨part, same⟩ := Scanner.exists_between split (Nat.le_of_add_le_add_left later)
  rw [same, ← List.append_assoc] at split
  exact ⟨part, (List.append_cancel_right split).symm⟩

/-- A token that begins where another ends stands right after it. -/
theorem eq_append (here : first.StandsIn text front back)
    (there : second.StandsIn text earlier rest) (adjacent : second.start = first.after) :
    earlier = front ++ first.image := by
  have sizes := congrArg Point.offset adjacent
  rw [here.after_eq, there.start_eq, Point.offset_walk, Point.offset_walk] at sizes
  have cut := Text.cut?_append earlier (second.image ++ rest)
  rw [Nat.add_left_cancel sizes, ← List.append_assoc, ← there.source_eq, here.source_eq,
    Text.cut?_append] at cut
  exact (Prod.mk.inj (Option.some.inj cut)).1.symm

end Token.StandsIn

namespace Munch

/-- The opening of a raw element is never taken for that of another tag. -/
theorem Takes.not_rawOpen {mode : Mode} {text image : Text}
    (takes : Takes mode.candidates text .openTag image) (known : RawElement) :
    ¬Language (.rawOpen known) image := by
  intro raw
  obtain rfl : mode = .content :=
    Kind.eq_content_of_outer (Mode.admits_of_candidate takes.candidate) rfl
  obtain ⟨before, after, split, earlier⟩ := takes.earliest
  have earliest : Kind.rawOpen known ∈ before := by
    have whole : Mode.content.candidates = [.text, .braceOpen, .comment, .rawOpen .style,
      .rawOpen .script, .rawOpen .textArea] ++ .openTag :: [.closeTag] := rfl
    rw [whole] at split
    obtain ⟨rfl, -⟩ := (List.append_cons_inj_of_notMem (by decide) (by decide)).mp split
    cases known <;> decide
  exact Nat.lt_irrefl _ (earlier _ earliest image takes.starts raw)

end Munch

theorem Scanner.Course.not_rawOpen {source : Text} {scanner : Scanner}
    (course : Course source scanner) : ∀ token ∈ scanner.tokens, token.kind = .openTag →
      ∀ known, ¬Munch.Language (.rawOpen known) token.image := by
  induction course with
  | refl => exact List.forall_mem_nil _
  | tail _ bite ih =>
    cases bite with
    | skip => exact ih
    | take takes =>
      refine List.forall_mem_cons.mpr ⟨?_, ih⟩
      rintro rfl known
      rw [takes.image_eq]
      exact takes.not_rawOpen known

theorem not_rawOpen_of_scan {source : Text} {token : Token}
    (member : token ∈ (scan source).tokens) (opens : token.kind = .openTag) (known : RawElement) :
    ¬Munch.Language (.rawOpen known) token.image := by
  obtain ⟨last, course, -, found⟩ := Scanner.exists_course source
  rw [← found] at member
  exact course.not_rawOpen token (List.mem_reverse.mp member) opens known

/-- A letter that is small already stays as it is. -/
theorem Text.eq_of_toLower {char small : Char} (like : char.toLower = small)
    (lower : isUpper char = false) : char = small := by
  have number := congrArg Char.toNat like
  rw [Munch.toNat_toLower] at number
  split at number
  · next capital =>
    have upper : isUpper char = true := by
      have run : (0x41, 0x5A, 1) ∈ upperRuns := by
        unfold upperRuns
        exact List.mem_cons_self
      exact List.any_eq_true.mpr ⟨_, run, by simp [capital, Nat.mod_one]⟩
    rw [upper] at lower
    cases lower
  · exact Char.toNat_inj.mp number

/-- A tag that is not opened as a raw element is not named like one. -/
theorem TagType.rawElement?_ofName {token : Token}
    (belongs : Munch.Language .openTag token.image)
    (other : ¬Munch.Language (.rawOpen .textArea) token.image) :
    (ofName token.tagName).1.rawElement? (ofName token.tagName).2 = none := by
  obtain ⟨run, image_eq, filled, named⟩ := belongs
  rw [Token.tagName_eq image_eq filled named]
  rw [image_eq] at other
  unfold ofName
  split
  · rfl
  · next plain =>
    show (if _ then _ else _ : TagType).rawElement? run = none
    split
    · rfl
    · next small =>
      refine if_neg fun like => other ?_
      obtain ⟨first, letters, rfl⟩ := List.exists_cons_of_ne_nil filled
      obtain ⟨initial, others⟩ := List.cons.inj like
      have letter := Text.eq_of_toLower initial (Bool.eq_false_iff.mpr small)
      exact ⟨_, _, letters, rfl, congrArg ('<' :: · :: letters) letter, others⟩

/-- A comment goes on to the first end of a comment. -/
theorem Fragment.ofComment_commented {text front back : Text} {token : Token}
    (stands : token.StandsIn text front back) (belongs : Munch.Language .comment token.image)
    (blanks : Text) : (ofComment token).Commented (text ++ blanks) := by
  have image_eq := ofComment_image belongs
  obtain ⟨body, body_eq, ends⟩ := belongs
  rw [image_eq, List.append_assoc] at body_eq
  have body_eq := List.append_cancel_left body_eq
  refine ⟨?_, fun before after split => ?_⟩
  · rw [← image_eq, stands.source_eq, List.append_assoc]
    show Span.slice? ⟨token.start, token.after⟩ _ = _
    rw [stands.start_eq, stands.after_eq]
    exact Span.slice?_walk front token.image (back ++ blanks)
  · obtain rfl := ends.first before _ after (body_eq.symm.trans split) rfl
    rw [List.append_nil] at split
    exact (List.append_cancel_right split).symm

theorem Mode.not_endedBy_of_inner {mode : Mode} {kind : Kind} (inTag : mode.InTag)
    (inner : kind.inner = true) : ¬mode.EndedBy kind := by
  intro ended
  cases inTag <;> cases ended <;> cases inner

/-- The opening tag of a raw element ends with its angle. -/
theorem Concrete.Head.Formed.opens {known : RawElement} {head : Head Token} {angle : Token}
    {tokens after : List Token} (formed : head.Formed .whole (.rawOpen known) after)
    (ends : angle.kind = .rawAngle known) (beside : head.yield ++ [angle] <:+: tokens) :
    known.Opens tokens head.opening.start angle.start := by
  have inner := formed.items.inner.append (inner_ifAny formed.blank)
  refine ⟨head.opening, _, angle, beside, formed.opening, rfl, fun token member => ?_, ends, rfl⟩
  exact Mode.not_endedBy_of_inner (.rawTag known) (inner token member)

/-- The content of a raw element comes right after its angle. -/
theorem start_eq_after_of_rawAngle {source : Text} {known : RawElement} {angle rest : Token}
    (beside : [angle, rest] <:+: (scan source).tokens) (ends : angle.kind = .rawAngle known) :
    rest.start = angle.after := by
  have chain := List.IsChain.infix (bracketed_scan source).precedes beside
  have follows := List.isChain_pair.mp chain
  exact (follows (.rawRest known) (by rw [ends]; rfl)).2

/-- In a text that ends with its first end tag, any end tag is that one. -/
theorem Munch.EndsAtFirst.eq_front {known : RawElement} {content closing : Text}
    (terminator : EndsAtFirst (fun word => Text.lower word = known.endTag.toList)
      (content ++ closing)) (like : Text.lower closing = known.endTag.toList)
    {before word after : Text} (split : content ++ closing = before ++ word ++ after)
    (other : Text.lower word = known.endTag.toList) : before = content := by
  obtain rfl := terminator.first before word after split other
  rw [List.append_nil] at split
  have lengths := congrArg List.length (like.trans other.symm)
  rw [Text.lower, Text.lower, List.length_map, List.length_map] at lengths
  exact (List.append_inj' split lengths).1.symm

/-- A raw element stands in the source with its end tag, the first that comes after its angle. -/
theorem Node.ofRaw_encloses {text : Text} {known : RawElement} {head : Head Token}
    {angle rest : Token} {after : List Token}
    (beside : head.yield ++ [angle, rest] <:+: (scan text).tokens)
    (opened : head.Formed .whole (.rawOpen known) after) (ends : angle.kind = .rawAngle known)
    (contains : rest.kind = .rawRest known) (blanks : Text) :
    ∃ front opening content closing back, known.Encloses (text ++ blanks) (scan text).tokens
      ⟨head.opening.start, rest.after⟩ [.text (.ofRaw known rest)]
      front opening content closing back := by
  obtain ⟨stretches, tiles⟩ := exists_tiles text
  have among := beside.subset
  rw [Concrete.Head.yield_append] at among
  have angle_mem : angle ∈ (scan text).tokens := among (by simp)
  have rest_mem : rest ∈ (scan text).tokens := among (by simp)
  obtain ⟨front, _, first⟩ := tiles.standsIn (among List.mem_cons_self)
  obtain ⟨before, _, middle⟩ := tiles.standsIn angle_mem
  obtain ⟨earlier, back, last⟩ := tiles.standsIn rest_mem
  have sign : Munch.Language angle.kind angle.image := language_of_scan angle_mem
  have belongs := language_of_scan rest_mem
  rw [contains] at belongs
  obtain ⟨content, closing, image_eq, like⟩ := belongs.ends
  rw [image_eq] at belongs
  rw [ends] at sign
  -- The angle comes after the opening, and the content comes right after the angle.
  have later : head.opening.start.offset ≤ angle.start.offset := by
    have apart := tiles.ordered.sublist beside.sublist
    rw [Concrete.Head.yield_append] at apart
    exact first.start_lt_after.le.trans ((List.pairwise_cons.mp apart).1 angle (by simp))
  have adjacent : rest.start = angle.after := by
    have pair : [angle, rest] <:+: (scan text).tokens :=
      (List.suffix_append _ _).isInfix.trans beside
    exact start_eq_after_of_rawAngle pair ends
  obtain ⟨opening, rfl⟩ := first.exists_part middle later
  obtain rfl := middle.eq_append last adjacent
  have start_eq := last.start_eq
  have after_eq := last.after_eq
  have source_eq := last.source_eq
  rw [sign] at start_eq after_eq source_eq
  rw [image_eq] at after_eq source_eq
  have span_eq : Span.mk head.opening.start rest.after = ⟨Point.origin.walk front,
      Point.origin.walk (front ++ (opening ++ ['>'] ++ content ++ closing))⟩ := by
    rw [first.start_eq, after_eq]
    simp only [List.append_assoc]
  have whole : text ++ blanks =
      front ++ (opening ++ ['>'] ++ content ++ closing) ++ (back ++ blanks) := by
    simp only [source_eq, List.append_assoc]
  refine ⟨front, opening, content, closing, back ++ blanks, whole, span_eq, ?_, ?_, ?_, like, ?_⟩
  · rw [span_eq, whole]
    exact Span.slice?_walk front _ (back ++ blanks)
  · have tag : head.yield ++ [angle] <:+: (scan text).tokens := by
      rw [List.append_cons] at beside
      exact (List.prefix_append _ _).isInfix.trans beside
    exact middle.start_eq ▸ opened.opens ends tag
  · rw [← List.append_assoc] at after_eq
    rw [Fragment.ofRaw_eq image_eq like start_eq after_eq]
  · intro before word after split other
    exact belongs.eq_front like split other

/-- A raw element is known by its type and its name. -/
theorem TagType.rawElement?_ofRaw {known : RawElement} {token : Token}
    (belongs : Munch.Language (.rawOpen known) token.image) :
    (ofRaw known).rawElement? token.tagName = some known := by
  cases known with
  | textArea => exact if_pos (Munch.lower_tagName_of_rawOpen belongs)
  | _ => rfl

namespace Node

/-- A tag that is not opened as a raw element has nothing to end. -/
theorem ofHead_terminated {text source : Text} {tokens : List Token} {head : Head Token}
    {selfClosing : Bool} {children : List Node} {finish : Point}
    (among : head.yield ⊆ (scan text).tokens) (opens : head.opening.kind = .openTag)
    (inside : AllTerminated source tokens children) :
    (ofHead head selfClosing children finish).Terminated source tokens := by
  have member : head.opening ∈ (scan text).tokens := among List.mem_cons_self
  have belongs := language_of_scan member
  rw [opens] at belongs
  have none := TagType.rawElement?_ofName belongs (not_rawOpen_of_scan member opens .textArea)
  refine ⟨fun _ element found => ?_, inside⟩
  cases none.symm.trans found

variable {text : Text} (blanks : Text)

theorem ofRaw_terminated {known : RawElement} {head : Head Token} {body : RawBody Token}
    {after : List Token} (beside : head.yield ++ body.yield <:+: (scan text).tokens)
    (formed : (Child.raw known head body).Formed .whole 0 after) :
    (ofRaw known head body).Terminated (text ++ blanks) (scan text).tokens := by
  obtain ⟨opened, closed⟩ := formed
  cases body with
  | selfClosed closing => exact ⟨nofun, trivial⟩
  | content angle rest =>
    have belongs := language_of_scan (beside.subset List.mem_cons_self)
    have kind : head.opening.kind = .rawOpen known := opened.opening
    rw [kind] at belongs
    refine ⟨fun _ element found => ?_, trivial, trivial⟩
    obtain rfl := Option.some.inj ((TagType.rawElement?_ofRaw belongs).symm.trans found)
    exact ofRaw_encloses beside opened closed.1 closed.2 blanks

mutual

/-- What is built from a scan ends at its first terminators. -/
theorem ofChild_terminated : ∀ {child : Child Token},
    (∀ inner ∈ child.family, inner.Joined (scan text).tokens) →
      (ofChild child).Terminated (text ++ blanks) (scan text).tokens
  | .text _, _ => trivial
  | .comment token, joined => by
    obtain ⟨beside, _, kind⟩ := joined _ List.mem_cons_self
    have member : token ∈ (scan text).tokens := beside.subset List.mem_cons_self
    have kind : token.kind = .comment := kind
    have belongs := language_of_scan member
    rw [kind] at belongs
    obtain ⟨stretches, tiles⟩ := exists_tiles text
    obtain ⟨front, back, stands⟩ := tiles.standsIn member
    exact Fragment.ofComment_commented stands belongs blanks
  | .braced _, _ => trivial
  | .single _, _ => trivial
  | .block first others finish, joined => by
    obtain ⟨-, joined⟩ := List.forall_mem_cons.mp joined
    obtain ⟨inner, rest⟩ := List.forall_mem_append.mp joined
    exact ⟨ofBranch_terminated inner, ofBranches_terminated rest⟩
  | .raw known head body, joined => by
    obtain ⟨beside, _, formed⟩ := joined _ List.mem_cons_self
    exact ofRaw_terminated blanks beside formed
  | .selfClosed head slash angle, joined => by
    obtain ⟨beside, _, formed⟩ := joined _ List.mem_cons_self
    exact ofHead_terminated (List.append_subset.mp beside.subset).1 formed.1.opening trivial
  | .void head angle, joined => by
    obtain ⟨beside, _, formed⟩ := joined _ List.mem_cons_self
    exact ofHead_terminated (List.append_subset.mp beside.subset).1 formed.opening trivial
  | .element head angle content close, joined => by
    obtain ⟨⟨beside, _, formed⟩, inner⟩ := List.forall_mem_cons.mp joined
    exact ofHead_terminated (List.append_subset.mp beside.subset).1 formed.opening
      (ofChildren_terminated inner)

theorem ofBranch_terminated : ∀ {branch : Concrete.Branch Token},
    (∀ inner ∈ branch.family, inner.Joined (scan text).tokens) →
      (ofBranch branch).Terminated (text ++ blanks) (scan text).tokens
  | ⟨_, _⟩, joined => ofChildren_terminated joined

theorem ofChildren_terminated : ∀ {children : List (Child Token)},
    (∀ inner ∈ Child.families children, inner.Joined (scan text).tokens) →
      AllTerminated (text ++ blanks) (scan text).tokens (ofChildren children)
  | [], _ => trivial
  | _ :: _, joined =>
    have ⟨here, further⟩ := List.forall_mem_append.mp joined
    ⟨ofChild_terminated here, ofChildren_terminated further⟩

theorem ofBranches_terminated : ∀ {branches : List (Concrete.Branch Token)},
    (∀ inner ∈ Concrete.Branch.families branches, inner.Joined (scan text).tokens) →
      Branch.AllTerminated (text ++ blanks) (scan text).tokens (ofBranches branches)
  | [], _ => trivial
  | _ :: _, joined =>
    have ⟨here, further⟩ := List.forall_mem_append.mp joined
    ⟨ofBranch_terminated here, ofBranches_terminated further⟩

end

end Node

/-- Whatever is wrong with a source, in its document every script, style sheet and text area that is
not closed by its opening tag has one child. This is the text from right after the angle of the
opening tag to the first text that is the end tag, in letters of any size; it ends exactly where the
end tag begins, and the element ends exactly where the end tag does. Every comment goes on to the
first end of a comment. -/
theorem parse_terminates (options : Options) (source : Text) :
    Node.AllTerminated source (scan (options.read source)).tokens
      (parse options source).document.children := by
  obtain ⟨blanks, source_eq, -⟩ := options.read_append source
  have terminated := Node.ofChildren_terminated blanks
    (Concrete.joined_build (scan (options.read source)).tokens)
  rw [source_eq] at terminated
  have children : (parse options source).document.children =
      Node.ofChildren (Concrete.build (scan (options.read source)).tokens).children :=
    Document.ofNodes_children _
  rw [children]
  exact terminated

end Template
