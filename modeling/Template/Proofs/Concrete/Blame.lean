import Mathlib.Data.List.Perm.Subperm
import Template.Problem
import Template.Proofs.Concrete.Records
import Template.Proofs.Concrete.Sites
import Template.Proofs.Concrete.Validity

set_option autoImplicit false

namespace Template.Concrete

open Terminal (kind tagName blockName)
open Rule

variable {τ : Type}

/-- Each of some items has one of the others to itself. -/
def EachOwn {α β : Type} (related : α → β → Prop) (items : List α) (others : List β) : Prop :=
  ∃ pairs : List (α × β), (pairs.map Prod.fst).Perm items ∧
    (pairs.map Prod.snd).Subperm others ∧ ∀ pair ∈ pairs, related pair.1 pair.2

namespace EachOwn

variable {α β : Type} {related : α → β → Prop} {items : List α} {others : List β}

theorem nil : EachOwn related [] others :=
  ⟨[], .nil, List.nil_subperm, List.forall_mem_nil _⟩

theorem more {further : List β} (own : EachOwn related items others)
    (grows : others <:+ further) : EachOwn related items further := by
  obtain ⟨pairs, firsts, seconds, each⟩ := own
  exact ⟨pairs, firsts, seconds.trans grows.sublist.subperm, each⟩

theorem perm {again : List α} (own : EachOwn related items others) (perm : again.Perm items) :
    EachOwn related again others := by
  obtain ⟨pairs, firsts, seconds, each⟩ := own
  exact ⟨pairs, firsts.trans perm.symm, seconds, each⟩

theorem cons {item : α} {other : β} (own : EachOwn related items others)
    (here : related item other) : EachOwn related (item :: items) (other :: others) := by
  obtain ⟨pairs, firsts, seconds, each⟩ := own
  exact ⟨(item, other) :: pairs, firsts.cons item, List.subperm_cons other |>.mpr seconds,
    List.forall_mem_cons.mpr ⟨here, each⟩⟩

end EachOwn

/-- A child that is read at once has no other in it. -/
theorem Child.family_of_leaf {child : Child τ} (whole : child.isLeaf = true) :
    child.family = [child] := by
  cases child with
  | block | void | element => cases whole
  | _ => rfl

/-- The tokens of a child come before those that are left. -/
def Child.Ahead (tokens rest : List τ) (child : Child τ) : Prop :=
  ∃ front, tokens = front ++ rest ∧ child.yield.Sublist front

namespace Builder

/-- A child without others in it becomes complete when it is added. -/
theorem finished_add_alone (builder : Builder τ) {child : Child τ}
    (alone : child.family = [child]) :
    (builder.add child).finished.Perm (child :: builder.finished) := by
  rw [finished_add, alone]
  exact List.perm_append_singleton child builder.finished

/-- What is noted of the depth completes nothing. -/
theorem finished_noteDepth (builder : Builder τ) (depth : Nat) (first last : τ) :
    (builder.noteDepth depth first last).finished = builder.finished := by
  unfold noteDepth
  split <;> rfl

variable {tokens : List τ} {builder : Builder τ}

/-- The tokens of an element that ends are those before the tokens left. -/
theorem ahead_endElement {below : List (Frame τ)} {head : Head τ} {angle : τ}
    {children : List (Child τ)} (accounts : builder.Accounts tokens)
    (inside : builder.frames = .element head angle children :: below) :
    Child.Ahead tokens builder.rest (.element head angle children.reverse none) := by
  obtain ⟨front, here, sub⟩ := accounts.sublist
  refine ⟨front, here, List.Sublist.trans ?_ sub⟩
  have held := held_endElement builder inside none
  rw [endElement, held_add, Option.toList_none, List.flatMap_nil, List.append_nil] at held
  exact held ▸ List.sublist_append_right _ _

/-- The tokens of a block that ends are those before the tokens left. -/
theorem ahead_endBlock {below : List (Frame τ)} {earlier : List (Branch τ)} {marker : Marker τ}
    {children : List (Child τ)} (accounts : builder.Accounts tokens)
    (inside : builder.frames = .block earlier marker children :: below) :
    Child.Ahead tokens builder.rest (blockOf none earlier ⟨marker, children.reverse⟩ []) := by
  obtain ⟨front, here, sub⟩ := accounts.sublist
  refine ⟨front, here, List.Sublist.trans ?_ sub⟩
  have held := held_endBlock builder inside none
  rw [endBlock, held_add, Option.toList_none, List.flatMap_nil, List.append_nil] at held
  exact held ▸ List.sublist_append_right _ _

end Builder

variable [Terminal τ]

/-- An element lacks a closing tag that it may not leave out, or a block lacks its own end. -/
def Child.lacks : Child τ → Bool
  | .element head _ _ none => !Element.mayEnd (Builder.nameOf head)
  | .block _ _ none => true
  | .block first _ (some finish) => blockName first.marker.name ≠ blockName finish.name
  | _ => false

theorem Child.lacks_of_leaf {child : Child τ} (whole : child.isLeaf = true) :
    child.lacks = false := by
  cases child with
  | block | void | element => cases whole
  | _ => rfl

/-- After the tokens of a child some more are read, and then a token of a kind is missed. -/
def Child.BreaksOff (tokens read : List τ) (wanted : Kind) (child : Child τ) (fault : Fault τ) :
    Prop :=
  ∃ rest, child.Ahead tokens (read ++ rest) ∧ kind? rest ≠ some wanted ∧
    fault = ⟨.mismatch (.token wanted) rest.head?,
      .dropped (Builder.unread rest) (Builder.resumed rest)⟩

theorem Child.BreaksOff.mem {tokens read : List τ} {wanted : Kind} {child : Child τ}
    {fault : Fault τ} {token : τ} (breaks : child.BreaksOff tokens read wanted fault)
    (member : token ∈ read) : token ∈ tokens := by
  obtain ⟨rest, ⟨front, here, -⟩, -⟩ := breaks
  rw [here]
  exact List.mem_append_right _ (List.mem_append_left _ member)

/-- What a child lacks is told by a fault: it is missing where the content ends, what is inside too
many others has no content at all, the closing tag or the end of the block is broken, or the block
ends under another name. -/
inductive Child.ToldBy (tokens : List τ) : Child τ → Fault τ → Prop where
  | missingClose {head : Head τ} {angle : τ} {content : List (Child τ)} {rest : List τ}
      (ahead : Ahead tokens rest (.element head angle content none)) :
      ToldBy tokens (.element head angle content none)
        ⟨.missingClose (Builder.nameOf head) rest.head?, .at rest⟩
  | tooDeep (head : Head τ) (angle : τ) :
      ToldBy tokens (.element head angle [] none) ⟨.tooDeep, .across head.opening angle⟩
  | brokenClose {head : Head τ} {angle : τ} {content : List (Child τ)} {opening : τ}
      {blank : Option τ} {fault : Fault τ} (closer : kind opening = .closeTag)
      (named : tagName opening = Builder.nameOf head) (blanks : IfAny .blank blank)
      (breaks : BreaksOff tokens (opening :: blank.toList) .angle
        (.element head angle content none) fault) :
      ToldBy tokens (.element head angle content none) fault
  | missingEnd {first : Branch τ} {others : List (Branch τ)} {rest : List τ}
      (ahead : Ahead tokens rest (.block first others none)) :
      ToldBy tokens (.block first others none)
        ⟨.missingEnd (blockName first.marker.name) rest.head?, .at rest⟩
  | brokenEnd {first : Branch τ} {others : List (Branch τ)} {opening name : τ} {blank : Option τ}
      {fault : Fault τ} (brace : kind opening = .braceOpen) (closer : kind name = .block .closing)
      (blanks : IfAny .blank blank)
      (breaks : BreaksOff tokens (opening :: name :: blank.toList) .braceClose
        (.block first others none) fault) :
      ToldBy tokens (.block first others none) fault
  | wrongEnd (first : Branch τ) (others : List (Branch τ)) (finish : BlockEnd τ) :
      ToldBy tokens (.block first others (some finish))
        ⟨.wrongEnd (blockName first.marker.name) (blockName finish.name),
          .across finish.name finish.name⟩

/-- A block ends where the marker of a further branch is broken. -/
inductive Child.BrokenTurn (tokens : List τ) : Child τ → Fault τ → Prop where
  | intro {first : Branch τ} {others : List (Branch τ)} {opening name : τ}
      {blank script : Option τ} {fault : Fault τ} (brace : kind opening = .braceOpen)
      (continues : kind name = .block .continuing) (blanks : IfAny .blank blank)
      (scripts : IfAny .expression script)
      (breaks : BreaksOff tokens (opening :: name :: (blank.toList ++ script.toList)) .braceClose
        (.block first others none) fault) :
      BrokenTurn tokens (.block first others none) fault

/-- One way or the other. -/
def Child.Told (tokens : List τ) (child : Child τ) (fault : Fault τ) : Prop :=
  child.ToldBy tokens fault ∨ child.BrokenTurn tokens fault

namespace Builder

variable {tokens : List τ} {before after : Builder τ}

/-- Whatever is complete and lacks something has a fault of its own. -/
def Tells (tokens : List τ) (builder : Builder τ) : Prop :=
  EachOwn (Child.Told tokens) (builder.finished.filter Child.lacks) builder.faults

/-- A step forgets no fault. -/
theorem faults_of_does (does : Does before after) : before.faults <:+ after.faults := by
  obtain ⟨read, advances⟩ := advances_of_does does
  exact advances.records.suffix

/-- Nothing becomes complete. -/
theorem Tells.keep (tells : before.Tells tokens) (same : after.finished = before.finished)
    (grows : before.faults <:+ after.faults) : after.Tells tokens := by
  rw [Tells, same]
  exact tells.more grows

/-- A child becomes complete that lacks nothing. -/
theorem Tells.whole {child : Child τ} (tells : before.Tells tokens)
    (done : after.finished.Perm (child :: before.finished))
    (grows : before.faults <:+ after.faults) (whole : child.lacks = false) :
    after.Tells tokens := by
  refine (tells.more grows).perm ((done.filter Child.lacks).trans ?_)
  rw [List.filter_cons_of_neg (Bool.eq_false_iff.mp whole)]

/-- A child becomes complete, and a fault is recorded that tells what it lacks. -/
theorem Tells.lacking {child : Child τ} {fault : Fault τ} (tells : before.Tells tokens)
    (done : after.finished.Perm (child :: before.finished))
    (noted : after.faults = fault :: before.faults) (told : child.Told tokens fault) :
    after.Tells tokens := by
  cases lacks : child.lacks with
  | false => exact tells.whole done (noted ▸ List.suffix_cons _ _) lacks
  | true =>
    rw [Tells, noted]
    refine EachOwn.perm (EachOwn.cons tells told) ?_
    exact List.filter_cons_of_pos lacks ▸ done.filter Child.lacks

theorem Follows.exists_cons {sigil : Sigil} {tokens : List τ} (follows : Follows sigil tokens) :
    ∃ opening name rest, tokens = opening :: name :: rest ∧ kind opening = .braceOpen ∧
      kind name = .block sigil := by
  obtain ⟨first, second⟩ := follows
  match tokens with
  | opening :: name :: rest =>
    exact ⟨opening, name, rest, rfl, Option.some.inj first, Option.some.inj second⟩

/-- What a step leaves incomplete it tells of. -/
theorem tells_of_does (does : Does before after) (accounts : before.Accounts tokens)
    (tells : before.Tells tokens) : after.Tells tokens := by
  have grows := faults_of_does does
  cases does with
  | broken | stray | strayBroken | dropUnexpected => exact tells.keep rfl grows
  | leaf _ _ whole =>
    exact tells.whole (finished_add_alone _ (Child.family_of_leaf whole)) grows
      (Child.lacks_of_leaf whole)
  | void => exact tells.whole (finished_add_alone _ rfl) grows rfl
  | @flat head angle =>
    refine tells.lacking (finished_add_alone _ rfl) ?_ (.inl (.tooDeep head angle))
    rw [faults_add]
    rfl
  | openElement => exact tells.keep (finished_push _ _ rfl) grows
  | @openBlock marker rest =>
    refine tells.keep ((finished_noteDepth _ _ _ _).trans ?_) grows
    exact finished_push { before with rest } (.block [] marker []) rfl
  | @endClosed _ _ _ _ _ rest ends =>
    exact tells.whole (finished_endElement { before with rest } ends.inside _) grows rfl
  | @endBroken _ _ _ _ mismatch ends ending failed =>
    refine tells.lacking (finished_endElement (before.recover mismatch) ends.inside none)
      (faults_add _ _) (.inl ?_)
    have ahead := ahead_endElement accounts ends.inside
    obtain ⟨opening, rest, here, closer, named⟩ := exists_of_closed ending
    rw [here] at failed ahead
    obtain ⟨blank, blanks, rfl, other, expected⟩ := eq_of_closeTag_error closer failed
    exact .brokenClose closer named blanks ⟨_, ahead, other, by rw [expected]⟩
  | endSilent ends ending =>
    refine tells.whole (finished_endElement before ends.inside none) grows ?_
    rw [Child.lacks, mayEnd_of_silent ending, Bool.not_true]
  | @endMissing _ head _ _ ends =>
    refine tells.lacking
      (finished_endElement (before.noteMissingClose (nameOf head)) ends.inside none)
      (faults_add _ _) (.inl ?_)
    exact .missingClose (ahead_endElement accounts ends.inside)
  | @turn below earlier marker next children rest ends =>
    refine tells.keep ((finished_noteDepth _ _ _ _).trans ?_) grows
    exact finished_turn { before with rest } ends.inside
  | @turnBroken _ earlier marker children mismatch ends follows failed =>
    refine tells.lacking (finished_endBlock (before.recover mismatch) ends.inside none)
      (faults_add _ _) (.inr ?_)
    have ahead := ahead_endBlock accounts ends.inside
    obtain ⟨first, others, -, block, -⟩ := exists_blockOf earlier marker children.reverse
    obtain ⟨opening, name, rest, here, brace, continues⟩ := follows.exists_cons
    rw [here] at failed ahead
    rw [block] at ahead ⊢
    obtain ⟨blank, script, blanks, scripts, rfl, other, expected⟩ :=
      eq_of_marker_error brace continues failed
    rw [← List.append_assoc] at ahead
    exact .intro brace continues blanks scripts ⟨_, ahead, other, by rw [expected]⟩
  | @endBlock _ earlier marker children finish rest ends =>
    obtain ⟨first, others, -, block, opened⟩ := exists_blockOf earlier marker children.reverse
    unfold noteWrongEnd at grows ⊢
    rw [opened] at grows ⊢
    by_cases same : blockName first.marker.name = blockName finish.name
    · rw [if_pos same] at grows ⊢
      refine tells.whole (finished_endBlock { before with rest } ends.inside (some finish)) grows ?_
      rw [block, Child.lacks, decide_eq_false (not_not_intro same)]
    · rw [if_neg same]
      refine tells.lacking (finished_endBlock (Builder.note { before with rest } _ _) ends.inside
        (some finish)) (faults_add _ _) (.inl ?_)
      rw [block]
      exact .wrongEnd first others finish
  | @endBlockBroken _ earlier marker children mismatch ends follows failed =>
    refine tells.lacking (finished_endBlock (before.recover mismatch) ends.inside none)
      (faults_add _ _) (.inl ?_)
    have ahead := ahead_endBlock accounts ends.inside
    obtain ⟨first, others, -, block, -⟩ := exists_blockOf earlier marker children.reverse
    obtain ⟨opening, name, rest, here, brace, closer⟩ := follows.exists_cons
    rw [here] at failed ahead
    rw [block] at ahead ⊢
    obtain ⟨blank, blanks, rfl, other, expected⟩ := eq_of_blockEnd_error brace closer failed
    exact .brokenEnd brace closer blanks ⟨_, ahead, other, by rw [expected]⟩
  | @endBlockMissing _ earlier marker children ends =>
    refine tells.lacking (finished_endBlock (before.note _ _) ends.inside none)
      (faults_add _ _) (.inl ?_)
    have ahead := ahead_endBlock accounts ends.inside
    obtain ⟨first, others, -, block, opened⟩ := exists_blockOf earlier marker children.reverse
    rw [block] at ahead ⊢
    rw [opened]
    exact .missingEnd ahead

end Builder

/-- Whatever is missing from a tree is told by a fault, for each child another one. -/
theorem told_build (tokens : List τ) :
    EachOwn (Child.Told tokens) ((Child.families (build tokens).children).filter Child.lacks)
      (build tokens).faults := by
  have kept : (Builder.machine.exhaust (.start tokens)).Accounts tokens ∧
      (Builder.machine.exhaust (.start tokens)).Tells tokens := by
    refine (Builder.machine.reaches_exhaust (.start tokens)).keeps
      (fun builder => builder.Accounts tokens ∧ builder.Tells tokens)
      (fun before after holds taken => ?_) ⟨.start, .nil⟩
    have does := Builder.does_of_step taken
    refine ⟨?_, Builder.tells_of_does does holds.1 holds.2⟩
    exact Builder.keeps_of_does (Builder.Accounts tokens)
      (fun _ _ move accounts => accounts_of_move move accounts) does holds.1
  obtain ⟨pairs, firsts, seconds, each⟩ := kept.2
  rw [finished_exhaust] at firsts
  exact ⟨pairs, firsts, seconds.trans (List.reverse_perm _).symm.subperm, each⟩

/-- Where building records no fault, the tree lacks nothing. -/
theorem lacks_of_clean {tokens : List τ} (clean : (build tokens).faults = []) :
    ∀ child ∈ Child.families (build tokens).children, child.lacks = false := by
  obtain ⟨pairs, firsts, seconds, -⟩ := told_build tokens
  rw [clean, List.subperm_nil, List.map_eq_nil_iff] at seconds
  rw [seconds, List.map_nil, List.nil_perm, List.filter_eq_nil_iff] at firsts
  exact fun child member => Bool.eq_false_iff.mpr (firsts child member)

/-- Every tree is valid, broken or not, and whatever is missing from it is told by a fault, for each
child another one. -/
theorem build_valid (tokens : List τ) :
    (∀ child ∈ Child.families (build tokens).children, child.Valid) ∧
      EachOwn (fun child fault => child.ToldBy tokens fault ∨ child.BrokenTurn tokens fault)
        ((Child.families (build tokens).children).filter Child.lacks) (build tokens).faults :=
  ⟨valid_build tokens, told_build tokens⟩

def Cause.isMismatch : Cause τ → Bool
  | .mismatch _ _ => true
  | _ => false

/-- Where nothing is recorded but rules that failed, and no closing tag and no end of a block was
begun, what a child lacks is not told but by the marker of a branch. -/
theorem not_toldBy {tokens : List τ} {children : List (Child τ)} {faults : List (Fault τ)}
    (some : children.isEmpty = false) (failed : ∀ fault ∈ faults, fault.cause.isMismatch = true)
    (unclosed : ∀ token ∈ tokens, kind token ≠ .closeTag ∧ kind token ≠ .block .closing) :
    ¬EachOwn (Child.ToldBy tokens) children faults := by
  rintro ⟨pairs, firsts, seconds, each⟩
  cases pairs with
  | nil =>
    rw [List.nil_perm.mp firsts] at some
    cases some
  | cons pair others =>
    obtain ⟨child, fault⟩ := pair
    have recorded := failed fault (seconds.subset List.mem_cons_self)
    cases each _ List.mem_cons_self with
    | missingClose | tooDeep | missingEnd | wrongEnd => cases recorded
    | brokenClose closer _ _ breaks =>
      exact (unclosed _ (breaks.mem List.mem_cons_self)).1 closer
    | brokenEnd _ closer _ breaks =>
      exact (unclosed _ (breaks.mem (List.mem_cons_of_mem _ List.mem_cons_self))).2 closer

/-- A block in which the marker of a further branch is broken, and nothing comes after it. -/
def brokenElse : List Token := (scan "\x7b#if x\x7d\x7b:else".toList).tokens

/-- Of its block neither a missing end nor a broken one tells. -/
theorem brokenElse_not_toldBy :
    ¬EachOwn (Child.ToldBy brokenElse)
      ((Child.families (build brokenElse).children).filter Child.lacks)
      (build brokenElse).faults :=
  not_toldBy (by decide +kernel) (by decide +kernel) (by decide +kernel)

end Template.Concrete
