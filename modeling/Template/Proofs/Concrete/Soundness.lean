import Mathlib.Tactic.ByContra
import Template.Proofs.Concrete.Ledger

set_option autoImplicit false

namespace Template.Concrete

open Terminal (kind tagName blockName)
open Rule

variable {τ : Type}

def sigilAfter : List (Branch τ) → Sigil
  | [] => .opening
  | _ :: _ => .continuing

theorem sigilAfter_concat (branches : List (Branch τ)) (branch : Branch τ) :
    sigilAfter (branches ++ [branch]) = .continuing := by
  cases branches <;> rfl

variable [Terminal τ]

/-- The elements before which the content of the innermost frame ends. -/
def stopsOf : List (Frame τ) → Option (List Text)
  | .element head _ _ :: _ => Element.stops? (Builder.nameOf head)
  | _ => none

/-- Whether a tag with a name may stand in the innermost frame. -/
def Spares (frames : List (Frame τ)) (name : Text) : Prop :=
  ∀ stops ∈ stopsOf frames, name ∉ stops

def Branch.Sequence (depth : Nat) (after : List τ) : List (Branch τ) → Prop
  | [] => True
  | first :: others =>
    first.Formed .whole depth .opening (Branch.yields others ++ after) ∧
      Branch.AllFormed .whole depth others after

theorem Branch.sequence_concat {depth : Nat} {after : List τ} {branches : List (Branch τ)}
    {branch : Branch τ} :
    Branch.Sequence depth after (branches ++ [branch]) ↔
      Branch.Sequence depth (branch.yield ++ after) branches ∧
        branch.Formed .whole depth (sigilAfter branches) after := by
  cases branches with
  | nil =>
    simp only [List.nil_append, Branch.Sequence, Branch.yields, Branch.AllFormed, and_true,
      true_and, sigilAfter]
  | cons first others =>
    simp only [List.cons_append, Branch.Sequence, Branch.allFormed_append, Branch.yields_append,
      Branch.yields, Branch.AllFormed, List.append_nil, List.nil_append, List.append_assoc,
      sigilAfter, and_true, and_assoc]

/-- What is open is well-formed as far as it was read, given the frames below and the tokens that
come after what was read. -/
def Frame.Fits (below : List (Frame τ)) (after : List τ) : Frame τ → Prop
  | .element head angle children =>
    head.Formed .whole .openTag (angle :: Child.yields children.reverse ++ after) ∧
      kind angle = .angle ∧ Element.isVoid (Builder.nameOf head) = false ∧
      below.length < maxNesting ∧ Spares below (Builder.nameOf head) ∧
      (∀ child ∈ children, ∀ name ∈ child.tag?,
        ∀ stops ∈ Element.stops? (Builder.nameOf head), name ∉ stops) ∧
      Child.AllFormed .whole (below.length + 1) children.reverse after
  | .block earlier marker children =>
    Branch.Sequence below.length after (earlier.reverse ++ [⟨marker, children.reverse⟩])

/-- All that is open is well-formed as far as it was read. -/
def FramesFit : List (Frame τ) → List τ → Prop
  | [], _ => True
  | frame :: below, after => frame.Fits below after ∧ FramesFit below (frame.yield ++ after)

/-- All that was read is well-formed, given the tokens that are left. -/
structure Builder.Fits (builder : Builder τ) : Prop where
  frames : FramesFit builder.frames builder.rest
  children : Child.AllFormed .whole 0 builder.children.reverse
    (builder.frames.reverse.flatMap Frame.yield ++ builder.rest)

/-- A frame has room for a child that may stand in it. -/
theorem Frame.fits_add {below : List (Frame τ)} {frame : Frame τ} {child : Child τ} {rest : List τ}
    (fits : frame.Fits below (child.yield ++ rest))
    (formed : child.Formed .whole (below.length + 1) rest)
    (spared : ∀ name ∈ child.tag?, Spares (frame :: below) name) :
    (frame.add child).Fits below rest := by
  cases frame with
  | element head angle children =>
    obtain ⟨sound, last, other, bounded, outer, spares, content⟩ := fits
    refine ⟨?_, last, other, bounded, outer, List.forall_mem_cons.mpr ⟨spared, spares⟩, ?_⟩
    · simpa only [List.reverse_cons, Child.yields_append, Child.yields, List.append_nil,
        List.append_assoc, List.cons_append] using sound
    · rw [List.reverse_cons]
      refine Child.allFormed_append.mpr ⟨?_, formed, trivial⟩
      simpa only [Child.yields, List.append_nil] using content
  | block earlier marker children =>
    obtain ⟨before, sound, bounded, content⟩ := Branch.sequence_concat.mp fits
    refine Branch.sequence_concat.mpr ⟨?_, sound, bounded, ?_⟩
    · simpa only [Branch.yield, List.reverse_cons, Child.yields_append, Child.yields,
        List.append_nil, List.append_assoc] using before
    · rw [List.reverse_cons]
      refine Child.allFormed_append.mpr ⟨?_, formed, trivial⟩
      simpa only [Child.yields, List.append_nil] using content

namespace Builder

/-- A child that is well-formed where it stands can be added. -/
theorem fits_add {builder : Builder τ} {child : Child τ} {rest : List τ}
    (fits : builder.Fits) (here : builder.rest = child.yield ++ rest)
    (formed : child.Formed .whole builder.frames.length rest)
    (spared : ∀ name ∈ child.tag?, Spares builder.frames name) :
    Fits ({ builder with rest }.add child) := by
  obtain ⟨tokens, frames, children, faults⟩ := builder
  obtain ⟨open_, done⟩ := fits
  subst here
  cases frames with
  | nil =>
    refine ⟨trivial, ?_⟩
    simp only [add, List.reverse_cons, List.reverse_nil, List.flatMap_nil, List.nil_append]
    refine Child.allFormed_append.mpr ⟨?_, formed, trivial⟩
    simpa only [Child.yields, List.append_nil, List.reverse_nil, List.flatMap_nil,
      List.nil_append] using done
  | cons frame below =>
    obtain ⟨inner, outer⟩ := open_
    refine ⟨⟨Frame.fits_add inner formed spared, ?_⟩, ?_⟩
    · rw [Frame.yield_add, List.append_assoc]
      exact outer
    · simpa only [add, List.reverse_cons, List.flatMap_append, List.flatMap_singleton,
        Frame.yield_add, List.append_assoc] using done

/-- A frame that is well-formed up to the tokens left can be opened. -/
theorem fits_push {builder : Builder τ} {frame : Frame τ} {rest : List τ} (fits : builder.Fits)
    (here : builder.rest = frame.yield ++ rest) (sound : frame.Fits builder.frames rest) :
    Fits { builder with rest, frames := frame :: builder.frames } := by
  obtain ⟨open_, done⟩ := fits
  rw [here] at open_ done
  refine ⟨⟨sound, open_⟩, ?_⟩
  simpa only [List.reverse_cons, List.flatMap_append, List.flatMap_singleton, List.append_assoc]
    using done

/-- Without the innermost frame its tokens are still to be read. -/
theorem fits_pop {builder : Builder τ} {frame : Frame τ} {below : List (Frame τ)}
    (fits : builder.Fits) (inside : builder.frames = frame :: below) :
    Fits { builder with rest := frame.yield ++ builder.rest, frames := below } := by
  obtain ⟨open_, done⟩ := fits
  rw [inside] at open_ done
  refine ⟨open_.2, ?_⟩
  simpa only [List.reverse_cons, List.flatMap_append, List.flatMap_singleton, List.append_assoc]
    using done

theorem fits_endElement {builder : Builder τ} {below : List (Frame τ)} {head : Head τ} {angle : τ}
    {children : List (Child τ)} {close : Option (CloseTag τ)} {rest : List τ} (fits : builder.Fits)
    (inside : builder.frames = .element head angle children :: below)
    (here : builder.rest = close.toList.flatMap CloseTag.yield ++ rest)
    (closed : ClosedBy (nameOf head) rest close) :
    Fits ({ builder with rest }.endElement below head angle children close) := by
  have frame := fits.frames
  rw [inside, here] at frame
  obtain ⟨⟨sound, last, other, bounded, outer, spares, content⟩, -⟩ := frame
  refine fits_add (fits_pop fits inside) ?_ ?_ ?_
  · simp only [here, Frame.yield, Child.yield, List.append_assoc, List.cons_append]
  · refine ⟨sound, last, other, bounded, ?_, content, closed⟩
    exact fun child present => spares child (List.mem_reverse.mp present)
  · intro name same
    cases same
    exact outer

theorem fits_endBlock {builder : Builder τ} {below : List (Frame τ)} {earlier : List (Branch τ)}
    {marker : Marker τ} {children : List (Child τ)} {finish : BlockEnd τ} {rest : List τ}
    (fits : builder.Fits) (inside : builder.frames = .block earlier marker children :: below)
    (here : builder.rest = finish.yield ++ rest) (sound : finish.Formed)
    (same : blockName (firstMarker earlier marker).name = blockName finish.name) :
    Fits ({ builder with rest }.endBlock below earlier marker children (some finish)) := by
  have frame := fits.frames
  rw [inside, here] at frame
  obtain ⟨branches, -⟩ := frame
  change Branch.Sequence _ _ _ at branches
  refine fits_add (fits_pop fits inside) ?_ ?_ ?_
  · simp only [here, Frame.yield, yield_blockOf, Branch.yield, Branch.yields, Option.toList_some,
      List.flatMap_singleton, List.nil_append, List.append_assoc]
  · cases spelled : earlier.reverse ++ [⟨marker, children.reverse⟩] with
    | nil => exact absurd spelled (List.append_ne_nil_of_right_ne_nil _ (List.cons_ne_nil _ _))
    | cons first others =>
      rw [spelled] at branches
      rw [firstMarker_eq earlier marker _ [] spelled] at same
      rw [blockOf_eq (some finish) earlier _ [] spelled]
      refine ⟨?_, ?_, finish, rfl, sound, same⟩
      · simpa only [Option.toList_some, List.flatMap_singleton] using branches.1
      · simpa only [Option.toList_some, List.flatMap_singleton] using branches.2
  · cases spelled : earlier.reverse ++ [⟨marker, children.reverse⟩] with
    | nil => exact absurd spelled (List.append_ne_nil_of_right_ne_nil _ (List.cons_ne_nil _ _))
    | cons first others =>
      rw [blockOf_eq (some finish) earlier _ [] spelled]
      intro name named
      cases named

theorem fits_turn {builder : Builder τ} {below : List (Frame τ)} {earlier : List (Branch τ)}
    {marker next : Marker τ} {children : List (Child τ)} {rest : List τ} (fits : builder.Fits)
    (inside : builder.frames = .block earlier marker children :: below)
    (here : builder.rest = next.yield ++ rest) (sound : next.Formed .continuing)
    (bounded : below.length < maxNesting) :
    Fits { builder with
      rest
      frames := .block (⟨marker, children.reverse⟩ :: earlier) next [] :: below } := by
  have frame := fits.frames
  rw [inside, here] at frame
  obtain ⟨branches, -⟩ := frame
  change Branch.Sequence _ _ _ at branches
  -- The frame has its old tokens and those of the marker.
  have spelled : Frame.yield (.block (⟨marker, children.reverse⟩ :: earlier) next []) ++ rest =
      Frame.yield (.block earlier marker children) ++ builder.rest := by
    simp only [here, Frame.yield, List.reverse_cons, Branch.yields_append, Branch.yields,
      Branch.yield, List.reverse_nil, Child.yields, List.append_nil, List.append_assoc]
  have popped := fits_pop fits inside
  rw [← spelled] at popped
  refine fits_push popped rfl ?_
  refine Branch.sequence_concat.mpr ⟨?_, ?_⟩
  · simpa only [Branch.yield, List.reverse_nil, Child.yields, List.append_nil, List.reverse_cons]
      using branches
  · refine ⟨?_, bounded, trivial⟩
    cases earlier with
    | nil => exact sound
    | cons branch earlier =>
      simp only [List.reverse_cons, sigilAfter_concat]
      exact sound

/-- A fault that was recorded stays. -/
theorem faults_of_reaches {first last : Builder τ} (steps : machine.Reaches first last) :
    first.faults <:+ last.faults :=
  keeps_of_moves (fun later => first.faults <:+ later.faults)
    (fun _ _ move earlier => earlier.trans (faults_of_move move)) steps (List.suffix_refl _)

/-- What was recorded at any time is at the beginning of what is recorded at the end. -/
theorem prefix_faults {tokens : List τ} {state : Builder τ}
    (steps : machine.Reaches (.start tokens) state) :
    state.faults.reverse <+: (build tokens).faults := by
  have further := faults_of_reaches (machine.reaches_exhaust state)
  rw [← steps.exhaust_eq] at further
  exact List.reverse_prefix.mpr further

/-- Whether building goes on to its end without a fault. -/
def Clean (builder : Builder τ) : Prop := (machine.exhaust builder).faults = []

theorem Clean.faults {builder : Builder τ} (clean : builder.Clean) : builder.faults = [] := by
  have earlier := faults_of_reaches (machine.reaches_exhaust builder)
  rw [clean] at earlier
  exact List.suffix_nil.mp earlier

theorem Clean.step {before after : Builder τ} (clean : before.Clean)
    (taken : before.step = some after) : after.Clean := by
  rw [Clean, ← machine.exhaust_of_some before after taken]
  exact clean

/-- An element does not end with its closing tag, nor go on after another, where no closing tag
comes. -/
theorem endingOf_of_other {token : τ} (other : kind token ≠ .closeTag) (name : Text)
    (outer : List Text) (rest : List τ) :
    endingOf name outer (token :: rest) =
      if Element.mayEnd name then .silent else .missing := by
  simp only [endingOf, other, false_and, ↓reduceIte, ne_eq, not_false_eq_true, true_or]

theorem endingOf_ne_of_other {tokens rest : List τ} {token : τ} (here : tokens = token :: rest)
    (other : kind token ≠ .closeTag) (name : Text) (outer : List Text) :
    endingOf name outer tokens ≠ .closed ∧ ∀ tag, endingOf name outer tokens ≠ .stray tag := by
  rw [here, endingOf_of_other other]
  cases Element.mayEnd name with
  | true => simp only [↓reduceIte, ne_eq, reduceCtorEq, not_false_eq_true, implies_true, and_self]
  | false =>
    simp only [Bool.false_eq_true, ↓reduceIte, ne_eq, reduceCtorEq, not_false_eq_true,
      implies_true, and_self]

/-- At a token where nothing can go on a step that records no fault can only end an element. -/
theorem ends_of_stuck {before after : Builder τ} {token : τ} {rest : List τ}
    (does : Does before after) (clean : after.faults = []) (here : before.rest = token :: rest)
    (stuck : resumes (kind token) = false) :
    after.rest = token :: rest ∧ after.frames.length < before.frames.length := by
  have idle : ¬before.wantsChild = true := by
    intro wants
    obtain ⟨first, others, same, begins⟩ := begins_of_wantsChild before wants
    obtain ⟨rfl, -⟩ := List.cons.inj (here.symm.trans same)
    cases found : kind token <;> simp_all [resumes, beginsChild]
  have noClose : kind token ≠ .closeTag := by
    intro same
    rw [same] at stuck
    cases stuck
  have noBrace : kind? before.rest ≠ some .braceOpen := by
    intro same
    rw [here] at same
    rw [Option.some.inj same] at stuck
    cases stuck
  have unanswered := endingOf_ne_of_other here noClose
  cases does with
  | broken wants => exact absurd wants idle
  | leaf wants => exact absurd wants idle
  | openBlock wants => exact absurd wants idle
  | void reads => exact absurd reads.wants idle
  | flat reads => exact absurd reads.wants idle
  | openElement reads => exact absurd reads.wants idle
  | endClosed _ ending => exact absurd ending (unanswered _ _).1
  | endBroken _ ending => exact absurd ending (unanswered _ _).1
  | stray _ ending => exact absurd ending ((unanswered _ _).2 _)
  | strayBroken _ ending => exact absurd ending ((unanswered _ _).2 _)
  | endSilent ends =>
    refine ⟨?_, ?_⟩
    · rw [endElement, rest_add, here]
    · rw [endElement, frames_length_add, ends.inside]
      exact Nat.lt_succ_self _
  | endMissing =>
    rw [endElement, faults_add] at clean
    exact absurd clean (note_faults _ _ _)
  | turn _ read sound =>
    rw [read] at noBrace
    exact absurd (congrArg some sound.opening) noBrace
  | turnBroken _ follows => exact absurd follows.1 noBrace
  | endBlock _ read sound =>
    rw [read] at noBrace
    exact absurd (congrArg some sound.opening) noBrace
  | endBlockBroken _ follows => exact absurd follows.1 noBrace
  | endBlockMissing =>
    rw [endBlock, faults_add] at clean
    exact absurd clean (note_faults _ _ _)
  | dropUnexpected => exact absurd clean (note_faults _ _ _)

/-- A token at which nothing can go on ends in a fault: what is open may end before it, but nothing
takes it. -/
theorem faults_of_stuck (builder : Builder τ) (token : τ) (rest : List τ)
    (here : builder.rest = token :: rest) (stuck : resumes (kind token) = false) :
    ¬builder.Clean := by
  intro clean
  cases taken : builder.step with
  | none =>
    rw [(stopped_of_step taken).1] at here
    cases here
  | some after =>
    have next := clean.step taken
    obtain ⟨same, fewer⟩ := ends_of_stuck (does_of_step taken) next.faults here stuck
    exact faults_of_stuck after token rest same stuck next
termination_by builder.frames.length

/-- Whether the next token is one at which building can go on, or there is none. -/
def GoesOn (tokens : List τ) : Prop :=
  ∀ token rest, tokens = token :: rest → resumes (kind token) = true

theorem Clean.goesOn {builder : Builder τ} (clean : builder.Clean) : GoesOn builder.rest := by
  intro token rest here
  cases goes : resumes (kind token) with
  | true => rfl
  | false => exact absurd clean (faults_of_stuck builder token rest here goes)

/-- A tag that is read next may stand where it is read. -/
theorem spares_of_wants {builder : Builder τ} {token : τ} {more : List τ}
    (wants : builder.wantsChild = true) (here : builder.rest = token :: more)
    (opener : kind token = .openTag) : Spares builder.frames (tagName token) := by
  intro stops found
  cases inside : builder.frames with
  | nil => rw [inside] at found; cases found
  | cons frame below =>
    cases frame with
    | element head angle children =>
      rw [inside] at found
      have stopped : Element.stops? (nameOf head) = some stops := found
      simpa only [wantsChild, inside, here, startsChild, opener, stopped, Option.getD_some,
        Bool.not_eq_true', List.contains_eq_mem, decide_eq_false_iff_not] using wants
    | block earlier marker children => rw [inside] at found; cases found

/-- So may a child that is read at once. Only a tag that closes itself has a name among those. -/
theorem spares_of_leaf {builder : Builder τ} {child : Child τ} {rest : List τ}
    (wants : builder.wantsChild = true) (here : builder.rest = child.yield ++ rest)
    (whole : child.isLeaf = true) (formed : child.Formed .whole 0 rest) :
    ∀ name ∈ child.tag?, Spares builder.frames name := by
  intro name named
  cases child with
  | selfClosed head slash angle =>
    cases named
    exact spares_of_wants wants here formed.1.opening
  | void | element | block => cases whole
  | text | comment | braced | single | raw => cases named

/-- Where an element that may leave out its closing tag ends without one, and building goes on, the
element may end. -/
theorem endsBefore_of_silent {name : Text} {outer stops : List Text} {tokens : List τ}
    (idle : startsChild (some stops) tokens = false)
    (silent : endingOf name outer tokens = .silent) (goes : GoesOn tokens) :
    EndsBefore name stops tokens := by
  cases tokens with
  | nil => trivial
  | cons token rest =>
    have goes := goes token rest rfl
    unfold resumes at goes
    split at goes
    · next found => simp only [startsChild, found, Bool.true_eq_false] at idle
    · next found => simp only [startsChild, found, Bool.true_eq_false] at idle
    · next found =>
      refine .inr (.inl ⟨found, ?_⟩)
      simpa only [startsChild, found, Option.getD_some, Bool.not_eq_false', List.contains_eq_mem,
        decide_eq_true_eq] using idle
    · next found =>
      refine .inl ⟨found, fun same => ?_⟩
      simp only [endingOf, found, same, and_self, ↓reduceIte, reduceCtorEq] at silent
    · next found => simp only [startsChild, found, Bool.true_eq_false] at idle
    · next found =>
      refine .inr (.inr ⟨found, ?_⟩)
      simp only [startsChild, found] at idle
      by_cases continues : kind? rest = some (.block .continuing)
      · exact .inl continues
      · refine .inr ?_
        simpa [continues] using idle
    · cases goes

theorem mayEnd_of_silent {name : Text} {outer : List Text} {tokens : List τ}
    (silent : endingOf name outer tokens = .silent) : Element.mayEnd name = true := by
  by_contra must
  unfold endingOf at silent
  split at silent
  · rw [if_neg must] at silent
    cases silent
  · simp only [must, ↓reduceIte] at silent
    split at silent
    · cases silent
    · split at silent <;> cases silent

/-- An element ends with its closing tag where that stands. -/
theorem exists_of_closed {name : Text} {outer : List Text} {tokens : List τ}
    (closed : endingOf name outer tokens = .closed) :
    ∃ token rest, tokens = token :: rest ∧ kind token = .closeTag ∧ tagName token = name := by
  unfold endingOf at closed
  split at closed
  · split at closed <;> cases closed
  · next token rest =>
    split at closed
    · next own => exact ⟨token, rest, rfl, own⟩
    · split at closed
      · cases closed
      · split at closed <;> cases closed

theorem tagName_of_closed {name : Text} {outer : List Text} {token : τ} {rest : List τ}
    (closed : endingOf name outer (token :: rest) = .closed) : tagName token = name := by
  obtain ⟨_, _, same, -, named⟩ := exists_of_closed closed
  cases same
  exact named

omit [Terminal τ] in
/-- Where the depth of some tokens was recorded without a fault, nothing was recorded. -/
theorem noteDepth_of_clean {builder : Builder τ} {depth : Nat} {first last : τ}
    (clean : (builder.noteDepth depth first last).faults = []) :
    depth < maxNesting ∧ builder.noteDepth depth first last = builder := by
  unfold noteDepth at clean ⊢
  by_cases deep : maxNesting ≤ depth
  · rw [if_pos deep] at clean
    exact absurd clean (note_faults _ _ _)
  · rw [if_neg deep]
    exact ⟨Nat.lt_of_not_le deep, rfl⟩

theorem noteWrongEnd_of_clean {builder : Builder τ} {opened : Text} {name : τ}
    (clean : (builder.noteWrongEnd opened name).faults = []) :
    opened = blockName name ∧ builder.noteWrongEnd opened name = builder := by
  unfold noteWrongEnd at clean ⊢
  by_cases same : opened = blockName name
  · rw [if_pos same]
    exact ⟨same, rfl⟩
  · rw [if_neg same] at clean
    exact absurd clean (note_faults _ _ _)

/-- What a step does without a fault keeps what was read well-formed. -/
theorem fits_of_does {before after : Builder τ} (fits : before.Fits) (goes : GoesOn before.rest)
    (does : Does before after) (clean : after.faults = []) : after.Fits := by
  cases does with
  | broken | stray | strayBroken | dropUnexpected => exact absurd clean (note_faults _ _ _)
  | leaf wants here whole formed =>
    exact fits_add fits here (formed _) (spares_of_leaf wants here whole (formed 0))
  | void reads empty =>
    refine fits_add fits ?_ ⟨reads.sound, reads.closes, empty⟩ ?_
    · rw [reads.here, Child.yield, List.append_assoc, List.singleton_append]
    · intro name named
      cases named
      exact spares_of_wants reads.wants reads.here reads.sound.opening
  | flat =>
    rw [faults_add] at clean
    exact absurd clean (note_faults _ _ _)
  | @openElement head angle rest reads holds roomy =>
    have read : before.rest = Frame.yield (.element head angle []) ++ rest := by
      simpa only [Frame.yield, List.reverse_nil, Child.yields, List.append_assoc,
        List.singleton_append] using reads.here
    have spared := spares_of_wants reads.wants reads.here reads.sound.opening
    exact fits_push fits read
      ⟨reads.sound, reads.closes, holds, roomy, spared, List.forall_mem_nil _, trivial⟩
  | @openBlock marker rest _ here sound =>
    obtain ⟨roomy, same⟩ := noteDepth_of_clean clean
    have read : before.rest = Frame.yield (.block [] marker []) ++ rest := by
      simpa only [Frame.yield, List.reverse_nil, Child.yields, Branch.yields, List.append_nil,
        List.nil_append] using here
    have opened : Fits { before with rest, frames := .block [] marker [] :: before.frames } :=
      fits_push fits read ⟨⟨sound, roomy, trivial⟩, trivial⟩
    rw [openBlock, same]
    exact opened
  | endClosed ends ending here sound =>
    refine fits_endElement fits ends.inside ?_ ⟨sound, ?_⟩
    · simpa only [Option.toList_some, List.flatMap_singleton] using here
    · rw [here, CloseTag.yield_append] at ending
      exact tagName_of_closed ending
  | endSilent ends ending =>
    obtain ⟨stops, found⟩ := Option.isSome_iff_exists.mp (mayEnd_of_silent ending)
    refine fits_endElement fits ends.inside rfl ⟨stops, found, ?_⟩
    refine endsBefore_of_silent ?_ ending goes
    simpa only [wantsChild, ends.inside, found] using ends.idle
  | endBroken | endMissing =>
    rw [endElement, faults_add] at clean
    exact absurd clean (note_faults _ _ _)
  | turn ends here sound =>
    obtain ⟨roomy, same⟩ := noteDepth_of_clean clean
    rw [same]
    exact fits_turn fits ends.inside here sound roomy
  | endBlock ends here sound =>
    rw [Builder.endBlock, faults_add] at clean
    obtain ⟨named, same⟩ := noteWrongEnd_of_clean clean
    rw [same]
    exact fits_endBlock fits ends.inside here sound named
  | turnBroken | endBlockBroken | endBlockMissing =>
    rw [endBlock, faults_add] at clean
    exact absurd clean (note_faults _ _ _)

/-- In a run without faults a step keeps what was read well-formed. -/
theorem fits_of_step {before after : Builder τ} (fits : before.Fits) (clean : before.Clean)
    (taken : before.step = some after) : after.Fits :=
  fits_of_does fits clean.goesOn (does_of_step taken) (clean.step taken).faults

end Builder

/-- A tree that was built without faults is well-formed. -/
theorem wellFormed_of_clean {tokens : List τ} (clean : (build tokens).faults = []) :
    WellFormed .whole (build tokens).children := by
  have start : (Builder.start tokens).Fits ∧ (Builder.start tokens).Clean :=
    ⟨⟨trivial, trivial⟩, List.reverse_eq_nil_iff.mp clean⟩
  obtain ⟨fits, -⟩ := (Builder.machine.reaches_exhaust (.start tokens)).keeps
    (fun state => state.Fits ∧ state.Clean)
    (fun _ _ holds taken => ⟨Builder.fits_of_step holds.1 holds.2 taken, holds.2.step taken⟩) start
  obtain ⟨rest, frames⟩ := Builder.stopped_of_step
    (Builder.machine.step_exhaust (Builder.start tokens))
  have children := fits.children
  rwa [rest, frames] at children

end Template.Concrete
