import Template.Proofs.Concrete.Acceptance
import Template.Proofs.Concrete.Around
import Template.Proofs.Concrete.Blame

set_option autoImplicit false

namespace Template.Concrete

open Terminal (kind tagName blockName)
open Rule

variable {τ : Type} [Terminal τ]

namespace Builder

/-- A closing tag begins no child. -/
theorem startsChild_of_closeTag {token : τ} (closer : kind token = .closeTag)
    (stops : Option (List Text)) (rest : List τ) :
    startsChild stops (token :: rest) = false := by
  simp only [startsChild, closer]

/-- What is recorded where a block ends at a token without its end. -/
def missingEnd (earlier : List (Branch τ)) (marker : Marker τ) (token : τ) : Fault τ :=
  ⟨.missingEnd (blockName (firstMarker earlier marker).name) (some token), .before token⟩

/-- A block does not go on at a closing tag: it ends there without its end, and the tag is left. -/
theorem reaches_cut (builder : Builder τ) {below : List (Frame τ)} {earlier : List (Branch τ)}
    {marker : Marker τ} {children : List (Child τ)} {token : τ} {rest : List τ}
    (inside : builder.frames = .block earlier marker children :: below)
    (here : builder.rest = token :: rest) (closer : kind token = .closeTag) :
    ∃ after : Builder τ, machine.Reaches builder after ∧ after.rest = token :: rest ∧
      openNames after.frames = openNames below ∧
      blockOf none earlier ⟨marker, children.reverse⟩ [] ∈ after.finished ∧
      after.faults = missingEnd earlier marker token :: builder.faults := by
  let noted := builder.note
    (.missingEnd (blockName (firstMarker earlier marker).name) (some token)) (.before token)
  have ended : builder.finishBranch below earlier marker children =
      noted.endBlock below earlier marker children none := by
    simp only [finishBranch, here, kind?_cons, closer, List.head?_cons, Site.at, noted]
  have idle : startsChild none builder.rest = false := by
    rw [here]
    exact startsChild_of_closeTag closer none rest
  have steps := reaches_finishBranch inside idle
  rw [ended] at steps
  have complete := finished_endBlock noted inside none
  exact ⟨_, steps, (rest_add _ _).trans here, openNames_add _ _,
    complete.symm.subset List.mem_cons_self, faults_add _ _⟩

/-- Where a closing tag answers none of the open elements, one more fault is recorded. -/
theorem exists_fault_of_stray {token : τ} {rest : List τ} (closer : kind token = .closeTag) :
    ∀ (count : Nat) (builder : Builder τ), builder.frames.length = count →
      builder.rest = token :: rest → tagName token ∉ openNames builder.frames →
        ∃ later fault, machine.Reaches builder later ∧ later.faults = fault :: builder.faults := by
  intro count
  -- By the number of open frames: an element that may end at the tag leaves one frame less.
  induction count with
  | zero =>
    intro builder empty here stray
    have outside := List.length_eq_zero_iff.mp empty
    have wants : builder.wantsChild = false := by
      rw [wantsChild, outside, here]
      exact startsChild_of_closeTag closer none rest
    exact ⟨builder.dropUnexpected token rest, _,
      .single (by simp only [machine, step, wants, Bool.false_eq_true, ↓reduceIte, outside, here]),
      rfl⟩
  | succ count ih =>
    intro builder open_ here stray
    obtain ⟨frame, below, inside⟩ := List.exists_cons_of_length_eq_add_one open_
    rw [inside, List.length_cons, Nat.add_right_cancel_iff] at open_
    cases frame with
    | block earlier marker children =>
      obtain ⟨after, steps, -, -, -, noted⟩ := reaches_cut builder inside here closer
      exact ⟨after, _, steps, noted⟩
    | element head angle children =>
      rw [inside] at stray
      obtain ⟨other, outer⟩ := not_or.mp (mt List.mem_cons.mpr stray)
      have idle : startsChild (Element.stops? (nameOf head)) builder.rest = false := by
        rw [here]
        exact startsChild_of_closeTag closer _ rest
      have finished := reaches_finishContent inside idle
      cases ending : endingOf (nameOf head) (openNames below) builder.rest with
      | closed => exact absurd (tagName_of_closed (here ▸ ending)) other
      | silent =>
        simp only [finishContent, ending] at finished
        obtain ⟨later, fault, steps, noted⟩ := ih
          (builder.endElement below head angle children none)
          ((frames_length_add _ _).trans open_) ((rest_add _ _).trans here)
          (by rw [endElement, openNames_add]; exact outer)
        exact ⟨later, fault, finished.trans steps, noted.trans (by rw [endElement, faults_add])⟩
      | missing =>
        simp only [finishContent, ending] at finished
        exact ⟨_, _, finished, by rw [endElement, faults_add]; rfl⟩
      | stray token =>
        simp only [finishContent, ending, dropClose] at finished
        split at finished
        · exact ⟨_, _, finished, rfl⟩
        · exact ⟨_, _, finished, rfl⟩

end Builder

/-- A block without its end lacks something. -/
theorem lacks_blockOf (earlier : List (Branch τ)) (marker : Marker τ) (content : List (Child τ)) :
    (Builder.blockOf none earlier ⟨marker, content⟩ []).lacks = true := by
  obtain ⟨first, others, -, whole, -⟩ := Builder.exists_blockOf earlier marker content
  rw [whole none]
  rfl

/-- What ends without a closing tag where a content was read up to ends before a closing tag of
another name too. -/
theorem stillFor_closeTag {names : List Text} {close : CloseTag τ} (sound : close.Formed)
    (stray : tagName close.opening ∉ names) (left rest : List τ) :
    StillFor names left (close.yield ++ rest) := by
  intro name among stops _
  rw [CloseTag.yield_append]
  refine .inl ⟨sound.opening, ?_⟩
  rintro rfl
  exact stray among

/-- A closing tag that answers no open element, put between the children of a branch of a tree
without faults, ends the block: the block has neither its end nor the branches after it, so the
tree is not the one without the tag. That the end is missing is recorded at the tag, and something
else after that. -/
theorem build_strayClose {tokens : List τ} {around outer : Around τ}
    {before after left right : List (Child τ)} {earlier later : List (Branch τ)}
    {marker : Marker τ} {finish : Option (BlockEnd τ)} {close : CloseTag τ}
    (inside : around = .branch outer before earlier marker later finish after)
    (accepted : build tokens = ⟨around.fill (left ++ right), []⟩) (sound : close.Formed)
    (stray : tagName close.opening ∉ around.names ++ Child.pendings left) :
    let built := build (around.inserting left close.yield right)
    let cut := Builder.blockOf none earlier ⟨marker, left⟩ []
    tokens = around.inserting left [] right ∧ cut ∈ Child.families built.children ∧
      built.children ≠ around.fill (left ++ right) ∧
      ∃ fault more, built.faults =
        Builder.missingEnd earlier marker close.opening :: fault :: more := by
  intro built cut
  obtain ⟨yields, formed⟩ := build_eq_iff.mp accepted
  obtain ⟨outside, ended⟩ := not_or.mp (mt List.mem_append.mpr stray)
  have reached : Builder.machine.Reaches (.start (around.inserting left close.yield right)) _ :=
    Around.reaches_place formed (stillFor_closeTag sound ended _ _)
  have frames : around.frames left = .block earlier marker left.reverse :: outer.frames before :=
    congrArg (Around.frames · left) inside
  have outerNames : around.names = outer.names := by
    rw [inside]
    rfl
  -- Building comes to the tag as it would to the child after it, and there the block ends.
  obtain ⟨state, cutOff, here, names, complete, missed⟩ := Builder.reaches_cut
    (around.standing left (close.yield ++ (Child.yields right ++ around.back))) frames rfl
    sound.opening
  have steps := reached.trans cutOff
  rw [List.reverse_reverse] at complete
  have present : cut ∈ Child.families built.children := finished_subset steps complete
  -- The tag is still there, and the elements around it are those around the block.
  obtain ⟨later, fault, further, noted⟩ := Builder.exists_fault_of_stray sound.opening _ state rfl
    here (by rw [names, outer.openNames_frames, ← outerNames]; exact outside)
  obtain ⟨more, recorded⟩ := Builder.prefix_faults (steps.trans further)
  refine ⟨yields.symm.trans (Around.inserting_nil _ left right).symm, present, ?_, fault, more, ?_⟩
  · intro same
    rw [same] at present
    have clean : (build tokens).faults = [] := by rw [accepted]
    have whole := lacks_of_clean clean cut (by rw [accepted]; exact present)
    rw [lacks_blockOf] at whole
    cases whole
  · rw [← recorded, noted, missed]
    rfl

section Page

def divHead : Head Token := ⟨.place .openTag ['<', 'd', 'i', 'v'] ⟨1, 1, 0⟩, [], none⟩

def ifMarker : Marker Token :=
  ⟨.place .braceOpen ['\x7b'] ⟨1, 6, 5⟩, .place (.block .opening) ['#', 'i', 'f'] ⟨1, 7, 6⟩,
    some (.place .blank [' '] ⟨1, 10, 9⟩), some (.place .expression ['x'] ⟨1, 11, 10⟩),
    .place .braceClose ['\x7d'] ⟨1, 12, 11⟩⟩

def ifEnd : BlockEnd Token :=
  ⟨.place .braceOpen ['\x7b'] ⟨1, 14, 13⟩, .place (.block .closing) ['/', 'i', 'f'] ⟨1, 15, 14⟩,
    none, .place .braceClose ['\x7d'] ⟨1, 18, 17⟩⟩

def divClose : CloseTag Token :=
  ⟨.place .closeTag ['<', '/', 'd', 'i', 'v'] ⟨1, 19, 18⟩, none, .place .angle ['>'] ⟨1, 24, 23⟩⟩

/-- The inside of the branch in `<div>{#if x}…{/if}</div>`. -/
def ifPage : Around Token :=
  .branch (.element .root [] divHead (.place .angle ['>'] ⟨1, 5, 4⟩) (some divClose) []) [] []
    ifMarker [] (some ifEnd) []

def ifText : Child Token := .text (.place .text ['a'] ⟨1, 13, 12⟩)

def boldClose : CloseTag Token :=
  ⟨.place .closeTag ['<', '/', 'b'] ⟨1, 14, 13⟩, none, .place .angle ['>'] ⟨1, 17, 16⟩⟩

theorem ifPage_formed : WellFormed .whole (ifPage.fill [ifText]) := by
  have bounded : 0 < maxNesting ∧ 1 < maxNesting := by decide
  have holds : Element.isVoid (Builder.nameOf divHead) = false := by decide +kernel
  have marker : ifMarker.Formed .opening :=
    ⟨rfl, rfl, (ifAny_some _ _).mpr rfl, (ifAny_some _ _).mpr rfl, rfl⟩
  have finish : ifEnd.Formed := ⟨rfl, rfl, ifAny_none _, rfl⟩
  have close : divClose.Formed := ⟨rfl, ifAny_none _, rfl⟩
  have block : Child.Formed .whole 1 (.block ⟨ifMarker, [ifText]⟩ [] (some ifEnd))
      divClose.yield := ⟨⟨marker, bounded.2, rfl, trivial⟩, trivial, ifEnd, rfl, finish, rfl⟩
  refine ⟨⟨⟨rfl, trivial, ifAny_none _⟩, rfl, holds, bounded.1, ?_, ⟨block, trivial⟩, close, rfl⟩,
    trivial⟩
  intro child among name named
  cases List.mem_singleton.mp among
  cases named

/-- `<div>{#if x}a</b>{/if}</div>` -/
theorem build_strayClose_ifPage :
    let built := build (ifPage.inserting [ifText] boldClose.yield [])
    Child.block ⟨ifMarker, [ifText]⟩ [] none ∈ Child.families built.children ∧
      built.children ≠ ifPage.fill [ifText] ∧
      ∃ fault more, built.faults =
        Builder.missingEnd [] ifMarker boldClose.opening :: fault :: more := by
  have accepted : build (Child.yields (ifPage.fill ([ifText] ++ []))) =
      ⟨ifPage.fill ([ifText] ++ []), []⟩ := build_of_wellFormed ifPage_formed
  have sound : boldClose.Formed := ⟨rfl, ifAny_none _, rfl⟩
  have stray : tagName boldClose.opening ∉ ifPage.names ++ Child.pendings [ifText] := by
    decide +kernel
  exact (build_strayClose rfl accepted sound stray).2

end Page

end Template.Concrete
