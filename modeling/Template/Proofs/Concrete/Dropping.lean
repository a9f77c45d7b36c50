import Template.Problem
import Template.Proofs.Concrete.Strays

set_option autoImplicit false

namespace Template.Concrete

open Terminal (kind tagName blockName)
open Rule

variable {τ : Type}

namespace Builder

def onto (builder : Builder τ) (older : List (Fault τ)) : Builder τ :=
  { builder with faults := builder.faults ++ older }

theorem add_onto (builder : Builder τ) (older : List (Fault τ)) (child : Child τ) :
    (builder.onto older).add child = (builder.add child).onto older := by
  obtain ⟨rest, frames, children, faults⟩ := builder
  cases frames with
  | nil => rfl
  | cons frame below => rfl

theorem note_onto (builder : Builder τ) (older : List (Fault τ)) (cause : Cause τ)
    (site : Site τ) : (builder.onto older).note cause site = (builder.note cause site).onto older :=
  rfl

theorem noteDepth_onto (builder : Builder τ) (older : List (Fault τ)) (depth : Nat)
    (first last : τ) :
    (builder.onto older).noteDepth depth first last =
      (builder.noteDepth depth first last).onto older := by
  unfold noteDepth
  split
  · exact note_onto builder older .tooDeep (.across first last)
  · rfl

theorem openBlock_onto (builder : Builder τ) (older : List (Fault τ)) (marker : Marker τ) :
    (builder.onto older).openBlock marker = (builder.openBlock marker).onto older :=
  noteDepth_onto { builder with frames := .block [] marker [] :: builder.frames } older _ _ _

theorem endElement_onto (builder : Builder τ) (older : List (Fault τ)) (below : List (Frame τ))
    (head : Head τ) (angle : τ) (children : List (Child τ)) (close : Option (CloseTag τ)) :
    (builder.onto older).endElement below head angle children close =
      (builder.endElement below head angle children close).onto older :=
  add_onto { builder with frames := below } older _

theorem endBlock_onto (builder : Builder τ) (older : List (Fault τ)) (below : List (Frame τ))
    (earlier : List (Branch τ)) (marker : Marker τ) (children : List (Child τ))
    (finish : Option (BlockEnd τ)) :
    (builder.onto older).endBlock below earlier marker children finish =
      (builder.endBlock below earlier marker children finish).onto older :=
  add_onto { builder with frames := below } older _

variable [Terminal τ]

theorem noteWrongEnd_onto (builder : Builder τ) (older : List (Fault τ)) (opened : Text)
    (name : τ) :
    (builder.onto older).noteWrongEnd opened name =
      (builder.noteWrongEnd opened name).onto older := by
  unfold noteWrongEnd
  split
  · rfl
  · exact note_onto builder older _ _

theorem openElement_onto (builder : Builder τ) (older : List (Fault τ)) (head : Head τ)
    (angle : τ) :
    (builder.onto older).openElement head angle = (builder.openElement head angle).onto older := by
  unfold openElement
  by_cases empty : Element.isVoid (nameOf head) = true
  · rw [if_pos empty, if_pos empty]
    exact add_onto builder older _
  · rw [if_neg empty, if_neg empty]
    by_cases deep : maxNesting ≤ builder.frames.length
    · have same : maxNesting ≤ (builder.onto older).frames.length := deep
      rw [if_pos deep, if_pos same, note_onto]
      exact add_onto _ older _
    · have same : ¬maxNesting ≤ (builder.onto older).frames.length := deep
      rw [if_neg deep, if_neg same]
      rfl

theorem readChild_onto (builder : Builder τ) (older : List (Fault τ)) :
    (builder.onto older).readChild = builder.readChild.onto older := by
  have rest : (builder.onto older).rest = builder.rest := rfl
  unfold readChild
  rw [rest]
  cases piece builder.rest with
  | error mismatch => rfl
  | ok found =>
    obtain ⟨piece, left⟩ := found
    cases piece with
    | whole child => exact add_onto { builder with rest := left } older child
    | element head angle => exact openElement_onto { builder with rest := left } older head angle
    | branch marker => exact openBlock_onto { builder with rest := left } older marker

theorem finishContent_onto (builder : Builder τ) (older : List (Fault τ))
    (below : List (Frame τ)) (head : Head τ) (angle : τ) (children : List (Child τ)) :
    (builder.onto older).finishContent below head angle children =
      (builder.finishContent below head angle children).onto older := by
  have rest : (builder.onto older).rest = builder.rest := rfl
  unfold finishContent
  rw [rest]
  cases endingOf (nameOf head) (openNames below) builder.rest with
  | closed =>
    dsimp only
    cases closeTag builder.rest with
    | error mismatch => exact endElement_onto (builder.recover mismatch) older _ _ _ _ _
    | ok found => exact endElement_onto { builder with rest := found.2 } older _ _ _ _ _
  | silent => exact endElement_onto builder older _ _ _ _ _
  | missing => exact endElement_onto (builder.noteMissingClose (nameOf head)) older _ _ _ _ _
  | stray token =>
    dsimp only
    unfold dropClose
    rw [rest]
    cases closeTag builder.rest with
    | error mismatch => rfl
    | ok found => rfl

theorem finishBranch_onto (builder : Builder τ) (older : List (Fault τ))
    (below : List (Frame τ)) (earlier : List (Branch τ)) (marker : Marker τ)
    (children : List (Child τ)) :
    (builder.onto older).finishBranch below earlier marker children =
      (builder.finishBranch below earlier marker children).onto older := by
  have rest : (builder.onto older).rest = builder.rest := rfl
  unfold finishBranch
  simp only [rest]
  split
  · cases Concrete.marker .continuing builder.rest with
    | error mismatch => exact endBlock_onto (builder.recover mismatch) older _ _ _ _ _
    | ok found =>
      exact noteDepth_onto { builder with
        rest := found.2
        frames := .block (⟨marker, children.reverse⟩ :: earlier) found.1 [] :: below } older _ _ _
  · cases blockEnd builder.rest with
    | error mismatch => exact endBlock_onto (builder.recover mismatch) older _ _ _ _ _
    | ok found =>
      have noted := noteWrongEnd_onto { builder with rest := found.2 } older
        (blockName (firstMarker earlier marker).name) found.1.name
      have ended := endBlock_onto (noteWrongEnd { builder with rest := found.2 }
        (blockName (firstMarker earlier marker).name) found.1.name) older below earlier marker
        children (some found.1)
      rw [← noted] at ended
      exact ended
  · exact endBlock_onto (builder.note _ _) older _ _ _ _ _

/-- A step does not look at the faults recorded before it. -/
theorem step_onto (builder : Builder τ) (older : List (Fault τ)) :
    (builder.onto older).step = builder.step.map (·.onto older) := by
  have wants : (builder.onto older).wantsChild = builder.wantsChild := rfl
  have frames : (builder.onto older).frames = builder.frames := rfl
  have rest : (builder.onto older).rest = builder.rest := rfl
  unfold step
  rw [wants, frames, rest]
  by_cases wanted : builder.wantsChild = true
  · rw [if_pos wanted, if_pos wanted, readChild_onto, Option.map_some]
  · rw [if_neg wanted, if_neg wanted]
    split
    · rw [finishContent_onto, Option.map_some]
    · rw [finishBranch_onto, Option.map_some]
    · cases builder.rest with
      | nil => rfl
      | cons token left => rfl

/-- The same is built onto faults recorded before. -/
theorem exhaust_onto (builder : Builder τ) (older : List (Fault τ)) :
    machine.exhaust (builder.onto older) = (machine.exhaust builder).onto older :=
  machine.exhaust_map (f := (·.onto older)) (fun _ => True) (fun _ _ _ _ => trivial)
    (fun state _ => state.step_onto older) builder trivial

/-- Building without faults onto faults recorded before. -/
theorem result_onto {builder : Builder τ} (clean : builder.Clean) (older : List (Fault τ)) :
    (machine.exhaust (builder.onto older)).result =
      ⟨(machine.exhaust builder).result.children, older.reverse⟩ := by
  have own : (machine.exhaust builder).faults = [] := clean
  rw [exhaust_onto]
  simp only [onto, result, own, List.nil_append]

/-- What does not let building go on is dropped, up to where it goes on. -/
theorem resumed_append {skipped rest : List τ}
    (inert : ∀ token ∈ skipped, resumes (kind token) = false) (goes : GoesOn rest) :
    unread (skipped ++ rest) = skipped ∧ resumed (skipped ++ rest) = rest := by
  have passed : ∀ token ∈ skipped, (!resumes (kind token)) = true := by
    intro token member
    rw [inert token member]
    rfl
  have stops : unread rest = [] ∧ resumed rest = rest := by
    cases rest with
    | nil => exact ⟨rfl, rfl⟩
    | cons token rest =>
      have next := goes token rest rfl
      simp only [unread, resumed, List.takeWhile_cons, List.dropWhile_cons, next, Bool.not_true,
        Bool.false_eq_true, ↓reduceIte, and_self]
  constructor
  · rw [unread, List.takeWhile_append_of_pos passed]
    exact (congrArg (skipped ++ ·) stops.1).trans (List.append_nil skipped)
  · rw [resumed, List.dropWhile_append_of_pos passed]
    exact stops.2

/-- Outside all elements a closing tag is dropped with what belongs to it. -/
theorem reaches_dropUnexpected {builder : Builder τ} {close : CloseTag τ} {rest : List τ}
    (outside : builder.frames = []) (here : builder.rest = close.yield ++ rest)
    (sound : close.Formed) (goes : GoesOn rest) :
    machine.Reaches builder ({ builder with rest }.note (.unexpected close.opening)
      (.across close.opening close.angle)) := by
  rw [CloseTag.yield_append] at here
  have idle : builder.wantsChild = false := by
    rw [wantsChild, outside, here]
    exact startsChild_of_closeTag sound.opening none _
  have inert : ∀ token ∈ close.blank.toList ++ [close.angle], resumes (kind token) = false := by
    intro token member
    rcases List.mem_append.mp member with blank | angle
    · rw [sound.blank token (Option.mem_toList.mp blank)]
      rfl
    · rw [List.mem_singleton.mp angle, sound.angle]
      rfl
  obtain ⟨skipped, left⟩ := resumed_append inert goes
  rw [List.append_assoc, List.singleton_append] at skipped left
  have last : (close.blank.toList ++ [close.angle]).getLastD close.opening = close.angle := by
    rw [List.getLastD_eq_getLast?, List.getLast?_concat, Option.getD_some]
  have dropped : builder.dropUnexpected close.opening (close.blank.toList ++ close.angle :: rest) =
      { builder with rest }.note (.unexpected close.opening)
        (.across close.opening close.angle) := by
    rw [dropUnexpected, skipped, left, Site.dropped, last]
  rw [← dropped]
  exact .single (by simp only [machine, step, idle, Bool.false_eq_true, ↓reduceIte, outside, here])

/-- In an element that needs its closing tag, one that answers no open element is dropped. -/
theorem reaches_dropClose {builder : Builder τ} {below : List (Frame τ)} {head : Head τ}
    {angle : τ} {children : List (Child τ)} {close : CloseTag τ} {rest : List τ}
    (inside : builder.frames = .element head angle children :: below)
    (needs : Element.stops? (nameOf head) = none) (here : builder.rest = close.yield ++ rest)
    (sound : close.Formed) (stray : tagName close.opening ∉ openNames builder.frames) :
    machine.Reaches builder ({ builder with rest }.note
      (.strayClose (tagName close.opening) (nameOf head)) (.across close.opening close.angle)) := by
  have read : closeTag builder.rest = .ok (close, rest) := closeTag_eq_ok.mpr ⟨here, sound⟩
  rw [CloseTag.yield_append] at here
  rw [inside] at stray
  obtain ⟨other, outer⟩ := not_or.mp (mt List.mem_cons.mpr stray)
  have absent : (openNames below).contains (tagName close.opening) = false :=
    Bool.eq_false_iff.mpr (mt List.contains_iff_mem.mp outer)
  have ending : endingOf (nameOf head) (openNames below) builder.rest = .stray close.opening := by
    rw [here]
    simp only [endingOf, sound.opening, other, and_false, ↓reduceIte, Element.mayEnd, needs,
      Option.isSome_none, Bool.false_eq_true, ne_eq, not_true_eq_false, absent, or_self]
  have idle : startsChild (Element.stops? (nameOf head)) builder.rest = false := by
    rw [here]
    exact startsChild_of_closeTag sound.opening _ _
  have finished := reaches_finishContent inside idle
  simpa only [finishContent, ending, dropClose, read] using finished

end Builder

namespace Around

/-- The contents in which a closing tag that answers no open element is dropped: that of the whole
tree, and those of elements that need their closing tag. -/
def Drops [Terminal τ] : Around τ → Prop
  | root => True
  | element _ _ head .. => Element.stops? (Builder.nameOf head) = none
  | branch .. => False

def strayFault [Terminal τ] (close : CloseTag τ) : Around τ → Fault τ
  | element _ _ head .. =>
    ⟨.strayClose (tagName close.opening) (Builder.nameOf head),
      .across close.opening close.angle⟩
  | _ => ⟨.unexpected close.opening, .across close.opening close.angle⟩

variable [Terminal τ]

theorem site_strayFault (around : Around τ) (close : CloseTag τ) :
    (around.strayFault close).site = .across close.opening close.angle := by
  cases around with
  | root => rfl
  | element => rfl
  | branch => rfl

theorem name_strayFault {around : Around τ} (drops : around.Drops) (close : CloseTag τ) :
    (around.strayFault close).cause.name =
      (if around.depth = 0 then "UnexpectedToken" else "UnexpectedCloseTag").toList := by
  cases around with
  | root => rfl
  | element => rfl
  | branch => exact drops.elim

/-- At a place where closing tags are dropped, building passes one in a step. -/
theorem reaches_dropped {around : Around τ} {close : CloseTag τ} (drops : around.Drops)
    (sound : close.Formed) (stray : tagName close.opening ∉ around.names)
    (children : List (Child τ)) {rest : List τ} (goes : Builder.GoesOn rest) :
    Builder.machine.Reaches (around.standing children (close.yield ++ rest))
      ((around.standing children rest).onto [around.strayFault close]) := by
  cases around with
  | root => exact Builder.reaches_dropUnexpected rfl rfl sound goes
  | element outer before head angle ending after =>
    have other : tagName close.opening ∉
        Builder.openNames ((element outer before head angle ending after).frames children) := by
      rw [openNames_frames]
      exact stray
    exact Builder.reaches_dropClose rfl drops rfl sound other
  | branch => exact drops.elim

end Around

variable [Terminal τ]

/-- A closing tag that answers no open element, put between the children of the whole tree or of an
element that needs its closing tag, is dropped: the tree is the one without the tag, and there is
one fault, at the tag. -/
theorem build_dropsClose {tokens : List τ} {around : Around τ} {left right : List (Child τ)}
    {close : CloseTag τ} (drops : around.Drops)
    (accepted : build tokens = ⟨around.fill (left ++ right), []⟩) (sound : close.Formed)
    (stray : tagName close.opening ∉ around.names ++ Child.pendings left) :
    let fault := around.strayFault close
    tokens = around.inserting left [] right ∧
      build (around.inserting left close.yield right) = ⟨around.fill (left ++ right), [fault]⟩ ∧
      fault.site = .across close.opening close.angle ∧
      fault.cause.name =
        (if around.depth = 0 then "UnexpectedToken" else "UnexpectedCloseTag").toList := by
  intro fault
  obtain ⟨yields, formed⟩ := build_eq_iff.mp accepted
  obtain ⟨outside, ended⟩ := not_or.mp (mt List.mem_append.mpr stray)
  have same : tokens = around.inserting left [] right :=
    yields.symm.trans (Around.inserting_nil _ left right).symm
  -- Both runs come to the place, for what is pending there ends before the tag too.
  have without : Builder.machine.Reaches (.start tokens)
      (around.standing left (Child.yields right ++ around.back)) := by
    rw [same]
    exact Around.reaches_place formed fun _ _ _ ends => ends
  have reached : Builder.machine.Reaches (.start (around.inserting left close.yield right))
      (around.standing left (close.yield ++ (Child.yields right ++ around.back))) :=
    Around.reaches_place formed (stillFor_closeTag sound ended _ _)
  have built : (Builder.machine.exhaust
      (around.standing left (Child.yields right ++ around.back))).result =
        ⟨around.fill (left ++ right), []⟩ := by
    rw [← without.exhaust_eq]
    exact accepted
  have clean : (around.standing left (Child.yields right ++ around.back)).Clean :=
    List.reverse_eq_nil_iff.mp (congrArg Built.faults built)
  have passed := reached.trans (Around.reaches_dropped drops sound outside left clean.goesOn)
  refine ⟨same, ?_, around.site_strayFault close, Around.name_strayFault drops close⟩
  rw [build, passed.exhaust_eq, Builder.result_onto clean, built]
  rfl

section List

def listHead : Head Token := ⟨.place .openTag ['<', 'u', 'l'] ⟨1, 1, 0⟩, [], none⟩

def listClose : CloseTag Token :=
  ⟨.place .closeTag ['<', '/', 'u', 'l'] ⟨1, 15, 14⟩, none, .place .angle ['>'] ⟨1, 19, 18⟩⟩

/-- `<li>a`, with another letter and at another column. -/
def openItem (char : Char) (column : Nat) : Child Token :=
  .element ⟨.place .openTag ['<', 'l', 'i'] ⟨1, column, column - 1⟩, [], none⟩
    (.place .angle ['>'] ⟨1, column + 3, column + 2⟩)
    [.text (.place .text [char] ⟨1, column + 4, column + 3⟩)] none

/-- The inside of the list in `<ul>…</ul>`. -/
def listPage : Around Token :=
  .element .root [] listHead (.place .angle ['>'] ⟨1, 4, 3⟩) (some listClose) []

theorem openItem_formed (char : Char) (column : Nat) {after : List Token}
    (ends : EndsBefore ['l', 'i'] [['l', 'i']] after) :
    (openItem char column).Formed .whole 1 after := by
  have bounded : 1 < maxNesting := by decide
  have stops : Element.stops? ['l', 'i'] = some [['l', 'i']] := by decide +kernel
  have holds : Element.isVoid ['l', 'i'] = false := by decide +kernel
  refine ⟨⟨rfl, trivial, ifAny_none _⟩, rfl, holds, bounded, ?_, ⟨rfl, trivial⟩, _, stops, ends⟩
  intro child among name named
  cases List.mem_singleton.mp among
  cases named

theorem listPage_formed : WellFormed .whole (listPage.fill [openItem 'a' 5, openItem 'c' 10]) := by
  have bounded : 0 < maxNesting := by decide
  have holds : Element.isVoid (Builder.nameOf listHead) = false := by decide +kernel
  have close : listClose.Formed := ⟨rfl, ifAny_none _, rfl⟩
  have needs : Element.stops? (Builder.nameOf listHead) = none := by decide +kernel
  -- The first item ends before the second, and the second before the end of the list.
  have first : (openItem 'a' 5).Formed .whole 1
      (Child.yields [openItem 'c' 10] ++ listClose.yield) :=
    openItem_formed 'a' 5 (.inr (.inl ⟨rfl, List.mem_singleton.mpr rfl⟩))
  have second : (openItem 'c' 10).Formed .whole 1 listClose.yield :=
    openItem_formed 'c' 10 (.inl ⟨rfl, by decide⟩)
  refine ⟨⟨⟨rfl, trivial, ifAny_none _⟩, rfl, holds, bounded, ?_, ⟨first, second, trivial⟩, close,
    rfl⟩, trivial⟩
  intro child among name named stops found
  rw [needs] at found
  cases found

/-- `<ul><li>a</b><li>c</ul>` -/
theorem build_dropsClose_listPage :
    build (listPage.inserting [openItem 'a' 5] boldClose.yield [openItem 'c' 10]) =
      ⟨listPage.fill [openItem 'a' 5, openItem 'c' 10],
        [⟨.strayClose ['b'] ['u', 'l'], .across boldClose.opening boldClose.angle⟩]⟩ := by
  have accepted : build (Child.yields (listPage.fill ([openItem 'a' 5] ++ [openItem 'c' 10]))) =
      ⟨listPage.fill ([openItem 'a' 5] ++ [openItem 'c' 10]), []⟩ :=
    build_of_wellFormed listPage_formed
  have drops : listPage.Drops := by
    have needs : Element.stops? ['u', 'l'] = none := by decide +kernel
    exact needs
  have sound : boldClose.Formed := ⟨rfl, ifAny_none _, rfl⟩
  have stray : tagName boldClose.opening ∉
      listPage.names ++ Child.pendings [openItem 'a' 5] := by
    decide +kernel
  exact (build_dropsClose drops accepted sound stray).2.1

end List

end Template.Concrete
