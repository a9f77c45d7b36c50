import Template.Proofs.Concrete.Completeness
import Template.Proofs.Concrete.Descent.Recovery

set_option autoImplicit false

namespace Template.Concrete

open Terminal (kind tagName blockName)
open Cursor

variable {τ : Type}

namespace Builder

/-- The builder with the tokens and the faults of a reader. -/
def standAt (builder : Builder τ) (tokens : List τ) (reader : Descent.Reader τ) : Builder τ :=
  { builder with rest := tokens.drop reader.place, faults := reader.faults }

theorem standAt_add (builder : Builder τ) (child : Child τ) (tokens : List τ)
    (reader : Descent.Reader τ) :
    (builder.add child).standAt tokens reader = (builder.standAt tokens reader).add child := by
  obtain ⟨rest, frames, children, faults⟩ := builder
  cases frames <;> rfl

/-- The builder with other children in its innermost frame, or outside all elements. -/
def holding (builder : Builder τ) (children : List (Child τ)) : Builder τ :=
  match builder.frames with
  | [] => { builder with children }
  | .element head angle _ :: below =>
    { builder with frames := .element head angle children :: below }
  | .block earlier marker _ :: below =>
    { builder with frames := .block earlier marker children :: below }

theorem add_holding (builder : Builder τ) (child : Child τ) (children : List (Child τ)) :
    (builder.holding children).add child = builder.holding (child :: children) := by
  obtain ⟨rest, frames, others, faults⟩ := builder
  cases frames with
  | nil => rfl
  | cons frame below => cases frame <;> rfl

variable [Terminal τ]

theorem openNames_holding (builder : Builder τ) (children : List (Child τ)) :
    openNames (builder.holding children).frames = openNames builder.frames := by
  obtain ⟨rest, frames, others, faults⟩ := builder
  cases frames with
  | nil => rfl
  | cons frame below => cases frame <;> rfl

omit [Terminal τ] in
theorem frames_length_holding (builder : Builder τ) (children : List (Child τ)) :
    (builder.holding children).frames.length = builder.frames.length := by
  obtain ⟨rest, frames, others, faults⟩ := builder
  cases frames with
  | nil => rfl
  | cons frame below => cases frame <;> rfl

theorem stopsOf_holding (builder : Builder τ) (children : List (Child τ)) :
    stopsOf (builder.holding children).frames = stopsOf builder.frames := by
  obtain ⟨rest, frames, others, faults⟩ := builder
  cases frames with
  | nil => rfl
  | cons frame below => cases frame <;> rfl

omit [Terminal τ] in
/-- There is room for content wherever no more is open than may be. -/
theorem roomy_of_le {frames : List (Frame τ)} (limit : frames.length ≤ maxNesting) :
    Roomy frames := by
  cases frames with
  | nil => trivial
  | cons frame below => cases frame with
    | element => trivial
    | block => exact limit

end Builder

namespace Descent

open Builder

variable [Terminal τ] {tokens : List τ}

/-- The names and the depth of a reader are those of some open frames. -/
structure Fits (tokens : List τ) (frames : List (Frame τ)) (reader : Reader τ) : Prop where
  inside : reader.place ≤ tokens.length
  names : reader.names = (openNames frames).reverse
  depth : reader.depth = frames.length

theorem Fits.of_same {frames others : List (Frame τ)} {reader : Reader τ}
    (fits : Fits tokens frames reader) (names : openNames others = openNames frames)
    (length : others.length = frames.length) : Fits tokens others reader :=
  ⟨fits.inside, by rw [fits.names, names], by rw [fits.depth, length]⟩

theorem fits_add {builder : Builder τ} {reader : Reader τ} {child : Child τ} :
    Fits tokens (builder.add child).frames reader ↔ Fits tokens builder.frames reader := by
  have names := openNames_add builder child
  have length := frames_length_add builder child
  exact ⟨fun fits => fits.of_same names.symm length.symm, fun fits => fits.of_same names length⟩

theorem fits_holding {builder : Builder τ} {reader : Reader τ} {children : List (Child τ)} :
    Fits tokens (builder.holding children).frames reader ↔ Fits tokens builder.frames reader := by
  have names := openNames_holding builder children
  have length := frames_length_holding builder children
  exact ⟨fun fits => fits.of_same names.symm length.symm, fun fits => fits.of_same names length⟩

/-- A reader that has moved on, with more faults. -/
theorem Fits.moved {frames : List (Frame τ)} {reader : Reader τ} (fits : Fits tokens frames reader)
    {further : Nat} (inside : further ≤ tokens.length) (faults : List (Fault τ)) :
    Fits tokens frames { reader with place := further, faults } := ⟨inside, fits.names, fits.depth⟩

theorem Fits.depth_runs {frames : List (Frame τ)} {reader : Reader τ}
    (fits : Fits tokens frames reader) : Runs tokens Descent.depth reader frames.length reader := by
  rw [Runs, Descent.depth, fits.depth]

theorem Fits.recovered {frames : List (Frame τ)} {reader : Reader τ}
    (fits : Fits tokens frames reader) (mismatch : Mismatch τ) :
    Fits tokens frames (recovered tokens reader mismatch) :=
  fits.moved (recovered_inside tokens reader mismatch) _

/-- Steps lead from a builder to another where a reader stands, which is no earlier than a
position. -/
structure Leads (tokens : List τ) (start : Builder τ) (low : Nat) (builder : Builder τ)
    (now : Reader τ) : Prop where
  onward : low ≤ now.place
  fits : Fits tokens builder.frames now
  steps : machine.Reaches start (builder.standAt tokens now)

namespace Leads

variable {start builder other : Builder τ} {low : Nat} {before now : Reader τ}

theorem refl (fits : Fits tokens builder.frames now) :
    Leads tokens (builder.standAt tokens now) now.place builder now :=
  ⟨Nat.le_refl _, fits, .refl _⟩

/-- More steps lead further on. -/
theorem next (leads : Leads tokens start low builder before) (onward : before.place ≤ now.place)
    (fits : Fits tokens other.frames now)
    (steps : machine.Reaches (builder.standAt tokens before) (other.standAt tokens now)) :
    Leads tokens start low other now :=
  ⟨Nat.le_trans leads.onward onward, fits, leads.steps.trans steps⟩

end Leads

/-- A child has been read, or it cannot be read and what is left of it is to be dropped. -/
inductive Served (tokens : List τ) (child : Step τ (Outcome τ (Child τ))) (builder : Builder τ)
    (reader : Reader τ) : Prop where
  | read {item : Child τ} {after : Reader τ} (runs : Runs tokens child reader (.ok item) after)
      (further : reader.place < after.place) (fits : Fits tokens builder.frames after)
      (steps : machine.Reaches (builder.standAt tokens reader)
        ((builder.add item).standAt tokens after))
  | broken {mismatch : Mismatch τ} (lost : Lost tokens Cursor.piece reader mismatch)
      (runs : Runs tokens child reader (.error (failureOf tokens mismatch))
        { reader with place := placeOf tokens mismatch.rest })
      (further : reader.place < placeOf tokens mismatch.rest)
      (steps : machine.Reaches (builder.standAt tokens reader)
        ((builder.standAt tokens reader).recover mismatch))

/-- Every child is read that begins among so many open frames. -/
def Serves (tokens : List τ) (child : Step τ (Outcome τ (Child τ))) (size : Nat) : Prop :=
  ∀ (builder : Builder τ) (reader : Reader τ), builder.frames.length = size →
    Fits tokens builder.frames reader →
    startsChild (stopsOf builder.frames) (tokens.drop reader.place) = true →
    Served tokens child builder reader

theorem startsAt_eq (stops : Option (List Text)) (tokens : List τ) (place : Nat) :
    startsAt stops tokens place = startsChild stops (tokens.drop place) := by
  rw [startsAt, getElem?_eq_head?]
  cases left : tokens.drop place with
  | nil => rfl
  | cons token rest =>
    have next : kindAt? tokens (place + 1) = Rule.kind? rest := by rw [kindAt?_succ, left]; rfl
    cases same : kind token <;> simp only [List.head?_cons, startsChild, same, next]

theorem starts_runs {stops : Option (List Text)} {now : Reader τ} {answer : Bool}
    (same : startsChild stops (tokens.drop now.place) = answer) :
    Runs tokens (starts stops) now answer now := by
  rw [Runs, starts, startsAt_eq, same]

theorem standAt_recovered (builder : Builder τ) {mismatch : Mismatch τ} (reader : Reader τ)
    (suffix : mismatch.rest <:+ tokens) :
    builder.standAt tokens (recovered tokens reader mismatch) =
      (builder.standAt tokens reader).recover mismatch := by
  have left := drop_placeOf ((resumed_suffix mismatch.rest).trans suffix)
  simp only [standAt, recovered, left]
  rfl

def Holds (tokens : List τ) (start : Builder τ) (low : Nat) (builder : Builder τ)
    (children : List (Child τ)) (now : Reader τ) : Prop :=
  Leads tokens start low (builder.holding children) now

/-- Children have been read in the innermost frame, and no further child begins. -/
structure Filled (tokens : List τ) (start : Builder τ) (low : Nat) (builder : Builder τ)
    (children : List (Child τ)) (now : Reader τ) : Prop where
  holds : Holds tokens start low builder children now
  idle : startsChild (stopsOf builder.frames) (tokens.drop now.place) = false

theorem contentRound_turns {child : Step τ (Outcome τ (Child τ))} {start builder : Builder τ}
    {low : Nat} (serves : Serves tokens child builder.frames.length) (children : List (Child τ))
    (now : Reader τ) (holds : Holds tokens start low builder children now) :
    Turns tokens (contentRound child (stopsOf builder.frames) children)
      (Holds tokens start low builder) (Filled tokens start low builder) now := by
  cases begins : startsChild (stopsOf builder.frames) (tokens.drop now.place) with
  | false =>
    have run : Runs tokens (contentRound child (stopsOf builder.frames) children) now
        (.inr children) now := (starts_runs begins).bind (.pure tokens _ now)
    exact .last run ⟨holds, begins⟩
  | true =>
    have served := serves (builder.holding children) now (frames_length_holding builder children)
      holds.fits (by rw [stopsOf_holding]; exact begins)
    cases served with
    | @read item after runs further fits steps =>
      have run : Runs tokens (contentRound child (stopsOf builder.frames) children) now
          (.inl (item :: children)) after := by
        apply Runs.bind (starts_runs begins)
        apply Runs.bind runs
        exact .pure tokens _ after
      rw [add_holding] at steps
      have more : Holds tokens start low builder (item :: children) after :=
        holds.next (Nat.le_of_lt further) (fits_holding.mpr (fits_holding.mp fits)) steps
      exact .again run further fits.inside more
    | @broken mismatch lost runs further steps =>
      have onward := Nat.lt_of_lt_of_le further (le_recovered tokens now mismatch)
      have run : Runs tokens (contentRound child (stopsOf builder.frames) children) now
          (.inl children) (recovered tokens now mismatch) := by
        apply Runs.bind (starts_runs begins)
        apply Runs.bind runs
        apply Runs.bind lost.recover_runs
        exact .pure tokens _ _
      rw [← standAt_recovered _ _ lost.suffix] at steps
      have same : Holds tokens start low builder children (recovered tokens now mismatch) :=
        holds.next (Nat.le_of_lt onward) (holds.fits.recovered mismatch) steps
      exact .again run onward (recovered_inside tokens now mismatch) same

/-- Content is read to where no further child begins. -/
theorem content_runs {child : Step τ (Outcome τ (Child τ))} (builder : Builder τ)
    {start : Builder τ} {low : Nat} (serves : Serves tokens child builder.frames.length)
    {children : List (Child τ)} {now : Reader τ}
    (holds : Holds tokens start low builder children now) :
    ∃ result after,
      Runs tokens (content child (stopsOf builder.frames) children) now result after ∧
        Filled tokens start low builder result after :=
  loop_runs (contentRound_turns serves) children now holds

def inElement (builder : Builder τ) (head : Head τ) (angle : τ) (children : List (Child τ)) :
    Builder τ := { builder with frames := .element head angle children :: builder.frames }

def entered (name : Text) (reader : Reader τ) : Reader τ :=
  { reader with names := reader.names ++ [name], depth := reader.depth + 1 }

def emerged (reader : Reader τ) : Reader τ :=
  { reader with names := reader.names.dropLast, depth := reader.depth - 1 }

omit [Terminal τ] in
theorem enter_runs (tokens : List τ) (name : Text) (reader : Reader τ) :
    Runs tokens (enter name) reader () (entered name reader) := rfl

omit [Terminal τ] in
theorem leave_runs (tokens : List τ) (reader : Reader τ) :
    Runs tokens leave reader () (emerged reader) := rfl

def InElement (tokens : List τ) (start : Builder τ) (low : Nat) (builder : Builder τ)
    (head : Head τ) (angle : τ) (children : List (Child τ)) (now : Reader τ) : Prop :=
  Leads tokens start low (inElement builder head angle children) now

/-- An element has been read to its end. The reader has not come out of it. -/
def AfterElement (tokens : List τ) (start : Builder τ) (low : Nat) (builder : Builder τ)
    (head : Head τ) (angle : τ) (result : List (Child τ) × Option (CloseTag τ)) (now : Reader τ) :
    Prop :=
  Leads tokens start low (builder.add (.element head angle result.1.reverse result.2)) (emerged now)

section

variable {start builder : Builder τ} {low : Nat} {head : Head τ} {angle : τ}
  {children : List (Child τ)} {now : Reader τ}

theorem fits_entered (fits : Fits tokens builder.frames now) (head : Head τ) (angle : τ) :
    Fits tokens (inElement builder head angle []).frames (entered (nameOf head) now) := by
  refine ⟨fits.inside, ?_, ?_⟩
  · simp only [entered, fits.names, inElement, openNames, List.filterMap_cons, List.reverse_cons]
  · simp only [entered, fits.depth, inElement, List.length_cons]

theorem fits_emerged (fits : Fits tokens (inElement builder head angle children).frames now) :
    Fits tokens builder.frames (emerged now) := by
  refine ⟨fits.inside, ?_, ?_⟩
  · simp only [emerged, fits.names, inElement, openNames, List.filterMap_cons, List.reverse_cons,
      List.dropLast_concat]
  · simp only [emerged, fits.depth, inElement, List.length_cons, Nat.add_sub_cancel]

/-- A builder goes on where no child begins in an element. -/
theorem InElement.reaches
    (inside : InElement tokens start low builder head angle children now)
    (idle : startsChild (Element.stops? (nameOf head)) (tokens.drop now.place) = false) :
    machine.Reaches start (((inElement builder head angle children).standAt tokens
      now).finishContent builder.frames head angle children) :=
  inside.steps.trans (reaches_finishContent rfl idle)

/-- An element ends with what the builder makes of it where no child begins. -/
theorem InElement.ends {close : Option (CloseTag τ)} {after : Reader τ}
    (inside : InElement tokens start low builder head angle children now)
    (idle : startsChild (Element.stops? (nameOf head)) (tokens.drop now.place) = false)
    (onward : now.place ≤ after.place)
    (fits : Fits tokens (inElement builder head angle children).frames after)
    (finishes : ((inElement builder head angle children).standAt tokens now).finishContent
      builder.frames head angle children =
        ((inElement builder head angle children).standAt tokens after).endElement builder.frames
          head angle children close) :
    AfterElement tokens start low builder head angle (children, close) after := by
  refine ⟨Nat.le_trans inside.onward onward, fits_add.mpr (fits_emerged fits), ?_⟩
  have steps := inside.reaches idle
  rw [finishes] at steps
  rw [standAt_add]
  exact steps

/-- An element goes on with what the builder makes of it where no child begins. -/
theorem InElement.goes {after : Reader τ}
    (inside : InElement tokens start low builder head angle children now)
    (idle : startsChild (Element.stops? (nameOf head)) (tokens.drop now.place) = false)
    (onward : now.place ≤ after.place)
    (fits : Fits tokens (inElement builder head angle children).frames after)
    (finishes : ((inElement builder head angle children).standAt tokens now).finishContent
      builder.frames head angle children =
        (inElement builder head angle children).standAt tokens after) :
    InElement tokens start low builder head angle children after := by
  have steps := inside.reaches idle
  rw [finishes] at steps
  exact ⟨Nat.le_trans inside.onward onward, fits, steps⟩

/-- The closing tag of an element is missed unless it may be left out. -/
theorem missClose_runs (inside : InElement tokens start low builder head angle children now)
    (idle : startsChild (Element.stops? (nameOf head)) (tokens.drop now.place) = false)
    (ending : endingOf (nameOf head) (openNames builder.frames) (tokens.drop now.place) =
      if Element.mayEnd (nameOf head) then .silent else .missing) :
    ∃ after, Runs tokens (missClose (nameOf head)) now () after ∧
      AfterElement tokens start low builder head angle (children, none) after := by
  have fits : Fits tokens (inElement builder head angle children).frames now := inside.fits
  cases may : Element.mayEnd (nameOf head) with
  | true =>
    rw [may, if_pos rfl] at ending
    have run : Runs tokens (missClose (nameOf head)) now () now := by
      apply Runs.bind (here?_runs tokens now)
      apply Runs.ite_pos may
      exact .pure tokens () now
    refine ⟨now, run, inside.ends idle (Nat.le_refl _) fits ?_⟩
    simp only [Builder.finishContent, standAt, ending]
  | false =>
    rw [may, if_neg Bool.false_ne_true] at ending
    have must : ¬Element.mayEnd (nameOf head) = true := by simp [may]
    have missed := reportHere_runs
      (.missingClose (nameOf head) (tokens.drop now.place).head?) fits.inside
    have run : Runs tokens (missClose (nameOf head)) now () { now with
        faults := ⟨.missingClose (nameOf head) (tokens.drop now.place).head?,
          .at (tokens.drop now.place)⟩ :: now.faults } := by
      apply Runs.bind (here?_runs tokens now)
      apply Runs.ite_neg must
      exact missed
    refine ⟨_, run, inside.ends idle (Nat.le_refl _) (fits.moved fits.inside _) ?_⟩
    simp only [Builder.finishContent, standAt, ending]
    rfl

/-- Coming to the closing tag of an element ends it, whether the tag can be read or not. -/
theorem ownClose_turns (inside : InElement tokens start low builder head angle children now)
    (idle : startsChild (Element.stops? (nameOf head)) (tokens.drop now.place) = false)
    (ending : endingOf (nameOf head) (openNames builder.frames) (tokens.drop now.place) = .closed) :
    Turns tokens (ownClose children) (InElement tokens start low builder head angle)
      (AfterElement tokens start low builder head angle) now := by
  have fits : Fits tokens (inElement builder head angle children).frames now := inside.fits
  cases read : Concrete.closeTag (tokens.drop now.place) with
  | error mismatch =>
    have lost := lost_of_agrees closeTag_agrees fits.inside read
    have onward := Nat.le_trans lost.onward (le_recovered tokens now mismatch)
    have run : Runs tokens (ownClose children) now (.inr (children, none))
        (recovered tokens now mismatch) := lost.yields rfl
    refine .last run (inside.ends idle onward (fits.recovered mismatch) ?_)
    rw [standAt_recovered _ _ lost.suffix]
    simp only [Builder.finishContent, standAt, ending, read]
  | ok found =>
    obtain ⟨close, rest⟩ := found
    have took := took_of_agrees closeTag_agrees fits.inside read
    have run : Runs tokens (ownClose children) now (.inr (children, some close))
        { now with place := placeOf tokens rest } := took.runs.bind (.pure tokens _ _)
    refine .last run (inside.ends idle took.onward (fits.moved (placeOf_le tokens rest) _) ?_)
    simp only [Builder.finishContent, standAt, ending, read, drop_placeOf took.suffix]

omit [Terminal τ] in
/-- A closing tag concerns its tokens from the first to the last. -/
theorem dropped_closeTag (close : CloseTag τ) (rest : List τ) :
    Site.dropped close.yield rest = .across close.opening close.angle := by
  obtain ⟨opening, blank, angle⟩ := close
  cases blank <;> rfl

/-- A closing tag that answers no open element is passed over, whether it can be read or not. -/
theorem strayClose_turns {token : τ} {rest : List τ}
    (inside : InElement tokens start low builder head angle children now)
    (idle : startsChild (Element.stops? (nameOf head)) (tokens.drop now.place) = false)
    (ending : endingOf (nameOf head) (openNames builder.frames) (tokens.drop now.place) =
      .stray token) (left : tokens.drop now.place = token :: rest)
    (closer : kind token = .closeTag) :
    Turns tokens (strayClose (nameOf head) token children)
      (InElement tokens start low builder head angle)
      (AfterElement tokens start low builder head angle) now := by
  have fits : Fits tokens (inElement builder head angle children).frames now := inside.fits
  have taken : (Rule.left (Concrete.closeTag (tokens.drop now.place))).length <
      (tokens.drop now.place).length := by
    rw [left]
    exact closeTag_commits closer rest
  cases read : Concrete.closeTag (tokens.drop now.place) with
  | error mismatch =>
    rw [read] at taken
    have lost := lost_of_agrees closeTag_agrees fits.inside read
    have onward := Nat.lt_of_lt_of_le (lt_placeOf taken) (le_recovered tokens now mismatch)
    have run : Runs tokens (strayClose (nameOf head) token children) now (.inl children)
        (recovered tokens now mismatch) := by
      apply Runs.bind (place_runs tokens now)
      exact lost.yields rfl
    refine .again run onward (recovered_inside tokens now mismatch)
      (inside.goes idle (Nat.le_of_lt onward) (fits.recovered mismatch) ?_)
    rw [standAt_recovered _ _ lost.suffix]
    simp only [Builder.finishContent, standAt, ending, dropClose, read]
  | ok found =>
    obtain ⟨close, rest⟩ := found
    rw [read] at taken
    have took := took_of_agrees closeTag_agrees fits.inside read
    have onward : now.place < placeOf tokens rest := lt_placeOf taken
    have within := placeOf_le tokens rest
    have split : tokens.drop now.place = close.yield ++ tokens.drop (placeOf tokens rest) := by
      rw [drop_placeOf took.suffix]
      exact (closeTag_eq_ok.mp read).1
    have reported := report_runs { now with place := placeOf tokens rest }
      (.strayClose (tagName token) (nameOf head)) fits.inside within split
    rw [dropped_closeTag] at reported
    have run : Runs tokens (strayClose (nameOf head) token children) now (.inl children) { now with
        place := placeOf tokens rest
        faults := ⟨.strayClose (tagName token) (nameOf head),
          .across close.opening close.angle⟩ :: now.faults } := by
      apply Runs.bind (place_runs tokens now)
      apply Runs.bind took.runs
      apply Runs.bind reported
      exact .pure tokens _ _
    refine .again run onward within
      (inside.goes idle (Nat.le_of_lt onward) (fits.moved within _) ?_)
    simp only [Builder.finishContent, standAt, ending, dropClose, read, Builder.note,
      drop_placeOf took.suffix]

/-- Whether a name is that of an element around the innermost. -/
theorem isOutside_runs (fits : Fits tokens (inElement builder head angle children).frames now)
    (name : Text) :
    Runs tokens (isOutside name) now ((openNames builder.frames).contains name) now := by
  have names : now.names = (openNames builder.frames).reverse ++ [nameOf head] := by
    rw [fits.names, inElement]
    exact List.reverse_cons
  have taken : first? (now.names.length - 1) now.names =
      some (openNames builder.frames).reverse := by
    rw [first?, if_pos (Nat.sub_le _ _), names, List.length_append, List.length_singleton,
      Nat.add_sub_cancel, List.take_left]
  simp only [Runs, isOutside, taken, List.contains_reverse]

/-- A closing tag ends the innermost element if it answers it or an element around it, or if the
innermost may leave out its own. It is passed over otherwise. -/
theorem closeTag_turns {token : τ} {rest : List τ}
    (inside : InElement tokens start low builder head angle children now)
    (idle : startsChild (Element.stops? (nameOf head)) (tokens.drop now.place) = false)
    (left : tokens.drop now.place = token :: rest) (closer : kind token = .closeTag) :
    Turns tokens (answerClose (nameOf head) token children)
      (InElement tokens start low builder head angle)
      (AfterElement tokens start low builder head angle) now := by
  unfold answerClose
  by_cases own : tagName token = nameOf head
  · have ending : endingOf (nameOf head) (openNames builder.frames) (tokens.drop now.place) =
        .closed := by simp only [left, endingOf, closer, own, and_self, ↓reduceIte]
    simp only [own, ↓reduceIte]
    exact ownClose_turns inside idle ending
  · cases may : Element.mayEnd (nameOf head) with
    | true =>
      have ending : endingOf (nameOf head) (openNames builder.frames) (tokens.drop now.place) =
          .silent := by simp only [left, endingOf, own, may, and_false, ↓reduceIte]
      simp only [own, ↓reduceIte]
      refine .last (.pure _ _ _) (inside.ends idle (Nat.le_refl _) inside.fits ?_)
      simp only [Builder.finishContent, standAt, ending]
    | false =>
      simp only [own, Bool.false_eq_true, ↓reduceIte]
      refine .bind (isOutside_runs inside.fits (tagName token)) (Nat.le_refl _) ?_
      cases around : (openNames builder.frames).contains (tagName token) with
      | true =>
        have ending : endingOf (nameOf head) (openNames builder.frames) (tokens.drop now.place) =
            if Element.mayEnd (nameOf head) then .silent else .missing := by
          simp only [left, endingOf, own, may, around, and_false, or_true, Bool.false_eq_true,
            ↓reduceIte]
        obtain ⟨after, runs, ends⟩ := missClose_runs inside idle ending
        exact .last (runs.bind (.pure tokens _ after)) ends
      | false =>
        have ending : endingOf (nameOf head) (openNames builder.frames) (tokens.drop now.place) =
            .stray token := by
          simp only [left, endingOf, own, may, around, closer, ne_eq, not_true_eq_false, and_false,
            or_self, Bool.false_eq_true, ↓reduceIte]
        exact strayClose_turns inside idle ending left closer

theorem finishContent_turns (inside : InElement tokens start low builder head angle children now)
    (idle : startsChild (Element.stops? (nameOf head)) (tokens.drop now.place) = false) :
    Turns tokens (finishContent (nameOf head) children)
      (InElement tokens start low builder head angle)
      (AfterElement tokens start low builder head angle) now := by
  refine .bind (here?_runs tokens now) (Nat.le_refl _) ?_
  cases left : tokens.drop now.place with
  | nil =>
    obtain ⟨after, runs, ends⟩ := missClose_runs inside idle (by rw [left]; rfl)
    exact .last (runs.bind (.pure tokens _ after)) ends
  | cons token rest =>
    by_cases closer : kind token = .closeTag
    · simp only [List.head?_cons, closer, ↓reduceIte]
      exact closeTag_turns inside idle left closer
    · have ending : endingOf (nameOf head) (openNames builder.frames) (tokens.drop now.place) =
          if Element.mayEnd (nameOf head) then .silent else .missing := by
        simp only [left, endingOf, closer, false_and, ne_eq, not_false_eq_true, true_or, ↓reduceIte]
      obtain ⟨after, runs, ends⟩ := missClose_runs inside idle ending
      simp only [List.head?_cons, closer, ↓reduceIte]
      exact .last (runs.bind (.pure tokens _ after)) ends

theorem elementRound_turns {child : Step τ (Outcome τ (Child τ))}
    (serves : Serves tokens child (builder.frames.length + 1)) (children : List (Child τ))
    (now : Reader τ) (inside : InElement tokens start low builder head angle children now) :
    Turns tokens (elementRound child (nameOf head) children)
      (InElement tokens start low builder head angle)
      (AfterElement tokens start low builder head angle) now := by
  -- The content of this round begins with the children that the element has already.
  have fresh : Holds tokens ((inElement builder head angle children).standAt tokens now) now.place
      (inElement builder head angle []) children now := .refl inside.fits
  obtain ⟨others, middle, runs, filled⟩ :=
    content_runs (inElement builder head angle []) serves fresh
  have onward : now.place ≤ middle.place := filled.holds.onward
  have reached : InElement tokens start low builder head angle others middle :=
    inside.next onward filled.holds.fits filled.holds.steps
  exact .bind runs onward (finishContent_turns reached filled.idle)

end

/-- An element is read to its end, with what the builder adds for it. -/
theorem element_leads {child : Step τ (Outcome τ (Child τ))} {builder : Builder τ}
    {reader : Reader τ}
    (serves : builder.frames.length < maxNesting →
      Serves tokens child (builder.frames.length + 1))
    (fits : Fits tokens builder.frames reader) (head : Head τ) (angle : τ) :
    ∃ item after, Runs tokens (element child head angle) reader item after ∧
      Leads tokens ((builder.standAt tokens reader).openElement head angle) reader.place
        (builder.add item) after := by
  have around := fits.depth_runs
  by_cases empty : Element.isVoid (nameOf head) = true
  · have opened : (builder.standAt tokens reader).openElement head angle =
        (builder.add (.void head angle)).standAt tokens reader := by
      rw [openElement, if_pos empty, standAt_add]
    have run : Runs tokens (element child head angle) reader (.void head angle) reader := by
      apply Runs.bind around
      apply Runs.ite_pos empty
      exact .pure tokens _ reader
    rw [opened]
    exact ⟨_, _, run, .refl (fits_add.mpr fits)⟩
  · by_cases deep : maxNesting ≤ builder.frames.length
    · let told : Reader τ := { reader with
        faults := ⟨.tooDeep, .across head.opening angle⟩ :: reader.faults }
      have opened : (builder.standAt tokens reader).openElement head angle =
          (builder.add (.element head angle [] none)).standAt tokens told := by
        rw [openElement, if_neg empty, standAt_add]
        exact if_pos deep
      have run : Runs tokens (element child head angle) reader (.element head angle [] none)
          told := by
        apply Runs.bind around
        apply Runs.ite_neg empty
        apply Runs.ite_pos deep
        apply Runs.bind (note_runs tokens .tooDeep (.across head.opening angle) reader)
        exact .pure tokens _ told
      rw [opened]
      exact ⟨_, _, run, .refl (fits_add.mpr (fits.moved fits.inside _))⟩
    · have opened : (builder.standAt tokens reader).openElement head angle =
          (inElement builder head angle []).standAt tokens (entered (nameOf head) reader) := by
        rw [openElement, if_neg empty]
        exact if_neg deep
      have inside : InElement tokens ((builder.standAt tokens reader).openElement head angle)
          reader.place builder head angle [] (entered (nameOf head) reader) := by
        rw [opened]
        exact .refl (fits_entered fits head angle)
      obtain ⟨⟨children, close⟩, after, runs, ends⟩ := loop_runs
        (elementRound_turns (serves (Nat.lt_of_not_le deep))) [] _ inside
      have run : Runs tokens (element child head angle) reader
          (.element head angle children.reverse close) (emerged after) := by
        apply Runs.bind around
        apply Runs.ite_neg empty
        apply Runs.ite_neg deep
        apply Runs.bind (enter_runs tokens (nameOf head) reader)
        apply Runs.bind runs
        apply Runs.bind (leave_runs tokens after)
        exact .pure tokens _ (emerged after)
      exact ⟨_, _, run, ends⟩

end Descent

end Template.Concrete
