import Template.Proofs.Concrete.Descent.Content
import Template.Proofs.Concrete.Steps

set_option autoImplicit false

namespace Template.Concrete

open Terminal (kind tagName blockName)
open Cursor Builder

variable {τ : Type} [Terminal τ] {tokens : List τ}

namespace Descent

def inBranch (builder : Builder τ) (earlier : List (Branch τ)) (marker : Marker τ)
    (children : List (Child τ)) : Builder τ :=
  { builder with frames := .block earlier marker children :: builder.frames }

/-- A branch has been read to where no child is wanted. The reader has come out of it. -/
structure AfterBranch (tokens : List τ) (start : Builder τ) (low : Nat) (builder : Builder τ)
    (earlier : List (Branch τ)) (marker : Marker τ) (children : List (Child τ)) (now : Reader τ) :
    Prop where
  onward : low ≤ now.place
  fits : Fits tokens builder.frames now
  idle : ((inBranch builder earlier marker children).standAt tokens now).wantsChild = false
  steps : machine.Reaches start ((inBranch builder earlier marker children).standAt tokens now)

/-- The first branch of a block and some further ones have been read, the latest first. -/
def InBlock (tokens : List τ) (start : Builder τ) (low : Nat) (builder : Builder τ)
    (first : Branch τ) (branches : List (Branch τ)) (now : Reader τ) : Prop :=
  ∃ earlier marker children,
    earlier.reverse ++ [⟨marker, children.reverse⟩] = first :: branches.reverse ∧
      AfterBranch tokens start low builder earlier marker children now

def AfterBlock (tokens : List τ) (start : Builder τ) (low : Nat) (builder : Builder τ)
    (first : Branch τ) (result : List (Branch τ) × Option (BlockEnd τ)) (now : Reader τ) : Prop :=
  Leads tokens start low (builder.add (.block first result.1.reverse result.2)) now

omit [Terminal τ] in
theorem deepen_runs (tokens : List τ) (reader : Reader τ) :
    Runs tokens deepen reader () { reader with depth := reader.depth + 1 } := rfl

omit [Terminal τ] in
theorem surface_runs (tokens : List τ) (reader : Reader τ) :
    Runs tokens surface reader () { reader with depth := reader.depth - 1 } := rfl

section

variable {builder start : Builder τ} {earlier : List (Branch τ)} {marker : Marker τ}
  {children : List (Child τ)} {first : Branch τ} {branches : List (Branch τ)} {now : Reader τ}
  {low : Nat}

/-- A branch is read to where no child is wanted. -/
theorem branch_runs {child : Step τ (Outcome τ (Child τ))}
    (serves : builder.frames.length < maxNesting →
      Serves tokens child (builder.frames.length + 1))
    (fits : Fits tokens builder.frames now) (earlier : List (Branch τ)) (marker : Marker τ) :
    ∃ children after, Runs tokens (branch child marker) now ⟨marker, children.reverse⟩ after ∧
      AfterBranch tokens (((inBranch builder earlier marker []).standAt tokens now).noteDepth
        builder.frames.length marker.opening marker.closing) now.place builder earlier marker
        children after := by
  have around := fits.depth_runs
  by_cases deep : maxNesting ≤ builder.frames.length
  · let told : Reader τ := { now with
      faults := ⟨.tooDeep, .across marker.opening marker.closing⟩ :: now.faults }
    have run : Runs tokens (branch child marker) now ⟨marker, []⟩ told := by
      apply Runs.bind around
      apply Runs.ite_pos deep
      apply Runs.bind (note_runs tokens .tooDeep (.across marker.opening marker.closing) now)
      exact .pure tokens _ told
    rw [noteDepth, if_pos deep]
    refine ⟨[], told, run, Nat.le_refl _, fits.moved fits.inside _, ?_, .refl _⟩
    simp [wantsChild, standAt, inBranch, Nat.not_lt.mpr deep]
  · have deepened : Fits tokens (inBranch builder earlier marker []).frames
        { now with depth := now.depth + 1 } :=
      ⟨fits.inside, fits.names, congrArg Nat.succ fits.depth⟩
    have fresh : Holds tokens ((inBranch builder earlier marker []).standAt tokens now) now.place
        (inBranch builder earlier marker []) [] { now with depth := now.depth + 1 } :=
      ⟨Nat.le_refl _, deepened, .refl _⟩
    obtain ⟨children, after, runs, filled⟩ := content_runs (inBranch builder earlier marker [])
      (serves (Nat.lt_of_not_le deep)) fresh
    have inside := filled.holds.fits
    have surfaced : Fits tokens builder.frames { after with depth := after.depth - 1 } :=
      ⟨inside.inside, inside.names, by rw [inside.depth]; rfl⟩
    have run : Runs tokens (branch child marker) now ⟨marker, children.reverse⟩
        { after with depth := after.depth - 1 } := by
      apply Runs.bind around
      apply Runs.ite_neg deep
      apply Runs.bind (deepen_runs tokens now)
      apply Runs.bind runs
      apply Runs.bind (surface_runs tokens after)
      exact .pure tokens _ _
    rw [noteDepth, if_neg deep]
    refine ⟨children, _, run, filled.holds.onward, surfaced, ?_, filled.holds.steps⟩
    have stays : startsChild none (tokens.drop after.place) = false := filled.idle
    simp [wantsChild, standAt, inBranch, stays]

/-- A builder goes on where no child is wanted in a branch. -/
theorem AfterBranch.reaches
    (ended : AfterBranch tokens start low builder earlier marker children now) :
    machine.Reaches start (((inBranch builder earlier marker children).standAt tokens
      now).finishBranch builder.frames earlier marker children) := by
  have idle := ended.idle
  refine ended.steps.trans (.single ?_)
  simp only [machine, step, idle, Bool.false_eq_true, ↓reduceIte]
  rfl

/-- A block ends with what the builder makes of it where no child is wanted. -/
theorem AfterBranch.ends {after : Reader τ} {finish : Option (BlockEnd τ)}
    (ended : AfterBranch tokens start low builder earlier marker children now)
    (spelled : earlier.reverse ++ [⟨marker, children.reverse⟩] = first :: branches.reverse)
    (onward : now.place ≤ after.place) (fits : Fits tokens builder.frames after)
    (finishes : ((inBranch builder earlier marker children).standAt tokens now).finishBranch
      builder.frames earlier marker children =
        ((inBranch builder earlier marker children).standAt tokens after).endBlock builder.frames
          earlier marker children finish) :
    AfterBlock tokens start low builder first (branches, finish) after := by
  refine ⟨Nat.le_trans ended.onward onward, fits_add.mpr fits, ?_⟩
  have steps := ended.reaches
  rw [finishes, endBlock, blockOf_eq finish earlier _ [] spelled] at steps
  rw [standAt_add]
  exact steps

theorem follows_runs {sigil : Sigil} (now : Reader τ) {answer : Bool}
    (same : answer = true ↔ Follows sigil (tokens.drop now.place)) :
    Runs tokens (follows sigil) now answer now := by
  have looks : (kindAt? tokens now.place = some .braceOpen &&
      kindAt? tokens (now.place + 1) = some (.block sigil)) = answer := by
    rw [Bool.eq_iff_iff, same, kindAt?_eq, kindAt?_succ, Bool.and_eq_true, decide_eq_true_iff,
      decide_eq_true_iff]
    rfl
  rw [Runs, follows, looks]

/-- Coming to the end of a block ends it, whether the end can be read or not. -/
theorem finishBlock_turns {Now : List (Branch τ) → Reader τ → Prop}
    (ended : AfterBranch tokens start low builder earlier marker children now)
    (spelled : earlier.reverse ++ [⟨marker, children.reverse⟩] = first :: branches.reverse)
    (closes : Follows .closing (tokens.drop now.place)) :
    Turns tokens (finishBlock (blockName first.marker.name) branches) Now
      (AfterBlock tokens start low builder first) now := by
  have fits := ended.fits
  have opened := firstMarker_eq earlier marker children.reverse [] spelled
  cases read : Concrete.blockEnd (tokens.drop now.place) with
  | error mismatch =>
    have lost := lost_of_agrees blockEnd_agrees fits.inside read
    have onward := Nat.le_trans lost.onward (le_recovered tokens now mismatch)
    have run : Runs tokens (finishBlock (blockName first.marker.name) branches) now
        (.inr (branches, none)) (recovered tokens now mismatch) := lost.yields rfl
    refine .last run (ended.ends spelled onward (fits.recovered mismatch) ?_)
    rw [standAt_recovered _ _ lost.suffix]
    simp only [finishBranch, standAt, closes.1, closes.2, read]
  | ok found =>
    obtain ⟨finish, rest⟩ := found
    have took := took_of_agrees blockEnd_agrees fits.inside read
    have within := placeOf_le tokens rest
    by_cases named : blockName first.marker.name = blockName finish.name
    · have run : Runs tokens (finishBlock (blockName first.marker.name) branches) now
          (.inr (branches, some finish)) { now with place := placeOf tokens rest } := by
        apply Runs.bind took.runs
        apply Runs.ite_pos named
        exact .pure tokens _ _
      refine .last run (ended.ends spelled took.onward (fits.moved within _) ?_)
      simp only [finishBranch, standAt, closes.1, closes.2, read, opened, noteWrongEnd,
        if_pos named, drop_placeOf took.suffix]
    · have run : Runs tokens (finishBlock (blockName first.marker.name) branches) now
          (.inr (branches, some finish)) { now with
            place := placeOf tokens rest
            faults := ⟨.wrongEnd (blockName first.marker.name) (blockName finish.name),
              .across finish.name finish.name⟩ :: now.faults } := by
        apply Runs.bind took.runs
        apply Runs.ite_neg named
        apply Runs.bind (note_runs tokens _ (.across finish.name finish.name) _)
        exact .pure tokens _ _
      refine .last run (ended.ends spelled took.onward (fits.moved within _) ?_)
      simp only [finishBranch, standAt, closes.1, closes.2, read, opened, noteWrongEnd,
        if_neg named, Builder.note, drop_placeOf took.suffix]

/-- The marker of a further branch goes on with the block, or ends it if it cannot be read. -/
theorem nextBranch_turns {child : Step τ (Outcome τ (Child τ))}
    (serves : builder.frames.length < maxNesting →
      Serves tokens child (builder.frames.length + 1))
    (ended : AfterBranch tokens start low builder earlier marker children now)
    (spelled : earlier.reverse ++ [⟨marker, children.reverse⟩] = first :: branches.reverse)
    (turns : Follows .continuing (tokens.drop now.place)) :
    Turns tokens (nextBranch child branches) (InBlock tokens start low builder first)
      (AfterBlock tokens start low builder first) now := by
  have fits := ended.fits
  cases read : Concrete.marker .continuing (tokens.drop now.place) with
  | error mismatch =>
    have lost := lost_of_agrees (marker_agrees .continuing) fits.inside read
    have onward := Nat.le_trans lost.onward (le_recovered tokens now mismatch)
    have run : Runs tokens (nextBranch child branches) now (.inr (branches, none))
        (recovered tokens now mismatch) := lost.yields rfl
    refine .last run (ended.ends spelled onward (fits.recovered mismatch) ?_)
    rw [standAt_recovered _ _ lost.suffix]
    simp only [finishBranch, standAt, turns.1, turns.2, read]
  | ok found =>
    obtain ⟨next, rest⟩ := found
    have took := took_of_agrees (marker_agrees .continuing) fits.inside read
    have further := lt_placeOf (marker_takes .continuing _ _ _ read)
    obtain ⟨content, after, runs, more⟩ := branch_runs serves
      (fits.moved (placeOf_le tokens rest) now.faults) (⟨marker, children.reverse⟩ :: earlier) next
    have turned : ((inBranch builder earlier marker children).standAt tokens now).finishBranch
        builder.frames earlier marker children =
          ((inBranch builder (⟨marker, children.reverse⟩ :: earlier) next []).standAt tokens
            { now with place := placeOf tokens rest }).noteDepth builder.frames.length
              next.opening next.closing := by
      simp only [finishBranch, standAt, turns.1, turns.2, read, drop_placeOf took.suffix]
      rfl
    have steps := ended.reaches
    rw [turned] at steps
    have onward : now.place < after.place := Nat.lt_of_lt_of_le further more.onward
    have longer : (⟨marker, children.reverse⟩ :: earlier).reverse ++ [⟨next, content.reverse⟩] =
        first :: (⟨next, content.reverse⟩ :: branches).reverse := by
      rw [List.reverse_cons, List.reverse_cons, spelled, List.cons_append]
    have run : Runs tokens (nextBranch child branches) now
        (.inl (⟨next, content.reverse⟩ :: branches)) after := by
      apply Runs.bind took.runs
      apply Runs.bind runs
      exact .pure tokens _ after
    have reached : AfterBranch tokens start low builder (⟨marker, children.reverse⟩ :: earlier) next
        content after :=
      ⟨Nat.le_trans ended.onward (Nat.le_of_lt onward), more.fits, more.idle,
        steps.trans more.steps⟩
    exact .again run onward more.fits.inside ⟨_, next, content, longer, reached⟩

/-- A further branch is read, or the end of the block. -/
theorem branchRound_turns {child : Step τ (Outcome τ (Child τ))}
    (serves : builder.frames.length < maxNesting →
      Serves tokens child (builder.frames.length + 1))
    (branches : List (Branch τ)) (now : Reader τ)
    (inside : InBlock tokens start low builder first branches now) :
    Turns tokens (branchRound child (blockName first.marker.name) branches)
      (InBlock tokens start low builder first) (AfterBlock tokens start low builder first) now := by
  obtain ⟨earlier, marker, children, spelled, ended⟩ := inside
  by_cases turns : Follows .continuing (tokens.drop now.place)
  · have looked := follows_runs now (iff_of_true rfl turns)
    exact .bind looked (Nat.le_refl _) (nextBranch_turns serves ended spelled turns)
  · have looked := follows_runs now (iff_of_false Bool.false_ne_true turns)
    refine .bind looked (Nat.le_refl _) ?_
    by_cases closes : Follows .closing (tokens.drop now.place)
    · have looked := follows_runs now (iff_of_true rfl closes)
      exact .bind looked (Nat.le_refl _) (finishBlock_turns ended spelled closes)
    · have looked := follows_runs now (iff_of_false Bool.false_ne_true closes)
      refine .bind looked (Nat.le_refl _) ?_
      refine .bind (here?_runs tokens now) (Nat.le_refl _) ?_
      have opened := firstMarker_eq earlier marker children.reverse [] spelled
      have missed := reportHere_runs
        (.missingEnd (blockName first.marker.name) (tokens.drop now.place).head?) ended.fits.inside
      refine .last (missed.bind (.pure tokens _ _))
        (ended.ends spelled (Nat.le_refl _) (ended.fits.moved ended.fits.inside _) ?_)
      simp only [finishBranch, standAt, opened]
      split
      · next first second => exact absurd ⟨first, second⟩ turns
      · next first second => exact absurd ⟨first, second⟩ closes
      · rfl

end

/-- A block is read to its end, with what the builder adds for it. -/
theorem block_leads {child : Step τ (Outcome τ (Child τ))} {builder : Builder τ}
    {reader : Reader τ}
    (serves : builder.frames.length < maxNesting →
      Serves tokens child (builder.frames.length + 1))
    (fits : Fits tokens builder.frames reader) (marker : Marker τ) :
    ∃ item after, Runs tokens (block child marker) reader item after ∧
      Leads tokens ((builder.standAt tokens reader).openBlock marker) reader.place
        (builder.add item) after := by
  obtain ⟨children, middle, runs, ended⟩ := branch_runs serves fits [] marker
  have inside : InBlock tokens ((builder.standAt tokens reader).openBlock marker) reader.place
      builder ⟨marker, children.reverse⟩ [] middle := ⟨[], marker, children, rfl, ended⟩
  obtain ⟨⟨branches, finish⟩, after, more, leads⟩ :=
    loop_runs (branchRound_turns serves) [] middle inside
  have run : Runs tokens (block child marker) reader
      (.block ⟨marker, children.reverse⟩ branches.reverse finish) after := by
    apply Runs.bind runs
    apply Runs.bind more
    exact .pure tokens _ after
  exact ⟨_, after, run, leads⟩

/-- A child is read wherever one begins, if those in its content are. -/
theorem childOf_serves {child : Step τ (Outcome τ (Child τ))} {size : Nat}
    (limit : size ≤ maxNesting) (serves : size < maxNesting → Serves tokens child (size + 1)) :
    Serves tokens (childOf child) size := by
  rintro builder reader rfl fits begins
  obtain ⟨token, rest, left, starts⟩ := begins_of_startsChild _ _ begins
  have same := piece_eq fits.inside left starts
  have taken : (Rule.left (Concrete.piece (tokens.drop reader.place))).length <
      (tokens.drop reader.place).length := by
    rw [left]
    exact piece_commits starts rest
  have steps : machine.Reaches (builder.standAt tokens reader)
      (builder.standAt tokens reader).readChild := reaches_readChild (roomy_of_le limit) begins
  have here : (builder.standAt tokens reader).rest = tokens.drop reader.place := rfl
  unfold readChild at steps
  cases read : Concrete.piece (tokens.drop reader.place) with
  | error mismatch =>
    have lost := lost_of_error same piece_shrinks fits.inside read
    rw [read] at taken
    rw [here, read] at steps
    have run : Runs tokens (childOf child) reader (.error (failureOf tokens mismatch))
        { reader with place := placeOf tokens mismatch.rest } :=
      lost.runs.bind (.pure tokens _ _)
    exact .broken lost run (lt_placeOf taken) steps
  | ok found =>
    obtain ⟨piece, rest⟩ := found
    have took := took_of_ok same piece_shrinks fits.inside read
    rw [read] at taken
    rw [here, read] at steps
    have further : reader.place < placeOf tokens rest := lt_placeOf taken
    have moved := fits.moved (placeOf_le tokens rest) reader.faults
    have stood : builder.standAt tokens { reader with place := placeOf tokens rest } =
        { builder.standAt tokens reader with rest } := by
      simp only [standAt, drop_placeOf took.suffix]
    cases piece with
    | whole item =>
      have run : Runs tokens (childOf child) reader (.ok item)
          { reader with place := placeOf tokens rest } := took.runs.bind (.pure tokens _ _)
      refine .read run further moved ?_
      rw [standAt_add, stood]
      exact steps
    | element head angle =>
      obtain ⟨item, after, runs, leads⟩ := element_leads serves moved head angle
      have run : Runs tokens (childOf child) reader (.ok item) after :=
        took.runs.bind (runs.map Except.ok)
      rw [stood] at leads
      exact .read run (Nat.lt_of_lt_of_le further leads.onward) (fits_add.mp leads.fits)
        (steps.trans leads.steps)
    | branch marker =>
      obtain ⟨item, after, runs, leads⟩ := block_leads serves moved marker
      have run : Runs tokens (childOf child) reader (.ok item) after :=
        took.runs.bind (runs.map Except.ok)
      rw [stood] at leads
      exact .read run (Nat.lt_of_lt_of_le further leads.onward) (fits_add.mp leads.fits)
        (steps.trans leads.steps)

/-- As many levels are enough as may still be opened. -/
theorem child_serves (tokens : List τ) : ∀ levels size, size + levels = maxNesting →
    Serves tokens (child (levels + 1)) size := by
  -- Where no level is left everything that may be open is, so a child opens nothing more.
  intro levels
  induction levels with
  | zero => exact fun size full => childOf_serves (by omega) fun roomy => by omega
  | succ levels ih => exact fun size room => childOf_serves (by omega) fun _ => ih _ (by omega)

def outer (children : List (Child τ)) : Builder τ := ⟨[], [], children, []⟩

def InRoot (tokens : List τ) (children : List (Child τ)) (now : Reader τ) : Prop :=
  Leads tokens (.start tokens) 0 (outer children) now

/-- A token that begins no child outside all elements is dropped with what follows it. -/
theorem dropUnexpected_turns {children : List (Child τ)} {now : Reader τ} {token : τ}
    {rest : List τ} {Done : List (Child τ) → Reader τ → Prop} (inside : InRoot tokens children now)
    (idle : startsChild none (tokens.drop now.place) = false)
    (left : tokens.drop now.place = token :: rest) :
    Turns tokens (dropUnexpected token children) (InRoot tokens) Done now := by
  have fits : Fits tokens (outer children).frames now := inside.fits
  have lengths := congrArg List.length left
  rw [List.length_drop, List.length_cons] at lengths
  have further : now.place + 1 ≤ tokens.length := by omega
  have behind : tokens.drop (now.place + 1) = rest := by rw [← List.tail_drop, left, List.tail_cons]
  have split : tokens.drop now.place =
      (token :: unread rest) ++ tokens.drop (resumption tokens (now.place + 1)) := by
    rw [left, ← behind, List.cons_append, ← drop_eq_unread]
  have passed : now.place < resumption tokens (now.place + 1) := le_resumption further
  have within := resumption_le tokens (now.place + 1)
  have skipped := skip_runs { now with place := now.place + 1 } further
  have reported := report_runs { now with place := resumption tokens (now.place + 1) }
    (.unexpected token) fits.inside within split
  have wants : ((outer children).standAt tokens now).wantsChild = false := idle
  have here : ((outer children).standAt tokens now).rest = token :: rest := left
  have taken : machine.step ((outer children).standAt tokens now) =
      some (((outer children).standAt tokens now).dropUnexpected token rest) := by
    simp only [machine, step, wants, Bool.false_eq_true, ↓reduceIte, here]
    rfl
  have run : Runs tokens (dropUnexpected token children) now (.inl children) { now with
      place := resumption tokens (now.place + 1)
      faults := ⟨.unexpected token, .dropped (token :: unread rest)
        (tokens.drop (resumption tokens (now.place + 1)))⟩ :: now.faults } := by
    apply Runs.bind (place_runs tokens now)
    apply Runs.bind (Runs.moveTo (Nat.le_succ now.place) further)
    apply Runs.bind skipped
    apply Runs.bind reported
    exact .pure tokens _ _
  refine .again run passed within
    (inside.next (Nat.le_of_lt passed) (fits.moved within _) (.single ?_))
  rw [taken]
  simp only [standAt, Builder.dropUnexpected, Builder.note, drop_resumption, behind]

/-- Outside all elements children are read to the end, or else a token is dropped. -/
theorem rootRound_turns {child : Step τ (Outcome τ (Child τ))} (serves : Serves tokens child 0)
    (children : List (Child τ)) (now : Reader τ) (inside : InRoot tokens children now) :
    Turns tokens (rootRound child children) (InRoot tokens)
      (fun result after => InRoot tokens result after ∧ tokens.drop after.place = []) now := by
  have fresh : Holds tokens ((outer children).standAt tokens now) now.place (outer []) children
      now := .refl inside.fits
  obtain ⟨result, middle, runs, filled⟩ := content_runs (outer []) serves fresh
  have onward : now.place ≤ middle.place := filled.holds.onward
  have reached : InRoot tokens result middle :=
    inside.next onward filled.holds.fits filled.holds.steps
  refine .bind runs onward ?_
  refine .bind (here?_runs tokens middle) (Nat.le_refl _) ?_
  cases left : tokens.drop middle.place with
  | nil => exact .last (.pure tokens (Sum.inr result) middle) ⟨reached, left⟩
  | cons token rest => exact dropUnexpected_turns reached filled.idle left

/-- A fault does not tell that just any child was waited for. -/
def Definite (fault : Fault τ) : Prop := ∀ found, fault.cause ≠ .mismatch .content found

omit [Terminal τ] in
theorem definite_mismatch {expected : Expected} (certain : expected ≠ .content) (found : Option τ)
    (site : Site τ) : Definite ⟨.mismatch expected found, site⟩ :=
  fun _ same => certain (Cause.mismatch.inj same).1

omit [Terminal τ] in
theorem definite_of_ne {cause : Cause τ} {site : Site τ}
    (other : ∀ expected found, cause ≠ .mismatch expected found) : Definite ⟨cause, site⟩ :=
  fun found => other .content found

/-- A child is read only where one begins, so no step records that just any child was waited
for. -/
theorem definite_of_does {before after : Builder τ} (does : Does before after)
    (definite : ∀ fault ∈ before.faults, Definite fault) :
    ∀ fault ∈ after.faults, Definite fault := by
  have more (cause : Cause τ) (site : Site τ) (certain : Definite ⟨cause, site⟩) :
      ∀ fault ∈ (⟨cause, site⟩ : Fault τ) :: before.faults, Definite fault :=
    List.forall_mem_cons.mpr ⟨certain, definite⟩
  have deep (builder : Builder τ) (same : builder.faults = before.faults) (depth : Nat)
      (first last : τ) : ∀ fault ∈ (builder.noteDepth depth first last).faults, Definite fault := by
    unfold noteDepth
    split
    · rw [Builder.note, same]
      exact more _ _ (definite_of_ne (by simp))
    · rw [same]
      exact definite
  cases does with
  | broken wants failed =>
    obtain ⟨token, rest, here, begins⟩ := begins_of_wantsChild before wants
    rw [here] at failed
    exact more _ _ (definite_mismatch (piece_definite begins failed) _ _)
  | leaf | void => rw [faults_add]; exact definite
  | flat => rw [faults_add]; exact more _ _ (definite_of_ne (by simp))
  | openElement => exact definite
  | openBlock => exact deep _ (by rfl) _ _ _
  | endClosed | endSilent => rw [endElement, faults_add]; exact definite
  | endBroken _ _ failed =>
    rw [endElement, faults_add]
    exact more _ _ (definite_mismatch (closeTag_agrees.definite _ _ failed) _ _)
  | endMissing => rw [endElement, faults_add]; exact more _ _ (definite_of_ne (by simp))
  | stray => exact more _ _ (definite_of_ne (by simp))
  | strayBroken _ _ failed =>
    exact more _ _ (definite_mismatch (closeTag_agrees.definite _ _ failed) _ _)
  | turn => exact deep _ (by rfl) _ _ _
  | turnBroken _ _ failed =>
    rw [endBlock, faults_add]
    exact more _ _ (definite_mismatch ((marker_agrees _).definite _ _ failed) _ _)
  | endBlock =>
    rw [endBlock, faults_add]
    unfold noteWrongEnd
    split
    · exact definite
    · exact more _ _ (definite_of_ne (by simp))
  | endBlockBroken _ _ failed =>
    rw [endBlock, faults_add]
    exact more _ _ (definite_mismatch (blockEnd_agrees.definite _ _ failed) _ _)
  | endBlockMissing => rw [endBlock, faults_add]; exact more _ _ (definite_of_ne (by simp))
  | dropUnexpected => exact more _ _ (definite_of_ne (by simp))

/-- The descent comes to an end without a check that fails, and builds what the builder builds. -/
theorem parse_eq_build (tokens : List τ) : parse tokens = some (build tokens) := by
  have inside : InRoot tokens [] ⟨0, [], 0, []⟩ :=
    ⟨Nat.le_refl _, ⟨Nat.zero_le _, rfl, rfl⟩, .refl _⟩
  obtain ⟨children, after, runs, reached, ended⟩ :=
    loop_runs (rootRound_turns (child_serves tokens maxNesting 0 (Nat.zero_add _))) [] _ inside
  have stopped : machine.step ((outer children).standAt tokens after) = none := by
    simp only [machine, step, standAt, ended]
    rfl
  have final := reached.steps.exhaust_eq.trans (machine.exhaust_of_none _ stopped)
  have run : root tokens ⟨0, [], 0, []⟩ = some (children, after) := runs
  rw [parse, run, build, final]
  rfl

/-- Reading always makes progress and never looks out of range. The descent has no tree where one of
its checks fails, so that each of them holds wherever it is made, whatever the tokens: there are no
more rounds of a loop than tokens and one, and no more levels than may be nested; every round of the
loops over the root, a content, an element and the branches of a block takes a token; the cursor
never goes back nor past the end; a failure tells the place of the cursor where it is recovered
from, and the cursor is then at a token after which reading goes on, or at the end; the ranges of
`site?` and `first?` lie within their lists; and there is a rule for every child that is read. What
is built is what the builder builds, and none of its faults tells that just any child was missed. -/
theorem parse_progresses (tokens : List τ) :
    parse tokens = some (build tokens) ∧ ∀ fault ∈ (build tokens).faults, Definite fault := by
  refine ⟨parse_eq_build tokens, ?_⟩
  have kept := (machine.reaches_exhaust (.start tokens)).keeps
    (fun builder => ∀ fault ∈ builder.faults, Definite fault)
    (fun _ _ definite taken => definite_of_does (does_of_step taken) definite) nofun
  intro fault present
  exact kept fault (List.mem_reverse.mp present)

end Descent

end Template.Concrete
