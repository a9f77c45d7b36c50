import Template.Proofs.Concrete.Depth
import Template.Proofs.Concrete.Descent.Progress

set_option autoImplicit false

namespace Template.Concrete

open Cursor Builder

variable {τ α β σ ρ : Type}

namespace Descent

/-- Whatever a part of reading yields, an item or a failure, it leaves the names of the open elements
and the depth as it found them. -/
def Restores (tokens : List τ) (step : Step τ α) : Prop :=
  ∀ before item after, Runs tokens step before item after →
    after.names = before.names ∧ after.depth = before.depth

variable {tokens : List τ}

theorem restores_look (look : List τ → Reader τ → α) :
    Restores tokens fun tokens reader => some (look tokens reader, reader) := by
  intro before item after runs
  cases runs
  exact ⟨rfl, rfl⟩

theorem restores_pure (item : α) : Restores tokens (pure item) :=
  restores_look fun _ _ => item

theorem Restores.bind {step : Step τ α} {next : α → Step τ β} (front : Restores tokens step)
    (back : ∀ item, Restores tokens (next item)) : Restores tokens (step >>= next) := by
  intro before result after runs
  obtain ⟨item, middle, first, second⟩ := runs.exists_of_bind
  obtain ⟨names, depth⟩ := front before item middle first
  obtain ⟨names', depth'⟩ := back item middle result after second
  exact ⟨names'.trans names, depth'.trans depth⟩

theorem Restores.ite {fact : Prop} [Decidable fact] {step other : Step τ α}
    (left : Restores tokens step) (right : Restores tokens other) :
    Restores tokens (if fact then step else other) := by
  by_cases holds : fact
  · rw [if_pos holds]
    exact left
  · rw [if_neg holds]
    exact right

theorem Restores.yields {step : Step τ α} (front : Restores tokens step) (result : α → β) :
    Restores tokens (do return result (← step)) :=
  front.bind fun item => restores_pure (result item)

theorem restores_check (fact : Prop) [Decidable fact] : Restores tokens (check fact) := by
  intro before item after runs
  simp only [Runs, check] at runs
  split at runs
  · cases runs
    exact ⟨rfl, rfl⟩
  · cases runs

theorem restores_moveTo (further : Nat) : Restores tokens (moveTo further) := by
  intro before item after runs
  simp only [Runs, moveTo] at runs
  split at runs
  · cases runs
    exact ⟨rfl, rfl⟩
  · cases runs

theorem restores_note (cause : Cause τ) (site : Site τ) : Restores tokens (note cause site) := by
  intro before item after runs
  cases runs
  exact ⟨rfl, rfl⟩

theorem restores_report (cause : Cause τ) (first : Nat) : Restores tokens (report cause first) := by
  intro before item after runs
  simp only [Runs, report] at runs
  split at runs
  · cases runs
  · exact restores_note cause _ before item after runs

theorem restores_reportHere (cause : Cause τ) : Restores tokens (reportHere cause) := by
  apply Restores.bind
  · exact restores_look _
  · exact restores_report cause

theorem restores_isOutside (name : Text) : Restores tokens (isOutside name : Step τ Bool) := by
  intro before item after runs
  simp only [Runs, isOutside] at runs
  split at runs
  · cases runs
  · cases runs
    exact ⟨rfl, rfl⟩

theorem restores_missClose (name : Text) : Restores tokens (missClose name : Step τ Unit) := by
  apply Restores.bind (restores_look _)
  intro found
  apply Restores.ite
  · exact restores_pure _
  · exact restores_reportHere _

/-- A rule of the grammar moves the cursor at most, whether it succeeds or fails. -/
theorem restores_read (reading : Reading τ α) : Restores tokens (read reading) := by
  intro before item after runs
  simp only [Runs, read] at runs
  split at runs
  · cases runs
  · next outcome further _ =>
    have moved : Restores tokens (do moveTo further; return outcome) :=
      (restores_moveTo further).bind fun _ => restores_pure outcome
    exact moved before item after runs

theorem restores_rounds {round : σ → Step τ (σ ⊕ ρ)} (each : ∀ state, Restores tokens (round state))
    (count : Nat) : ∀ state, Restores tokens (rounds round count state) := by
  induction count with
  | zero =>
    intro state before item after runs
    cases runs
  | succ count ih =>
    intro state
    apply Restores.bind (restores_look _)
    intro place
    apply Restores.bind (each state)
    intro outcome
    cases outcome with
    | inr result => exact restores_pure result
    | inl next =>
      apply Restores.bind (restores_look _)
      intro further
      apply Restores.bind (restores_check _)
      intro _
      exact ih next

/-- A loop restores what each of its rounds restores. -/
theorem restores_loop {round : σ → Step τ (σ ⊕ ρ)} (each : ∀ state, Restores tokens (round state))
    (state : σ) : Restores tokens (loop round state) :=
  restores_rounds each (tokens.length + 1) state

variable [Terminal τ]

theorem restores_skip : Restores tokens (skip : Step τ Unit) := by
  apply restores_loop
  intro _
  apply Restores.bind (restores_look _)
  intro found
  cases found with
  | none => exact restores_pure _
  | some token =>
    apply Restores.ite (restores_pure _)
    apply Restores.bind (restores_look _)
    intro here
    exact (restores_moveTo _).yields _

theorem restores_recover (failure : Failure τ) : Restores tokens (recover failure) := by
  have resumed : Restores tokens (checkResumed : Step τ Unit) := by
    intro before item after runs
    exact restores_check _ before item after runs
  apply Restores.bind (restores_look _)
  intro here
  apply Restores.bind (restores_check _)
  intro _
  apply Restores.bind (restores_moveTo _)
  intro _
  apply Restores.bind restores_skip
  intro _
  apply Restores.bind resumed
  intro _
  exact restores_report _ _

/-- What follows a rule, on success and on failure. -/
theorem restores_readThen {reading : Reading τ α} {next : Outcome τ α → Step τ β}
    (read : ∀ item, Restores tokens (next (.ok item)))
    (failed : ∀ failure, ∃ result, next (.error failure) = do recover failure; return result) :
    Restores tokens (Descent.read reading >>= next) := by
  apply Restores.bind (restores_read reading)
  intro outcome
  cases outcome with
  | ok item => exact read item
  | error failure =>
    obtain ⟨result, same⟩ := failed failure
    rw [same]
    exact (restores_recover failure).yields _

theorem restores_ownClose (children : List (Child τ)) : Restores tokens (ownClose children) := by
  apply restores_readThen
  · intro close
    exact restores_pure _
  · intro failure
    exact ⟨_, rfl⟩

theorem restores_strayClose (name : Text) (token : τ) (children : List (Child τ)) :
    Restores tokens (strayClose name token children) := by
  apply Restores.bind (restores_look _)
  intro first
  apply restores_readThen
  · intro close
    exact (restores_report _ _).yields _
  · intro failure
    exact ⟨_, rfl⟩

theorem restores_finishContent (name : Text) (children : List (Child τ)) :
    Restores tokens (finishContent name children) := by
  have ends : Restores tokens (do missClose name; return (.inr (children, none)) :
      Step τ (List (Child τ) ⊕ (List (Child τ) × Option (CloseTag τ)))) :=
    (restores_missClose name).yields _
  apply Restores.bind (restores_look _)
  intro found
  cases found with
  | none => exact ends
  | some token =>
    apply Restores.ite _ ends
    apply Restores.ite (restores_ownClose children)
    apply Restores.ite (restores_pure _)
    apply Restores.bind (restores_isOutside _)
    intro around
    exact Restores.ite ends (restores_strayClose name token children)

theorem restores_finishBlock (opened : Text) (branches : List (Branch τ)) :
    Restores tokens (finishBlock opened branches) := by
  apply restores_readThen
  · intro finish
    apply Restores.ite (restores_pure _)
    exact (restores_note _ _).yields _
  · intro failure
    exact ⟨_, rfl⟩

section

variable {child : Step τ (Outcome τ (Child τ))} (restores : Restores tokens child)

include restores

theorem restores_content (stops : Option (List Text)) (children : List (Child τ)) :
    Restores tokens (content child stops children) := by
  apply restores_loop
  intro children
  apply Restores.bind (restores_look _)
  intro begins
  apply Restores.ite
  · apply Restores.bind restores
    intro outcome
    cases outcome with
    | ok item => exact restores_pure _
    | error failure => exact (restores_recover failure).yields _
  · exact restores_pure _

theorem restores_inside (name : Text) (children : List (Child τ)) :
    Restores tokens (loop (elementRound child name) children) := by
  apply restores_loop
  intro children
  apply Restores.bind (restores_content restores _ _)
  intro filled
  exact restores_finishContent name filled

/-- An element is left just as it was entered if its content restores what is open. -/
theorem restores_element (head : Head τ) (angle : τ) :
    Restores tokens (element child head angle) := by
  apply Restores.bind (restores_look _)
  intro around
  apply Restores.ite (restores_pure _)
  apply Restores.ite
  · exact (restores_note _ _).yields _
  · intro before item after runs
    obtain ⟨_, within, entering, runs⟩ := runs.exists_of_bind
    cases entering
    obtain ⟨⟨children, close⟩, ended, reading, runs⟩ := runs.exists_of_bind
    obtain ⟨_, left, leaving, runs⟩ := runs.exists_of_bind
    cases leaving
    cases runs
    obtain ⟨names, depth⟩ := restores_inside restores _ [] _ _ _ reading
    constructor
    · show ended.names.dropLast = before.names
      rw [names, List.dropLast_concat]
    · show ended.depth - 1 = before.depth
      rw [depth, Nat.add_sub_cancel]

theorem restores_branch (marker : Marker τ) : Restores tokens (branch child marker) := by
  apply Restores.bind (restores_look _)
  intro around
  apply Restores.ite
  · exact (restores_note _ _).yields _
  · intro before item after runs
    obtain ⟨_, within, entering, runs⟩ := runs.exists_of_bind
    cases entering
    obtain ⟨children, ended, reading, runs⟩ := runs.exists_of_bind
    obtain ⟨_, left, leaving, runs⟩ := runs.exists_of_bind
    cases leaving
    cases runs
    obtain ⟨names, depth⟩ := restores_content restores none [] _ _ _ reading
    constructor
    · exact names
    · show ended.depth - 1 = before.depth
      rw [depth, Nat.add_sub_cancel]

theorem restores_block (marker : Marker τ) : Restores tokens (block child marker) := by
  apply Restores.bind (restores_branch restores marker)
  intro first
  apply Restores.bind _ fun result => restores_pure _
  apply restores_loop
  intro branches
  apply Restores.bind (restores_look _)
  intro continues
  apply Restores.ite
  · apply restores_readThen
    · intro marker
      exact (restores_branch restores marker).yields _
    · intro failure
      exact ⟨_, rfl⟩
  · apply Restores.bind (restores_look _)
    intro closes
    apply Restores.ite (restores_finishBlock _ branches)
    apply Restores.bind (restores_look _)
    intro found
    exact (restores_reportHere _).yields _

theorem restores_childOf : Restores tokens (childOf child) := by
  apply Restores.bind (restores_read _)
  intro outcome
  cases outcome with
  | error failure => exact restores_pure _
  | ok piece =>
    cases piece with
    | whole item => exact restores_pure _
    | element head angle => exact (restores_element restores head angle).yields _
    | branch marker => exact (restores_block restores marker).yields _

theorem restores_outside (children : List (Child τ)) :
    Restores tokens (loop (rootRound child) children) := by
  apply restores_loop
  intro children
  apply Restores.bind (restores_content restores none children)
  intro filled
  apply Restores.bind (restores_look _)
  intro found
  cases found with
  | none => exact restores_pure _
  | some token =>
    apply Restores.bind (restores_look _)
    intro first
    apply Restores.bind (restores_moveTo _)
    intro _
    apply Restores.bind restores_skip
    intro _
    exact (restores_report _ _).yields _

end

theorem restores_child (levels : Nat) : Restores tokens (child levels : Step τ _) := by
  induction levels with
  | zero =>
    intro before item after runs
    cases runs
  | succ levels ih => exact restores_childOf ih

/-- Each rule that reads children restores what is open, whatever it yields. -/
structure RulesRestore (tokens : List τ) (inner : Step τ (Outcome τ (Child τ))) : Prop where
  child : Restores tokens inner
  content : ∀ stops children, Restores tokens (content inner stops children)
  inside : ∀ name children, Restores tokens (loop (elementRound inner name) children)
  element : ∀ head angle, Restores tokens (element inner head angle)
  branch : ∀ marker, Restores tokens (branch inner marker)
  block : ∀ marker, Restores tokens (block inner marker)
  outside : ∀ children, Restores tokens (loop (rootRound inner) children)

theorem rulesRestore_child (levels : Nat) :
    RulesRestore tokens (child levels : Step τ _) where
  child := restores_child levels
  content := restores_content (restores_child levels)
  inside := restores_inside (restores_child levels)
  element := restores_element (restores_child levels)
  branch := restores_branch (restores_child levels)
  block := restores_block (restores_child levels)
  outside := restores_outside (restores_child levels)

/-- A part of reading comes to an end where a reader stands, with what was open before it. -/
def Returns (tokens : List τ) (step : Step τ α) (before : Reader τ) : Prop :=
  ∃ item after, Runs tokens step before item after ∧
    after.names = before.names ∧ after.depth = before.depth

omit [Terminal τ] in
theorem Restores.returns {step : Step τ α} {before after : Reader τ} {item : α}
    (restores : Restores tokens step) (runs : Runs tokens step before item after) :
    Returns tokens step before :=
  ⟨item, after, runs, restores before item after runs⟩

/-- Where a reader stands inside some open frames, each rule that reads children returns. So many
levels are left as may still be opened. -/
structure RulesReturn (tokens : List τ) (frames : List (Frame τ)) (levels : Nat)
    (reader : Reader τ) : Prop where
  child : startsChild (stopsOf frames) (tokens.drop reader.place) = true →
    Returns tokens (child (levels + 1)) reader
  content : ∀ children,
    Returns tokens (content (Descent.child (levels + 1)) (stopsOf frames) children) reader
  element : ∀ head angle, Returns tokens (element (Descent.child levels) head angle) reader
  branch : ∀ marker, Returns tokens (branch (Descent.child levels) marker) reader
  block : ∀ marker, Returns tokens (block (Descent.child levels) marker) reader

theorem rulesReturn_of_fits (builder : Builder τ) {reader : Reader τ} {levels : Nat}
    (fits : Fits tokens builder.frames reader)
    (left : builder.frames.length + levels = maxNesting) :
    RulesReturn tokens builder.frames levels reader := by
  have serves : Serves tokens (Descent.child (levels + 1)) builder.frames.length :=
    child_serves tokens levels builder.frames.length left
  have deeper : builder.frames.length < maxNesting →
      Serves tokens (Descent.child levels) (builder.frames.length + 1) := by
    intro roomy
    obtain ⟨fewer, rfl⟩ : ∃ fewer, levels = fewer + 1 := ⟨levels - 1, by omega⟩
    exact child_serves tokens fewer (builder.frames.length + 1) (by omega)
  refine ⟨?_, ?_, ?_, ?_, ?_⟩
  · intro begins
    cases serves builder reader rfl fits begins with
    | read runs => exact (restores_child _).returns runs
    | broken _ runs => exact (restores_child _).returns runs
  · intro children
    have fresh : Holds tokens ((builder.holding children).standAt tokens reader) reader.place
        builder children reader := .refl (fits_holding.mpr fits)
    obtain ⟨result, after, runs, -⟩ := content_runs builder serves fresh
    exact (restores_content (restores_child _) _ _).returns runs
  · intro head angle
    obtain ⟨item, after, runs, -⟩ := element_leads deeper fits head angle
    exact (restores_element (restores_child _) head angle).returns runs
  · intro marker
    obtain ⟨children, after, runs, -⟩ := branch_runs deeper fits [] marker
    exact (restores_branch (restores_child _) marker).returns runs
  · intro marker
    obtain ⟨item, after, runs, -⟩ := block_leads deeper fits marker
    exact (restores_block (restores_child _) marker).returns runs

end Descent

/-- Nesting is bounded. A child of the tree lies inside no more than so many elements and branches,
what stands at the limit has no content and no closing tag, and each such place is recorded once,
in order. The descent builds this tree. Each of its rules, whether it succeeds or fails, leaves the
names of the open elements and the depth as it found them, and where a reader stands inside open
frames the rules do come to an end. -/
theorem build_nests [Terminal τ] (tokens : List τ) :
    Child.AllNest 0 (build tokens).children ∧
      (build tokens).faults.filterMap Fault.tooDeep? =
        Child.allDeepest 0 (build tokens).children ∧
      Descent.parse tokens = some (build tokens) ∧
      (∀ {α : Type} (reading : Reading τ α), Descent.Restores tokens (Descent.read reading)) ∧
      (∀ failure : Failure τ, Descent.Restores tokens (Descent.recover failure)) ∧
      (∀ levels, Descent.RulesRestore tokens (Descent.child levels : Descent.Step τ _)) ∧
      ∀ (frames : List (Frame τ)) (reader : Descent.Reader τ) (levels : Nat),
        Descent.Fits tokens frames reader → frames.length + levels = maxNesting →
          Descent.RulesReturn tokens frames levels reader := by
  obtain ⟨bounded, recorded⟩ := nests_build tokens
  refine ⟨bounded, recorded, Descent.parse_eq_build tokens, Descent.restores_read,
    Descent.restores_recover, Descent.rulesRestore_child, ?_⟩
  intro frames reader levels fits left
  exact Descent.rulesReturn_of_fits ⟨[], frames, [], []⟩ fits left

end Template.Concrete
