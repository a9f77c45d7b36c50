import Template.Proofs.Concrete.Ledger

set_option autoImplicit false

namespace Template.Concrete

open Terminal (kind tagName blockName)
open Rule

variable {τ : Type}

/-- What is recorded where some tokens are taken and others left: nothing, or one fault more. -/
inductive Records (read rest : List τ) (faults : List (Fault τ)) : List (Fault τ) → Prop where
  | nothing : Records read rest faults faults
  | across {first last : τ} (cause : Cause τ) (within : (Site.across first last).Within read) :
      Records read rest faults (⟨cause, .across first last⟩ :: faults)
  | here (cause : Cause τ) : Records read rest faults (⟨cause, .at rest⟩ :: faults)

/-- No fault is forgotten. -/
theorem Records.suffix {read rest : List τ} {faults others : List (Fault τ)}
    (records : Records read rest faults others) : faults <:+ others := by
  cases records with
  | nothing => exact List.suffix_refl _
  | across | here => exact List.suffix_cons _ _

namespace Builder

/-- Tokens are taken from the front, and one fault at most is recorded about them or about the place
after them. -/
structure Advances (before after : Builder τ) (read : List τ) : Prop where
  here : before.rest = read ++ after.rest
  records : Records read after.rest before.faults after.faults

variable {before after : Builder τ} {read rest : List τ}

/-- Tokens are taken and nothing is recorded. -/
theorem advances_read (here : before.rest = read ++ rest) (frames : List (Frame τ))
    (children : List (Child τ)) : Advances before ⟨rest, frames, children, before.faults⟩ read :=
  ⟨here, .nothing⟩

/-- A fault is recorded about tokens that are taken. -/
theorem advances_across (here : before.rest = read ++ rest) (frames : List (Frame τ))
    (children : List (Child τ)) (cause : Cause τ) {first last : τ}
    (within : (Site.across first last).Within read) :
    Advances before ⟨rest, frames, children, ⟨cause, .across first last⟩ :: before.faults⟩ read :=
  ⟨here, .across cause within⟩

/-- Adding a child to what is open then takes no token and records nothing. -/
theorem Advances.add (advances : Advances before after read) (frames : List (Frame τ))
    (child : Child τ) : Advances before ({ after with frames }.add child) read := by
  refine ⟨?_, ?_⟩
  · rw [rest_add]
    exact advances.here
  · rw [rest_add, faults_add]
    exact advances.records

/-- Nothing more than the depth of a branch is recorded with its marker. -/
theorem advances_noteDepth (here : before.rest = read ++ rest) (frames : List (Frame τ))
    (children : List (Child τ)) (depth : Nat) {first last : τ}
    (within : (Site.across first last).Within read) :
    Advances before
      (Builder.noteDepth ⟨rest, frames, children, before.faults⟩ depth first last) read := by
  unfold noteDepth
  split
  · exact advances_across here frames children _ within
  · exact advances_read here frames children

/-- What was dropped is recorded, or else the place where reading goes on. -/
theorem records_dropped (lost dropped rest : List τ) (cause : Cause τ) (faults : List (Fault τ)) :
    Records (lost ++ dropped) rest faults (⟨cause, .dropped dropped rest⟩ :: faults) := by
  cases dropped with
  | nil => exact .here cause
  | cons token more =>
    refine .across cause ⟨token :: more, (List.suffix_append _ _).isInfix, rfl, ?_⟩
    rw [List.getLast?_cons, List.getLastD_eq_getLast?]

variable [Terminal τ]

/-- A rule that fails takes the tokens it has lost and those that are dropped. -/
theorem advances_recover {α : Type} {rule : Rule τ α} (shrinks : Shrinks rule)
    {mismatch : Mismatch τ} (failed : rule before.rest = .error mismatch) :
    ∃ read, Advances before (before.recover mismatch) read := by
  obtain ⟨lost, here⟩ := shrinks before.rest
  rw [failed] at here
  refine ⟨lost ++ unread mismatch.rest, ?_, records_dropped _ _ _ _ _⟩
  show _ = _ ++ resumed mismatch.rest
  rw [List.append_assoc, unread_append_resumed]
  exact here.symm

/-- A step takes tokens from the front and records one fault at most about them. -/
theorem advances_of_does (does : Does before after) : ∃ read, Advances before after read := by
  cases does with
  | broken _ failed => exact advances_recover piece_shrinks failed
  | leaf _ here => exact ⟨_, (advances_read here before.frames _).add _ _⟩
  | @void head angle rest reads =>
    have here := reads.here.trans (List.append_cons _ _ _)
    exact ⟨_, (advances_read here before.frames _).add _ _⟩
  | @flat head angle rest reads =>
    have here := reads.here.trans (List.append_cons _ _ _)
    have within : (Site.across head.opening angle).Within (head.yield ++ [angle]) := within_head rfl
    exact ⟨_, (advances_across here before.frames before.children _ within).add _ _⟩
  | openElement reads => exact ⟨_, advances_read (reads.here.trans (List.append_cons _ _ _)) _ _⟩
  | openBlock _ here =>
    exact ⟨_, advances_noteDepth here _ _ _ (within_marker (List.append_nil _).symm)⟩
  | endClosed _ _ here => exact ⟨_, (advances_read here before.frames _).add _ _⟩
  | endBroken _ _ failed =>
    obtain ⟨read, advances⟩ := advances_recover closeTag_shrinks failed
    exact ⟨read, advances.add _ _⟩
  | endSilent => exact ⟨[], (advances_read rfl before.frames _).add _ _⟩
  | endMissing => exact ⟨[], Advances.add ⟨rfl, .here _⟩ _ _⟩
  | @stray _ _ _ _ _ close _ _ _ here =>
    have within : (Site.across close.opening close.angle).Within close.yield :=
      within_run (List.append_nil _).symm rfl List.getLast?_concat
    exact ⟨_, advances_across here before.frames before.children _ within⟩
  | strayBroken _ _ failed => exact advances_recover closeTag_shrinks failed
  | turn _ here => exact ⟨_, advances_noteDepth here _ _ _ (within_marker (List.append_nil _).symm)⟩
  | turnBroken _ _ failed =>
    obtain ⟨read, advances⟩ := advances_recover (marker_shrinks _) failed
    exact ⟨read, advances.add _ _⟩
  | @endBlock _ _ _ _ finish rest _ here =>
    unfold noteWrongEnd
    split
    · exact ⟨_, (advances_read here before.frames _).add _ _⟩
    · have within : (Site.across finish.name finish.name).Within finish.yield :=
        ⟨[finish.name], ⟨[finish.opening], finish.blank.toList ++ [finish.closing], rfl⟩, rfl, rfl⟩
      exact ⟨_, (advances_across here before.frames before.children _ within).add _ _⟩
  | endBlockBroken _ _ failed =>
    obtain ⟨read, advances⟩ := advances_recover blockEnd_shrinks failed
    exact ⟨read, advances.add _ _⟩
  | endBlockMissing => exact ⟨[], Advances.add ⟨rfl, .here _⟩ _ _⟩
  | @dropUnexpected token rest _ _ here =>
    refine ⟨token :: unread rest, ?_, records_dropped [] (token :: unread rest) _ _ _⟩
    rw [here, List.cons_append]
    exact congrArg _ (unread_append_resumed rest).symm

end Builder

end Template.Concrete
