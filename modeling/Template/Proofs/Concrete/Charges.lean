import Template.Proofs.Concrete.Ledger

set_option autoImplicit false

namespace Template.Concrete

open Terminal (kind tagName blockName)
open Rule

variable {τ : Type}

theorem Head.length_yield_pos (head : Head τ) : 0 < head.yield.length := Nat.succ_pos _

/-- A marker has at least its braces and its name. -/
theorem Marker.three_le_length_yield (marker : Marker τ) : 3 ≤ marker.yield.length := by
  simp only [Marker.yield, List.length_append, List.length_cons, List.length_nil]
  omega

/-- A closing tag has at least its name and its angle bracket. -/
theorem CloseTag.two_le_length_yield (close : CloseTag τ) : 2 ≤ close.yield.length := by
  simp only [CloseTag.yield, List.length_append, List.length_cons, List.length_nil]
  omega

namespace Builder

/-- What has been charged so far, with what may still be: the faults, one for each open frame, and
one for each token left. -/
def charged (builder : Builder τ) : Nat :=
  builder.faults.length + builder.frames.length + builder.rest.length

@[simp] theorem charged_add (builder : Builder τ) (child : Child τ) :
    (builder.add child).charged = builder.charged := by
  rw [charged, faults_add, frames_length_add, rest_add, charged]

@[simp] theorem charged_note (builder : Builder τ) (cause : Cause τ) (site : Site τ) :
    (builder.note cause site).charged = builder.charged + 1 := by
  simp only [charged, note, List.length_cons]
  omega

theorem charged_noteDepth_le (builder : Builder τ) (depth : Nat) (first last : τ) :
    (builder.noteDepth depth first last).charged ≤ builder.charged + 1 := by
  unfold noteDepth
  split
  · exact Nat.le_of_eq (charged_note _ _ _)
  · exact Nat.le_succ _

/-- A frame that is closed no longer stands for a fault. -/
theorem charged_endElement {builder : Builder τ} (after : Builder τ) {below : List (Frame τ)}
    {head : Head τ} {angle : τ} {children : List (Child τ)} (close : Option (CloseTag τ))
    (inside : builder.frames = .element head angle children :: below)
    (same : after.frames = builder.frames) :
    (after.endElement below head angle children close).charged + 1 = after.charged := by
  rw [endElement, charged_add]
  simp only [charged, same, inside, List.length_cons]
  omega

theorem charged_endBlock {builder : Builder τ} (after : Builder τ) {below : List (Frame τ)}
    {earlier : List (Branch τ)} {marker : Marker τ} {children : List (Child τ)}
    (finish : Option (BlockEnd τ))
    (inside : builder.frames = .block earlier marker children :: below)
    (same : after.frames = builder.frames) :
    (after.endBlock below earlier marker children finish).charged + 1 = after.charged := by
  rw [endBlock, charged_add]
  simp only [charged, same, inside, List.length_cons]
  omega

variable [Terminal τ] {before after : Builder τ}

theorem charged_noteWrongEnd_le (builder : Builder τ) (opened : Text) (name : τ) :
    (builder.noteWrongEnd opened name).charged ≤ builder.charged + 1 := by
  unfold noteWrongEnd
  split
  · exact Nat.le_succ _
  · exact Nat.le_of_eq (charged_note _ _ _)

theorem frames_noteWrongEnd (builder : Builder τ) (opened : Text) (name : τ) :
    (builder.noteWrongEnd opened name).frames = builder.frames := by
  unfold noteWrongEnd
  split <;> rfl

/-- To recover is charged one fault, less the tokens that the rule has taken. -/
theorem charged_recover_le (builder : Builder τ) (mismatch : Mismatch τ) :
    (builder.recover mismatch).charged + builder.rest.length ≤
      builder.charged + mismatch.rest.length + 1 := by
  have dropped := length_resumed_le mismatch.rest
  rw [recover, charged_note]
  simp only [charged]
  omega

/-- A rule that fails after its first token has paid for its fault. -/
theorem charged_recover_of_commits {α : Type} {rule : Rule τ α} {token : τ} {rest : List τ}
    {mismatch : Mismatch τ} (here : before.rest = token :: rest) (commits : Commits rule token)
    (failed : rule before.rest = .error mismatch) :
    (before.recover mismatch).charged ≤ before.charged := by
  have taken := commits rest
  rw [← here, failed] at taken
  change mismatch.rest.length < before.rest.length at taken
  have bounded := charged_recover_le before mismatch
  omega

/-- A rule that fails where a frame is closed is charged for what the frame stood for. -/
theorem charged_recover_of_shrinks {α : Type} {rule : Rule τ α} {mismatch : Mismatch τ}
    (shrinks : Shrinks rule) (failed : rule before.rest = .error mismatch) :
    (before.recover mismatch).charged ≤ before.charged + 1 := by
  have shorter := shrinks.length_le before.rest
  rw [failed] at shorter
  change mismatch.rest.length ≤ before.rest.length at shorter
  have bounded := charged_recover_le before mismatch
  omega

omit [Terminal τ] in
/-- The tokens that are taken are no longer charged. -/
theorem charged_read {read rest : List τ} (here : before.rest = read ++ rest) :
    ({ before with rest } : Builder τ).charged + read.length = before.charged := by
  simp only [charged, here, List.length_append]
  omega

/-- No step is charged more than it pays. -/
theorem charged_of_does (does : Does before after) : after.charged ≤ before.charged := by
  cases does with
  | broken wants failed =>
    obtain ⟨token, rest, here, begins⟩ := begins_of_wantsChild before wants
    exact charged_recover_of_commits here (piece_commits begins) failed
  | leaf _ here =>
    rw [charged_add]
    have paid := charged_read here
    omega
  | void reads =>
    rw [charged_add]
    have paid := charged_read (reads.here.trans (List.append_cons _ _ _))
    omega
  | @flat head angle rest reads =>
    rw [charged_add, charged_note]
    have paid := charged_read (reads.here.trans (List.append_cons _ _ _))
    rw [List.length_append, List.length_singleton] at paid
    omega
  | @openElement head angle rest reads =>
    -- The head pays for the element, its angle bracket for the fault where the element ends.
    have paid := charged_read (reads.here.trans (List.append_cons _ _ _))
    have filled := head.length_yield_pos
    rw [List.length_append, List.length_singleton] at paid
    simp only [charged, List.length_cons] at paid ⊢
    omega
  | @openBlock marker rest _ here =>
    have paid := charged_read here
    have filled := marker.three_le_length_yield
    have deep := charged_noteDepth_le
      { before with rest, frames := .block [] marker [] :: before.frames }
      before.frames.length marker.opening marker.closing
    unfold openBlock
    simp only [charged, List.length_cons] at paid deep ⊢
    omega
  | @endClosed _ _ _ _ close rest ends _ here =>
    have paid := charged_read here
    have closed := charged_endElement { before with rest } (some close) ends.inside rfl
    omega
  | @endBroken _ _ _ _ mismatch ends _ failed =>
    have charge := charged_recover_of_shrinks closeTag_shrinks failed
    have closed := charged_endElement (before.recover mismatch) none ends.inside rfl
    omega
  | endSilent ends =>
    have closed := charged_endElement before none ends.inside rfl
    omega
  | @endMissing _ head _ _ ends =>
    have closed := charged_endElement (before.noteMissingClose (nameOf head)) none ends.inside rfl
    have charge : (before.noteMissingClose (nameOf head)).charged = before.charged + 1 :=
      charged_note _ _ _
    omega
  | @stray _ _ _ _ _ close _ _ _ here =>
    rw [charged_note]
    have paid := charged_read here
    have filled := close.two_le_length_yield
    omega
  | strayBroken _ ending failed =>
    obtain ⟨rest, here, same⟩ := closeTag_of_stray _ _ _ _ ending
    exact charged_recover_of_commits here (closeTag_commits same) failed
  | @turn below earlier marker next children rest ends here =>
    have paid := charged_read here
    have filled := next.three_le_length_yield
    have deep := charged_noteDepth_le
      { before with
        rest, frames := .block (⟨marker, children.reverse⟩ :: earlier) next [] :: below }
      below.length next.opening next.closing
    simp only [charged, ends.inside, List.length_cons] at paid deep ⊢
    omega
  | @turnBroken _ _ _ _ mismatch ends _ failed =>
    have charge := charged_recover_of_shrinks (marker_shrinks _) failed
    have closed := charged_endBlock (before.recover mismatch) none ends.inside rfl
    omega
  | @endBlock _ earlier marker _ finish rest ends here =>
    have paid := charged_read here
    have charge := charged_noteWrongEnd_le { before with rest }
      (blockName (firstMarker earlier marker).name) finish.name
    have closed := charged_endBlock _ (some finish) ends.inside
      (frames_noteWrongEnd { before with rest } (blockName (firstMarker earlier marker).name)
        finish.name)
    omega
  | @endBlockBroken _ _ _ _ mismatch ends _ failed =>
    have charge := charged_recover_of_shrinks blockEnd_shrinks failed
    have closed := charged_endBlock (before.recover mismatch) none ends.inside rfl
    omega
  | @endBlockMissing _ earlier marker _ ends =>
    have closed := charged_endBlock
      (before.note (.missingEnd (blockName (firstMarker earlier marker).name) before.rest.head?)
        (.at before.rest)) none ends.inside rfl
    rw [charged_note] at closed
    omega
  | @dropUnexpected token rest _ _ here =>
    have dropped := length_resumed_le rest
    rw [dropUnexpected, charged_note]
    simp only [charged, here, List.length_cons]
    omega

/-- At every moment of building there are no more faults and open frames than tokens taken. -/
theorem charged_of_reaches {tokens : List τ} {builder : Builder τ}
    (reached : machine.Reaches (.start tokens) builder) : builder.charged ≤ tokens.length := by
  apply reached.keeps fun builder => builder.charged ≤ tokens.length
  · intro before after bounded taken
    exact Nat.le_trans (charged_of_does (does_of_step taken)) bounded
  · exact Nat.le_of_eq (Nat.zero_add _)

/-- Nothing is dropped before a closing tag. -/
theorem resumed_of_closeTags {tokens : List τ}
    (closers : ∀ token ∈ tokens, kind token = .closeTag) : resumed tokens = tokens := by
  cases tokens with
  | nil => rfl
  | cons token rest =>
    have closer := closers token List.mem_cons_self
    simp only [resumed, List.dropWhile_cons, closer, resumes, Bool.not_true, Bool.false_eq_true,
      ↓reduceIte]

/-- Outside all elements each of some closing tags is dropped with a fault of its own. -/
theorem length_faults_exhaust (tokens : List τ) (faults : List (Fault τ))
    (closers : ∀ token ∈ tokens, kind token = .closeTag) :
    (machine.exhaust ⟨tokens, [], [], faults⟩).faults.length = tokens.length + faults.length := by
  induction tokens generalizing faults with
  | nil => rw [machine.exhaust_of_none _ rfl, List.length_nil, Nat.zero_add]
  | cons token rest ih =>
    obtain ⟨closer, others⟩ := List.forall_mem_cons.mp closers
    have taken : machine.step ⟨token :: rest, [], [], faults⟩ =
        some (dropUnexpected ⟨token :: rest, [], [], faults⟩ token rest) := by
      simp only [machine, step, wantsChild, startsChild, closer, Bool.false_eq_true, ↓reduceIte]
    rw [machine.exhaust_of_some _ _ taken, dropUnexpected, note, resumed_of_closeTags others,
      ih _ others, List.length_cons, List.length_cons, Nat.add_right_comm, Nat.add_assoc]

end Builder

variable [Terminal τ]

/-- Recovery never floods: whatever the tokens, at most as many faults are recorded as there are
tokens. -/
theorem length_faults_le (tokens : List τ) :
    (build tokens).faults.length ≤ tokens.length := by
  have charged := Builder.charged_of_reaches (Builder.machine.reaches_exhaust (.start tokens))
  calc (build tokens).faults.length
      = (Builder.machine.exhaust (.start tokens)).faults.length := List.length_reverse
    _ ≤ (Builder.machine.exhaust (.start tokens)).charged := by
        unfold Builder.charged
        omega
    _ ≤ tokens.length := charged

/-- The bound is met: of closing tags that nothing opens each has its fault. -/
theorem length_faults_closeTags {tokens : List τ}
    (closers : ∀ token ∈ tokens, kind token = .closeTag) :
    (build tokens).faults.length = tokens.length :=
  List.length_reverse.trans (Builder.length_faults_exhaust tokens [] closers)

end Template.Concrete
