import Template.Proofs.Concrete.Joins

set_option autoImplicit false

namespace Template.Concrete

open Terminal (kind tagName blockName)
open Rule

variable {τ : Type} [Terminal τ] {tokens : List τ}

/-- A cause shows a token that is among some tokens and has its names from such tokens. -/
inductive Cause.DrawnFrom (tokens : List τ) : Cause τ → Prop where
  | mismatch (expected : Expected) {found : Option τ} (shown : found.toList ⊆ tokens) :
      DrawnFrom tokens (.mismatch expected found)
  | unexpected {token : τ} (shown : token ∈ tokens) : DrawnFrom tokens (.unexpected token)
  | missingClose {opening : τ} {found : Option τ} (inside : opening ∈ tokens)
      (opens : kind opening = .openTag) (shown : found.toList ⊆ tokens) :
      DrawnFrom tokens (.missingClose (tagName opening) found)
  | strayClose {closing opening : τ} (stray : closing ∈ tokens) (closes : kind closing = .closeTag)
      (inside : opening ∈ tokens) (opens : kind opening = .openTag) :
      DrawnFrom tokens (.strayClose (tagName closing) (tagName opening))
  | missingEnd {opening : τ} {found : Option τ} (inside : opening ∈ tokens)
      (opens : kind opening = .block .opening) (shown : found.toList ⊆ tokens) :
      DrawnFrom tokens (.missingEnd (blockName opening) found)
  | wrongEnd {opening closing : τ} (inside : opening ∈ tokens)
      (opens : kind opening = .block .opening) (wrong : closing ∈ tokens)
      (closes : kind closing = .block .closing) :
      DrawnFrom tokens (.wrongEnd (blockName opening) (blockName closing))
  | tooDeep : DrawnFrom tokens .tooDeep

theorem Head.Joined.opening {head : Head τ} {angle : τ} (joined : head.Joined tokens angle) :
    head.opening ∈ tokens ∧ kind head.opening = .openTag := by
  obtain ⟨beside, _, formed⟩ := joined
  exact ⟨beside.subset List.mem_cons_self, formed.opening⟩

/-- The first marker of a block that is open opens it. -/
theorem Frame.Joined.firstMarker {earlier : List (Branch τ)} {marker : Marker τ}
    {children : List (Child τ)} (joined : (Frame.block earlier marker children).Joined tokens) :
    (Builder.firstMarker earlier marker).name ∈ tokens ∧
      kind (Builder.firstMarker earlier marker).name = .block .opening := by
  obtain ⟨first, others, -, same, ⟨beside, formed⟩, -⟩ := joined.exists_first
  rw [same]
  exact ⟨beside.subset (List.mem_cons_of_mem _ List.mem_cons_self), formed.name⟩

namespace Builder

variable {before after : Builder τ}

/-- The causes of all that is recorded are drawn from some tokens. -/
def Draws (tokens : List τ) (builder : Builder τ) : Prop :=
  ∀ fault ∈ builder.faults, fault.cause.DrawnFrom tokens

/-- One fault more is recorded. -/
theorem Draws.cons {fault : Fault τ} (draws : before.Draws tokens)
    (noted : after.faults = fault :: before.faults) (drawn : fault.cause.DrawnFrom tokens) :
    after.Draws tokens := by
  rw [Draws, noted]
  exact List.forall_mem_cons.mpr ⟨drawn, draws⟩

/-- Nothing more is recorded. -/
theorem Draws.keep (draws : before.Draws tokens) (same : after.faults = before.faults) :
    after.Draws tokens := by
  rw [Draws, same]
  exact draws

/-- Nothing more is recorded than the depth. -/
theorem Draws.noteDepth (draws : before.Draws tokens) (same : after.faults = before.faults)
    (depth : Nat) (first last : τ) : (after.noteDepth depth first last).Draws tokens := by
  unfold Builder.noteDepth
  split
  · exact (draws.keep same).cons rfl .tooDeep
  · exact draws.keep same

omit [Terminal τ] in
/-- A token that comes next is one of the input. -/
theorem head?_subset {rest : List τ} (remains : rest <:+ tokens) : rest.head?.toList ⊆ tokens := by
  intro token member
  exact remains.subset (List.mem_of_head? (Option.mem_toList.mp member))

/-- A rule that fails shows the token at which it does. -/
theorem Draws.recover {α : Type} {rule : Rule τ α} {mismatch : Mismatch τ}
    (draws : before.Draws tokens) (remains : before.rest <:+ tokens) (shrinks : Shrinks rule)
    (failed : rule before.rest = .error mismatch) : (before.recover mismatch).Draws tokens := by
  have left := shrinks before.rest
  rw [failed] at left
  exact draws.cons rfl (.mismatch _ (head?_subset (left.trans remains)))

/-- One step records only causes that are drawn from the input. -/
theorem draws_of_does (does : Does before after) (remains : before.rest <:+ tokens)
    (joined : before.Joined tokens) (draws : before.Draws tokens) : after.Draws tokens := by
  have innermost : ∀ {frame : Frame τ} {below : List (Frame τ)},
      before.frames = frame :: below → frame.Joined tokens := by
    intro frame below inside
    exact joined.frames frame (inside ▸ List.mem_cons_self)
  cases does with
  | broken _ failed => exact draws.recover remains piece_shrinks failed
  | leaf | void | endClosed | endSilent => exact draws.keep (faults_add _ _)
  | flat =>
    apply Draws.cons draws (faults_add _ _)
    exact .tooDeep
  | openElement => exact draws.keep rfl
  | openBlock | turn =>
    apply draws.noteDepth
    rfl
  | endBroken _ _ failed =>
    exact (draws.recover remains closeTag_shrinks failed).keep (faults_add _ _)
  | endMissing ends =>
    obtain ⟨inside, opens⟩ := Head.Joined.opening (innermost ends.inside)
    apply draws.cons (faults_add _ _)
    exact .missingClose inside opens (head?_subset remains)
  | stray ends ending =>
    obtain ⟨rest, here, closes⟩ := closeTag_of_stray _ _ _ _ ending
    obtain ⟨inside, opens⟩ := Head.Joined.opening (innermost ends.inside)
    rw [here] at remains
    apply draws.cons rfl
    exact .strayClose (remains.subset List.mem_cons_self) closes inside opens
  | strayBroken _ _ failed => exact draws.recover remains closeTag_shrinks failed
  | turnBroken _ _ failed =>
    exact (draws.recover remains (marker_shrinks _) failed).keep (faults_add _ _)
  | @endBlock _ _ _ _ finish rest ends here sound =>
    unfold noteWrongEnd
    split
    · exact draws.keep (faults_add _ _)
    · obtain ⟨inside, opens⟩ := (innermost ends.inside).firstMarker
      rw [here] at remains
      have wrong : finish.name ∈ finish.yield ++ rest :=
        List.mem_append_left _ (List.mem_cons_of_mem _ List.mem_cons_self)
      apply draws.cons (faults_add _ _)
      exact .wrongEnd inside opens (remains.subset wrong) sound.name
  | endBlockBroken _ _ failed =>
    exact (draws.recover remains blockEnd_shrinks failed).keep (faults_add _ _)
  | endBlockMissing ends =>
    obtain ⟨inside, opens⟩ := (innermost ends.inside).firstMarker
    apply draws.cons (faults_add _ _)
    exact .missingEnd inside opens (head?_subset remains)
  | dropUnexpected _ _ here =>
    rw [here] at remains
    exact draws.cons rfl (.unexpected (remains.subset List.mem_cons_self))

end Builder

/-- Every cause that building records is drawn from its tokens. -/
theorem drawnFrom_build (tokens : List τ) :
    ∀ fault ∈ (build tokens).faults, fault.cause.DrawnFrom tokens := by
  have kept : (Builder.machine.exhaust (.start tokens)).rest <:+ tokens ∧
      (Builder.machine.exhaust (.start tokens)).Joined tokens ∧
      (Builder.machine.exhaust (.start tokens)).Draws tokens := by
    apply (Builder.machine.reaches_exhaust (.start tokens)).keeps fun builder =>
      builder.rest <:+ tokens ∧ builder.Joined tokens ∧ builder.Draws tokens
    · rintro before after ⟨remains, joined, draws⟩ taken
      have does := Builder.does_of_step taken
      exact ⟨(Builder.rest_of_does does).trans remains, Builder.joined_of_does does remains joined,
        Builder.draws_of_does does remains joined draws⟩
    · refine ⟨List.suffix_refl _, ⟨?_, ?_⟩, ?_⟩ <;> exact List.forall_mem_nil _
  intro fault recorded
  exact kept.2.2 fault (List.mem_reverse.mp recorded)

end Template.Concrete
