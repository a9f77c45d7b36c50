import Template.Proofs.Concrete.Sites

set_option autoImplicit false

namespace Template.Concrete

variable {τ : Type} [Terminal τ]

/-- The tokens of a marker stand side by side among some tokens. -/
structure Marker.Joined (tokens : List τ) (sigil : Sigil) (marker : Marker τ) : Prop where
  beside : marker.yield <:+: tokens
  formed : marker.Formed sigil

/-- The markers of a block. The first of them opens it. -/
def Marker.AllJoined (tokens : List τ) : List (Marker τ) → Prop
  | [] => True
  | first :: others =>
    first.Joined tokens .opening ∧ ∀ marker ∈ others, marker.Joined tokens .continuing

/-- The tokens of a head and its angle bracket stand side by side among some tokens. -/
structure Head.Joined (tokens : List τ) (head : Head τ) (angle : τ) : Prop where
  beside : head.yield ++ [angle] <:+: tokens
  formed : ∃ after, head.Formed .whole .openTag (angle :: after)

/-- The tokens of a child up to its content stand side by side among some tokens. -/
def Child.Joined (tokens : List τ) : Child τ → Prop
  | .block first others _ => Marker.AllJoined tokens ((first :: others).map Branch.marker)
  | .void head angle | .element head angle _ _ => head.Joined tokens angle
  | child => child.yield <:+: tokens ∧ ∃ after, child.Formed .whole 0 after

/-- The tokens that opened what is open stand side by side among some tokens. -/
def Frame.Joined (tokens : List τ) : Frame τ → Prop
  | .element head angle _ => head.Joined tokens angle
  | .block earlier marker _ =>
    Marker.AllJoined tokens (earlier.reverse.map Branch.marker ++ [marker])

theorem Marker.AllJoined.concat {tokens : List τ} {markers : List (Marker τ)} {marker : Marker τ}
    (some : markers ≠ []) (joined : AllJoined tokens markers)
    (last : marker.Joined tokens .continuing) : AllJoined tokens (markers ++ [marker]) := by
  cases markers with
  | nil => exact absurd rfl some
  | cons first others =>
    refine ⟨joined.1, List.forall_mem_append.mpr ⟨joined.2, ?_⟩⟩
    exact List.forall_mem_singleton.mpr last

theorem Frame.Joined.add {tokens : List τ} {frame : Frame τ} (joined : frame.Joined tokens)
    (child : Child τ) : (frame.add child).Joined tokens := by
  cases frame <;> exact joined

/-- The first branch of a block that is open, and all its markers. -/
theorem Frame.Joined.exists_first {tokens : List τ} {earlier : List (Branch τ)} {marker : Marker τ}
    {children : List (Child τ)} (joined : (Frame.block earlier marker children).Joined tokens) :
    ∃ first others,
      (∀ finish, Builder.blockOf finish earlier ⟨marker, children.reverse⟩ [] =
        .block first others finish) ∧
      Builder.firstMarker earlier marker = first.marker ∧
      Marker.AllJoined tokens ((first :: others).map Branch.marker) := by
  obtain ⟨first, others, spelled, block, opened⟩ :=
    Builder.exists_blockOf earlier marker children.reverse
  refine ⟨first, others, block, opened, ?_⟩
  rw [← spelled, List.map_append]
  exact joined

theorem Child.joined_of_leaf {tokens after : List τ} {child : Child τ}
    (whole : child.isLeaf = true) (beside : child.yield <:+: tokens)
    (formed : child.Formed .whole 0 after) : ∀ inner ∈ child.family, inner.Joined tokens := by
  cases child with
  | block | void | element => cases whole
  | _ => exact List.forall_mem_singleton.mpr ⟨beside, after, formed⟩

namespace Builder

variable {tokens : List τ}

/-- The tokens of what is open and of what is complete are joined. -/
structure Joined (tokens : List τ) (builder : Builder τ) : Prop where
  frames : ∀ frame ∈ builder.frames, frame.Joined tokens
  finished : ∀ child ∈ builder.finished, child.Joined tokens

theorem ReadsTag.joined {builder : Builder τ} {head : Head τ} {angle : τ} {rest : List τ}
    (reads : builder.ReadsTag head angle rest) (remains : builder.rest <:+ tokens) :
    head.Joined tokens angle := by
  refine ⟨?_, rest, reads.sound⟩
  have here := remains.isInfix
  rw [reads.here, List.append_cons] at here
  exact (List.prefix_append _ rest).isInfix.trans here

theorem joined_marker {builder : Builder τ} {marker : Marker τ} {sigil : Sigil} {rest : List τ}
    (here : builder.rest = marker.yield ++ rest) (sound : marker.Formed sigil)
    (remains : builder.rest <:+ tokens) : marker.Joined tokens sigil := by
  rw [here] at remains
  exact ⟨(List.prefix_append _ rest).isInfix.trans remains.isInfix, sound⟩

theorem Joined.add {builder : Builder τ} {child : Child τ} (joined : builder.Joined tokens)
    (inner : ∀ inner ∈ child.family, inner.Joined tokens) : (builder.add child).Joined tokens := by
  refine ⟨?_, ?_⟩
  · have frames := joined.frames
    obtain ⟨rest, open_, done, faults⟩ := builder
    cases open_ with
    | nil => exact frames
    | cons frame below =>
      obtain ⟨first, others⟩ := List.forall_mem_cons.mp frames
      exact List.forall_mem_cons.mpr ⟨first.add child, others⟩
  · rw [finished_add]
    exact List.forall_mem_append.mpr ⟨joined.finished, inner⟩

/-- One more frame is open, which has no children yet. -/
theorem Joined.push {builder : Builder τ} {frame : Frame τ} (joined : builder.Joined tokens)
    (opened : frame.Joined tokens) (empty : frame.finished = []) :
    Joined tokens { builder with frames := frame :: builder.frames } := by
  refine ⟨List.forall_mem_cons.mpr ⟨opened, joined.frames⟩, ?_⟩
  rw [finished_push builder frame empty]
  exact joined.finished

/-- The innermost frame is closed, and what it holds becomes part of a child. -/
theorem Joined.close {builder : Builder τ} {frame : Frame τ} {below : List (Frame τ)}
    {child : Child τ} (joined : builder.Joined tokens)
    (inside : builder.frames = frame :: below) (family : child.family = child :: frame.finished)
    (whole : frame.Joined tokens → child.Joined tokens) :
    ({ builder with frames := below }.add child).Joined tokens := by
  have frames := joined.frames
  have finished := joined.finished
  rw [inside] at frames
  rw [finished_of_frames inside] at finished
  obtain ⟨first, others⟩ := List.forall_mem_cons.mp frames
  obtain ⟨earlier, held⟩ := List.forall_mem_append.mp finished
  apply Joined.add ⟨others, earlier⟩
  rw [family]
  exact List.forall_mem_cons.mpr ⟨whole first, held⟩

theorem Joined.endElement {builder : Builder τ} {below : List (Frame τ)} {head : Head τ}
    {angle : τ} {children : List (Child τ)} (joined : builder.Joined tokens)
    (inside : builder.frames = .element head angle children :: below)
    (close : Option (CloseTag τ)) :
    (builder.endElement below head angle children close).Joined tokens := by
  apply joined.close inside
  · rfl
  · intro opened
    exact opened

theorem Joined.endBlock {builder : Builder τ} {below : List (Frame τ)} {earlier : List (Branch τ)}
    {marker : Marker τ} {children : List (Child τ)} (joined : builder.Joined tokens)
    (inside : builder.frames = .block earlier marker children :: below)
    (finish : Option (BlockEnd τ)) :
    (builder.endBlock below earlier marker children finish).Joined tokens := by
  apply joined.close inside
  · rw [family_blockOf]
    simp only [Branch.family, Branch.families, List.append_nil, Frame.finished]
  · intro opened
    obtain ⟨first, others, block, -, markers⟩ := opened.exists_first
    rw [block]
    exact markers

/-- One step keeps together what was read side by side. -/
theorem joined_of_does {before after : Builder τ} (does : Does before after)
    (remains : before.rest <:+ tokens) (joined : before.Joined tokens) : after.Joined tokens := by
  have read : ∀ {rest : List τ} {faults : List (Fault τ)},
      Joined tokens { before with rest, faults } := ⟨joined.frames, joined.finished⟩
  cases does with
  | broken | stray | strayBroken | dropUnexpected => exact read
  | @leaf child rest wants here whole formed =>
    apply read.add
    rw [here] at remains
    apply Child.joined_of_leaf whole _ (formed 0)
    exact (List.prefix_append _ rest).isInfix.trans remains.isInfix
  | void reads => exact read.add (List.forall_mem_singleton.mpr (reads.joined remains))
  | flat reads => exact read.add (List.forall_mem_singleton.mpr (reads.joined remains))
  | openElement reads => exact read.push (reads.joined remains) rfl
  | @openBlock marker rest wants here sound =>
    have opened : Frame.Joined tokens (.block [] marker []) :=
      ⟨joined_marker here sound remains, List.forall_mem_nil _⟩
    have pushed : Joined tokens { before with
        rest, frames := .block [] marker [] :: before.frames } := Joined.push read opened rfl
    unfold openBlock noteDepth
    split <;> exact ⟨pushed.frames, pushed.finished⟩
  | endClosed ends | endBroken ends | endSilent ends | endMissing ends =>
    apply Joined.endElement
    · exact read
    · exact ends.inside
  | @turn below earlier marker next children rest ends here sound =>
    have frames := joined.frames
    rw [ends.inside] at frames
    obtain ⟨first, others⟩ := List.forall_mem_cons.mp frames
    have turned : Joined tokens { before with
        rest, frames := .block (⟨marker, children.reverse⟩ :: earlier) next [] :: below } := by
      refine ⟨List.forall_mem_cons.mpr ⟨?_, others⟩, ?_⟩
      · rw [Frame.Joined, List.reverse_cons, List.map_append]
        exact first.concat (List.append_ne_nil_of_right_ne_nil _ (List.cons_ne_nil _ _))
          (joined_marker here sound remains)
      · rw [finished_turn { before with rest } ends.inside]
        exact joined.finished
    unfold noteDepth
    split <;> exact ⟨turned.frames, turned.finished⟩
  | @endBlock below earlier marker children finish rest ends =>
    unfold noteWrongEnd
    split
    all_goals
      apply Joined.endBlock
      · exact read
      · exact ends.inside
  | turnBroken ends | endBlockBroken ends | endBlockMissing ends =>
    apply Joined.endBlock
    · exact read
    · exact ends.inside

end Builder

/-- In every tree the tokens of each child, up to its content, stand side by side. -/
theorem joined_build (tokens : List τ) :
    ∀ child ∈ Child.families (build tokens).children, child.Joined tokens := by
  have kept : (Builder.machine.exhaust (.start tokens)).rest <:+ tokens ∧
      (Builder.machine.exhaust (.start tokens)).Joined tokens := by
    apply (Builder.machine.reaches_exhaust (.start tokens)).keeps
      (fun builder => builder.rest <:+ tokens ∧ builder.Joined tokens)
    · intro before after holds taken
      have does := Builder.does_of_step taken
      refine ⟨?_, Builder.joined_of_does does holds.1 holds.2⟩
      exact (Builder.rest_of_does does).trans holds.1
    · exact ⟨List.suffix_refl _, List.forall_mem_nil _, List.forall_mem_nil _⟩
  rw [← finished_exhaust]
  exact kept.2.finished

end Template.Concrete
