import Template.Proofs.Concrete.Soundness

set_option autoImplicit false

namespace Template.Concrete

open Terminal (kind tagName blockName)
open Rule

variable {τ : Type} [Terminal τ]

/-- A child may stand directly in an element of a name. -/
def Child.MayStandIn (name : Text) (child : Child τ) : Prop :=
  ∀ tag ∈ child.tag?, ∀ stops ∈ Element.stops? name, tag ∉ stops

def Child.Valid : Child τ → Prop
  | .void head _ => Element.isVoid (Builder.nameOf head) = true
  | .element head _ content close =>
    Element.isVoid (Builder.nameOf head) = false ∧
      (∀ child ∈ content, child.MayStandIn (Builder.nameOf head)) ∧
      ∀ tag ∈ close, tag.Formed ∧ tagName tag.opening = Builder.nameOf head
  | _ => True

/-- What holds of an element that is open, given the frames below it: it may stand where it will be
added. -/
def Frame.Valid (below : List (Frame τ)) : Frame τ → Prop
  | .element head _ children =>
    Element.isVoid (Builder.nameOf head) = false ∧ Spares below (Builder.nameOf head) ∧
      ∀ child ∈ children, child.MayStandIn (Builder.nameOf head)
  | .block .. => True

def FramesValid : List (Frame τ) → Prop
  | [] => True
  | frame :: below => frame.Valid below ∧ FramesValid below

theorem Frame.Valid.add {below : List (Frame τ)} {frame : Frame τ} {child : Child τ}
    (valid : frame.Valid below) (spared : ∀ name ∈ child.tag?, Spares (frame :: below) name) :
    (frame.add child).Valid below := by
  cases frame with
  | element head angle children =>
    obtain ⟨holds, outer, inner⟩ := valid
    exact ⟨holds, outer, List.forall_mem_cons.mpr ⟨spared, inner⟩⟩
  | block earlier marker children => trivial

/-- A block has no name by which an element ends. -/
theorem Child.tag?_blockOf (finish : Option (BlockEnd τ)) (earlier : List (Branch τ))
    (marker : Marker τ) (content : List (Child τ)) :
    (Builder.blockOf finish earlier ⟨marker, content⟩ []).tag? = none := by
  obtain ⟨first, others, -, block, -⟩ := Builder.exists_blockOf earlier marker content
  rw [block]
  rfl

theorem Child.valid_of_leaf {child : Child τ} (whole : child.isLeaf = true) :
    ∀ inner ∈ child.family, inner.Valid := by
  cases child with
  | block | void | element => cases whole
  | _ => exact List.forall_mem_singleton.mpr trivial

namespace Builder

structure Valid (builder : Builder τ) : Prop where
  frames : FramesValid builder.frames
  finished : ∀ child ∈ builder.finished, child.Valid

theorem Valid.add {builder : Builder τ} {child : Child τ} (valid : builder.Valid)
    (inner : ∀ inner ∈ child.family, inner.Valid)
    (spared : ∀ name ∈ child.tag?, Spares builder.frames name) : (builder.add child).Valid := by
  refine ⟨?_, ?_⟩
  · have frames := valid.frames
    obtain ⟨rest, open_, done, faults⟩ := builder
    cases open_ with
    | nil => exact frames
    | cons frame below => exact ⟨frames.1.add spared, frames.2⟩
  · rw [finished_add]
    exact List.forall_mem_append.mpr ⟨valid.finished, inner⟩

theorem Valid.push {builder : Builder τ} {frame : Frame τ} (valid : builder.Valid)
    (opened : frame.Valid builder.frames) (empty : frame.finished = []) :
    Valid { builder with frames := frame :: builder.frames } := by
  refine ⟨⟨opened, valid.frames⟩, ?_⟩
  rw [finished_push builder frame empty]
  exact valid.finished

/-- An element that ends is valid, whether it has a closing tag or not. -/
theorem Valid.endElement {builder : Builder τ} {below : List (Frame τ)} {head : Head τ} {angle : τ}
    {children : List (Child τ)} {close : Option (CloseTag τ)} (valid : builder.Valid)
    (inside : builder.frames = .element head angle children :: below)
    (closed : ∀ tag ∈ close, tag.Formed ∧ tagName tag.opening = nameOf head) :
    (builder.endElement below head angle children close).Valid := by
  have frames := valid.frames
  rw [inside] at frames
  obtain ⟨⟨holds, spared, inner⟩, outer⟩ := frames
  refine ⟨?_, fun child member => ?_⟩
  · cases below with
    | nil => trivial
    | cons frame below =>
      refine ⟨outer.1.add fun name same => ?_, outer.2⟩
      cases same
      exact spared
  · rcases List.mem_cons.mp ((finished_endElement builder inside close).mem_iff.mp member) with
      rfl | earlier
    · exact ⟨holds, fun child held => inner child (List.mem_reverse.mp held), closed⟩
    · exact valid.finished child earlier

theorem Valid.endBlock {builder : Builder τ} {below : List (Frame τ)} {earlier : List (Branch τ)}
    {marker : Marker τ} {children : List (Child τ)} (valid : builder.Valid)
    (inside : builder.frames = .block earlier marker children :: below)
    (finish : Option (BlockEnd τ)) :
    (builder.endBlock below earlier marker children finish).Valid := by
  have frames := valid.frames
  rw [inside] at frames
  obtain ⟨-, outer⟩ := frames
  refine ⟨?_, fun child member => ?_⟩
  · cases below with
    | nil => trivial
    | cons frame below =>
      refine ⟨outer.1.add ?_, outer.2⟩
      rw [Child.tag?_blockOf]
      exact fun name none => nomatch none
  · rcases List.mem_cons.mp ((finished_endBlock builder inside finish).mem_iff.mp member) with
      rfl | earlier
    · obtain ⟨first, others, -, block, -⟩ := exists_blockOf earlier marker children.reverse
      rw [block]
      trivial
    · exact valid.finished child earlier

/-- Every step keeps what is open and what is complete valid. -/
theorem valid_of_does {before after : Builder τ} (does : Does before after)
    (valid : before.Valid) : after.Valid := by
  have read : ∀ {rest : List τ} {faults : List (Fault τ)},
      Valid { before with rest, faults } := ⟨valid.frames, valid.finished⟩
  -- A tag that is read next may stand where it is read.
  have spared : ∀ {head : Head τ} {angle : τ} {rest : List τ},
      before.ReadsTag head angle rest → ∀ name ∈ some (nameOf head), Spares before.frames name := by
    intro head angle rest reads name same
    cases same
    exact spares_of_wants reads.wants reads.here reads.sound.opening
  cases does with
  | broken | stray | strayBroken | dropUnexpected => exact read
  | leaf wants here whole formed =>
    have free := spares_of_leaf wants here whole (formed 0)
    exact read.add (Child.valid_of_leaf whole) free
  | void reads empty => exact read.add (List.forall_mem_singleton.mpr empty) (spared reads)
  | flat reads holds =>
    refine read.add (List.forall_mem_singleton.mpr ?_) (spared reads)
    exact ⟨holds, List.forall_mem_nil _, fun tag none => nomatch none⟩
  | openElement reads holds =>
    exact read.push ⟨holds, spared reads _ rfl, List.forall_mem_nil _⟩ rfl
  | @openBlock marker rest =>
    have pushed : Valid { before with rest, frames := .block [] marker [] :: before.frames } :=
      Valid.push read trivial rfl
    unfold openBlock noteDepth
    split <;> exact ⟨pushed.frames, pushed.finished⟩
  | endClosed ends ending here sound =>
    apply Valid.endElement
    · exact read
    · exact ends.inside
    · intro tag same
      cases same
      rw [here, CloseTag.yield_append] at ending
      exact ⟨sound, tagName_of_closed ending⟩
  | endBroken ends | endSilent ends | endMissing ends =>
    apply Valid.endElement
    · exact read
    · exact ends.inside
    · exact fun tag none => nomatch none
  | @turn below earlier marker next children rest ends =>
    have frames := valid.frames
    rw [ends.inside] at frames
    have turned : Valid { before with
        rest, frames := .block (⟨marker, children.reverse⟩ :: earlier) next [] :: below } := by
      refine ⟨⟨trivial, frames.2⟩, ?_⟩
      rw [finished_turn { before with rest } ends.inside]
      exact valid.finished
    unfold noteDepth
    split <;> exact ⟨turned.frames, turned.finished⟩
  | endBlock ends =>
    unfold noteWrongEnd
    split
    all_goals
      apply Valid.endBlock
      · exact read
      · exact ends.inside
  | turnBroken ends | endBlockBroken ends | endBlockMissing ends =>
    apply Valid.endBlock
    · exact read
    · exact ends.inside

end Builder

/-- Every child of a tree is valid. -/
theorem valid_build (tokens : List τ) :
    ∀ child ∈ Child.families (build tokens).children, child.Valid := by
  have valid : (Builder.machine.exhaust (.start tokens)).Valid := by
    refine (Builder.machine.reaches_exhaust (.start tokens)).keeps Builder.Valid
      (fun before after holds taken => ?_) ⟨trivial, List.forall_mem_nil _⟩
    exact Builder.valid_of_does (Builder.does_of_step taken) holds
  rw [← finished_exhaust]
  exact valid.finished

end Template.Concrete
