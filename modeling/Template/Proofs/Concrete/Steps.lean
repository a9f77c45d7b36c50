import Template.Concrete.Build
import Template.Proofs.Concrete.Reading.Tags

set_option autoImplicit false

namespace Template.Concrete

open Terminal (kind tagName blockName)
open Rule

variable {τ : Type} [Terminal τ]

namespace Builder

/-- The head of an element and its angle bracket are read where a child is wanted. -/
structure ReadsTag (builder : Builder τ) (head : Head τ) (angle : τ) (rest : List τ) : Prop where
  wants : builder.wantsChild = true
  here : builder.rest = head.yield ++ angle :: rest
  sound : head.Formed .whole .openTag (angle :: rest)
  closes : kind angle = .angle

/-- No child is wanted in the content of the innermost element. -/
structure EndsElement (builder : Builder τ) (below : List (Frame τ)) (head : Head τ) (angle : τ)
    (children : List (Child τ)) : Prop where
  idle : builder.wantsChild = false
  inside : builder.frames = .element head angle children :: below

/-- No child is wanted in the innermost branch. -/
structure EndsBranch (builder : Builder τ) (below : List (Frame τ)) (earlier : List (Branch τ))
    (marker : Marker τ) (children : List (Child τ)) : Prop where
  idle : builder.wantsChild = false
  inside : builder.frames = .block earlier marker children :: below

/-- The tokens left begin with a brace and a sigil. -/
def Follows (sigil : Sigil) (tokens : List τ) : Prop :=
  kind? tokens = some .braceOpen ∧ kind? tokens.tail = some (.block sigil)

/-- What one step does. -/
inductive Does : Builder τ → Builder τ → Prop where
  /-- What begins like a child cannot be read as one. -/
  | broken {builder : Builder τ} {mismatch : Mismatch τ} (wants : builder.wantsChild = true)
      (failed : piece builder.rest = .error mismatch) : Does builder (builder.recover mismatch)
  | leaf {builder : Builder τ} {child : Child τ} {rest : List τ}
      (wants : builder.wantsChild = true) (here : builder.rest = child.yield ++ rest)
      (whole : child.isLeaf = true) (formed : ∀ depth, child.Formed .whole depth rest) :
      Does builder ({ builder with rest }.add child)
  | void {builder : Builder τ} {head : Head τ} {angle : τ} {rest : List τ}
      (reads : builder.ReadsTag head angle rest) (empty : Element.isVoid (nameOf head) = true) :
      Does builder ({ builder with rest }.add (.void head angle))
  /-- An element inside too many others has no content. -/
  | flat {builder : Builder τ} {head : Head τ} {angle : τ} {rest : List τ}
      (reads : builder.ReadsTag head angle rest) (holds : Element.isVoid (nameOf head) = false)
      (deep : maxNesting ≤ builder.frames.length) :
      Does builder (({ builder with rest }.note .tooDeep (.across head.opening angle)).add
        (.element head angle [] none))
  | openElement {builder : Builder τ} {head : Head τ} {angle : τ} {rest : List τ}
      (reads : builder.ReadsTag head angle rest) (holds : Element.isVoid (nameOf head) = false)
      (roomy : builder.frames.length < maxNesting) :
      Does builder { builder with rest, frames := .element head angle [] :: builder.frames }
  | openBlock {builder : Builder τ} {marker : Marker τ} {rest : List τ}
      (wants : builder.wantsChild = true) (here : builder.rest = marker.yield ++ rest)
      (sound : marker.Formed .opening) : Does builder ({ builder with rest }.openBlock marker)
  | endClosed {builder : Builder τ} {below : List (Frame τ)} {head : Head τ} {angle : τ}
      {children : List (Child τ)} {close : CloseTag τ} {rest : List τ}
      (ends : builder.EndsElement below head angle children)
      (ending : endingOf (nameOf head) (openNames below) builder.rest = .closed)
      (here : builder.rest = close.yield ++ rest) (sound : close.Formed) :
      Does builder ({ builder with rest }.endElement below head angle children (some close))
  /-- The closing tag of an element is broken. -/
  | endBroken {builder : Builder τ} {below : List (Frame τ)} {head : Head τ} {angle : τ}
      {children : List (Child τ)} {mismatch : Mismatch τ}
      (ends : builder.EndsElement below head angle children)
      (ending : endingOf (nameOf head) (openNames below) builder.rest = .closed)
      (failed : closeTag builder.rest = .error mismatch) :
      Does builder ((builder.recover mismatch).endElement below head angle children none)
  | endSilent {builder : Builder τ} {below : List (Frame τ)} {head : Head τ} {angle : τ}
      {children : List (Child τ)} (ends : builder.EndsElement below head angle children)
      (ending : endingOf (nameOf head) (openNames below) builder.rest = .silent) :
      Does builder (builder.endElement below head angle children none)
  | endMissing {builder : Builder τ} {below : List (Frame τ)} {head : Head τ} {angle : τ}
      {children : List (Child τ)} (ends : builder.EndsElement below head angle children)
      (ending : endingOf (nameOf head) (openNames below) builder.rest = .missing) :
      Does builder
        ((builder.noteMissingClose (nameOf head)).endElement below head angle children none)
  | stray {builder : Builder τ} {below : List (Frame τ)} {head : Head τ} {angle token : τ}
      {children : List (Child τ)} {close : CloseTag τ} {rest : List τ}
      (ends : builder.EndsElement below head angle children)
      (ending : endingOf (nameOf head) (openNames below) builder.rest = .stray token)
      (here : builder.rest = close.yield ++ rest) (sound : close.Formed) :
      Does builder ({ builder with rest }.note (.strayClose (tagName token) (nameOf head))
        (.across close.opening close.angle))
  | strayBroken {builder : Builder τ} {below : List (Frame τ)} {head : Head τ} {angle token : τ}
      {children : List (Child τ)} {mismatch : Mismatch τ}
      (ends : builder.EndsElement below head angle children)
      (ending : endingOf (nameOf head) (openNames below) builder.rest = .stray token)
      (failed : closeTag builder.rest = .error mismatch) :
      Does builder (builder.recover mismatch)
  /-- A branch ends with the marker of a further one. -/
  | turn {builder : Builder τ} {below : List (Frame τ)} {earlier : List (Branch τ)}
      {marker next : Marker τ} {children : List (Child τ)} {rest : List τ}
      (ends : builder.EndsBranch below earlier marker children)
      (here : builder.rest = next.yield ++ rest) (sound : next.Formed .continuing) :
      Does builder ({ builder with
        rest
        frames := .block (⟨marker, children.reverse⟩ :: earlier) next [] :: below }.noteDepth
          below.length next.opening next.closing)
  | turnBroken {builder : Builder τ} {below : List (Frame τ)} {earlier : List (Branch τ)}
      {marker : Marker τ} {children : List (Child τ)} {mismatch : Mismatch τ}
      (ends : builder.EndsBranch below earlier marker children)
      (follows : Follows .continuing builder.rest)
      (failed : Concrete.marker .continuing builder.rest = .error mismatch) :
      Does builder ((builder.recover mismatch).endBlock below earlier marker children none)
  | endBlock {builder : Builder τ} {below : List (Frame τ)} {earlier : List (Branch τ)}
      {marker : Marker τ} {children : List (Child τ)} {finish : BlockEnd τ} {rest : List τ}
      (ends : builder.EndsBranch below earlier marker children)
      (here : builder.rest = finish.yield ++ rest) (sound : finish.Formed) :
      Does builder
        (({ builder with rest }.noteWrongEnd (blockName (firstMarker earlier marker).name)
          finish.name).endBlock below earlier marker children (some finish))
  | endBlockBroken {builder : Builder τ} {below : List (Frame τ)} {earlier : List (Branch τ)}
      {marker : Marker τ} {children : List (Child τ)} {mismatch : Mismatch τ}
      (ends : builder.EndsBranch below earlier marker children)
      (follows : Follows .closing builder.rest)
      (failed : blockEnd builder.rest = .error mismatch) :
      Does builder ((builder.recover mismatch).endBlock below earlier marker children none)
  | endBlockMissing {builder : Builder τ} {below : List (Frame τ)} {earlier : List (Branch τ)}
      {marker : Marker τ} {children : List (Child τ)}
      (ends : builder.EndsBranch below earlier marker children)
      (turns : ¬Follows .continuing builder.rest) (closes : ¬Follows .closing builder.rest) :
      Does builder ((builder.note
        (.missingEnd (blockName (firstMarker earlier marker).name) builder.rest.head?)
        (.at builder.rest)).endBlock below earlier marker children none)
  /-- Outside all elements a token comes that begins no child. -/
  | dropUnexpected {builder : Builder τ} {token : τ} {rest : List τ}
      (idle : builder.wantsChild = false) (outside : builder.frames = [])
      (here : builder.rest = token :: rest) : Does builder (builder.dropUnexpected token rest)

theorem does_readChild {builder : Builder τ} (wants : builder.wantsChild = true) :
    Does builder builder.readChild := by
  unfold readChild
  split
  · next mismatch failed => exact .broken wants failed
  · next child rest read =>
    obtain ⟨here, whole, formed⟩ := eq_of_piece read
    exact .leaf wants here whole formed
  · next head angle rest read =>
    obtain ⟨here, sound, closes⟩ := eq_of_piece read
    have reads : builder.ReadsTag head angle rest := by
      refine ⟨wants, ?_, sound, closes⟩
      rw [here, Piece.yield, List.append_assoc, List.singleton_append]
    unfold openElement
    by_cases empty : Element.isVoid (nameOf head) = true
    · rw [if_pos empty]
      exact .void reads empty
    · have holds : Element.isVoid (nameOf head) = false := Bool.eq_false_iff.mpr empty
      rw [if_neg empty]
      by_cases deep : maxNesting ≤ builder.frames.length
      · rw [if_pos deep]
        exact .flat reads holds deep
      · rw [if_neg deep]
        exact .openElement reads holds (Nat.lt_of_not_le deep)
  · next marker rest read =>
    obtain ⟨here, sound⟩ := eq_of_piece read
    exact .openBlock wants here sound

theorem does_finishContent {builder : Builder τ} {below : List (Frame τ)} {head : Head τ}
    {angle : τ} {children : List (Child τ)}
    (ends : builder.EndsElement below head angle children) :
    Does builder (builder.finishContent below head angle children) := by
  unfold finishContent
  split
  · next ending =>
    split
    · next mismatch failed => exact .endBroken ends ending failed
    · next close rest read =>
      obtain ⟨here, sound⟩ := closeTag_eq_ok.mp read
      exact .endClosed ends ending here sound
  · next ending => exact .endSilent ends ending
  · next ending => exact .endMissing ends ending
  · next token ending =>
    unfold dropClose
    split
    · next mismatch failed => exact .strayBroken ends ending failed
    · next close rest read =>
      obtain ⟨here, sound⟩ := closeTag_eq_ok.mp read
      exact .stray ends ending here sound

theorem does_finishBranch {builder : Builder τ} {below : List (Frame τ)}
    {earlier : List (Branch τ)} {marker : Marker τ} {children : List (Child τ)}
    (ends : builder.EndsBranch below earlier marker children) :
    Does builder (builder.finishBranch below earlier marker children) := by
  unfold finishBranch
  simp only
  split
  · next first second =>
    split
    · next mismatch failed => exact .turnBroken ends ⟨first, second⟩ failed
    · next next rest read =>
      obtain ⟨here, sound⟩ := marker_eq_ok.mp read
      exact .turn ends here sound
  · next first second =>
    split
    · next mismatch failed => exact .endBlockBroken ends ⟨first, second⟩ failed
    · next finish rest read =>
      obtain ⟨here, sound⟩ := blockEnd_eq_ok.mp read
      exact .endBlock ends here sound
  · next turns closes =>
    apply Does.endBlockMissing ends
    · intro follows
      exact turns follows.1 follows.2
    · intro follows
      exact closes follows.1 follows.2

theorem does_of_step {before after : Builder τ} (taken : before.step = some after) :
    Does before after := by
  unfold step at taken
  split at taken
  · next wants =>
    cases taken
    exact does_readChild wants
  · next unwanted =>
    have idle : before.wantsChild = false := Bool.eq_false_iff.mpr unwanted
    split at taken
    · next inside =>
      cases taken
      exact does_finishContent ⟨idle, inside⟩
    · next inside =>
      cases taken
      exact does_finishBranch ⟨idle, inside⟩
    · next outside =>
      split at taken
      · cases taken
      · next token rest here =>
        cases taken
        exact .dropUnexpected idle outside here

end Builder

end Template.Concrete
