import Mathlib.Logic.Relation
import Template.Proofs.Concrete.Steps

set_option autoImplicit false

namespace Template.Concrete

open Terminal (kind tagName blockName)
open Rule

variable {τ : Type}

def Frame.yield : Frame τ → List τ
  | element head angle children => head.yield ++ angle :: Child.yields children.reverse
  | block earlier marker children =>
    Branch.yields earlier.reverse ++ (marker.yield ++ Child.yields children.reverse)

/-- The tokens of a site are among some tokens, the first of them not after the last. -/
def Site.Within (tokens : List τ) : Site τ → Prop
  | across first last =>
    ∃ run, run <:+: tokens ∧ run.head? = some first ∧ run.getLast? = some last
  | before token => token ∈ tokens
  | finish => True

variable [Terminal τ]

/-- A child that is read at once. It holds no other child, and a raw element has its body. -/
def Child.AtOnce : Child τ → Prop
  | .raw known _ body => body.Formed known
  | .block .. => False
  | .element _ _ content close => content = [] ∧ close = none
  | _ => True

namespace Builder

/-- What one part of a step does. -/
inductive Move : Builder τ → Builder τ → Prop where
  /-- Tokens that a broken rule has taken are lost, and those at which it broke are dropped. -/
  | drop (builder : Builder τ) (lost dropped rest : List τ) (cause : Cause τ)
      (here : builder.rest = lost ++ (dropped ++ rest)) :
      Move builder ({ builder with rest }.note cause (.dropped dropped rest))
  | note (builder : Builder τ) (cause : Cause τ) (site : Site τ)
      (within : site.Within builder.rest) : Move builder (builder.note cause site)
  | add (builder : Builder τ) (child : Child τ) (rest : List τ)
      (here : builder.rest = child.yield ++ rest) (atOnce : child.AtOnce) :
      Move builder ({ builder with rest }.add child)
  | openElement (builder : Builder τ) (head : Head τ) (angle : τ) (rest : List τ)
      (here : builder.rest = head.yield ++ angle :: rest) :
      Move builder { builder with rest, frames := .element head angle [] :: builder.frames }
  | openBlock (builder : Builder τ) (marker : Marker τ) (rest : List τ)
      (here : builder.rest = marker.yield ++ rest) :
      Move builder { builder with rest, frames := .block [] marker [] :: builder.frames }
  | turn (builder : Builder τ) (below : List (Frame τ)) (earlier : List (Branch τ))
      (marker next : Marker τ) (children : List (Child τ)) (rest : List τ)
      (inside : builder.frames = .block earlier marker children :: below)
      (here : builder.rest = next.yield ++ rest) :
      Move builder { builder with
        rest
        frames := .block (⟨marker, children.reverse⟩ :: earlier) next [] :: below }
  | endElement (builder : Builder τ) (below : List (Frame τ)) (head : Head τ) (angle : τ)
      (children : List (Child τ)) (close : Option (CloseTag τ)) (rest : List τ)
      (inside : builder.frames = .element head angle children :: below)
      (here : builder.rest = close.toList.flatMap CloseTag.yield ++ rest) :
      Move builder ({ builder with rest }.endElement below head angle children close)
  | endBlock (builder : Builder τ) (below : List (Frame τ)) (earlier : List (Branch τ))
      (marker : Marker τ) (children : List (Child τ)) (finish : Option (BlockEnd τ))
      (rest : List τ) (inside : builder.frames = .block earlier marker children :: below)
      (here : builder.rest = finish.toList.flatMap BlockEnd.yield ++ rest) :
      Move builder ({ builder with rest }.endBlock below earlier marker children finish)

abbrev Moves : Builder τ → Builder τ → Prop := Relation.ReflTransGen Move

theorem unread_append_resumed (tokens : List τ) : unread tokens ++ resumed tokens = tokens :=
  List.takeWhile_append_dropWhile

/-- A rule that fails has lost the tokens before those it has left. -/
theorem move_recover {α : Type} {rule : Rule τ α} (shrinks : Shrinks rule) {builder : Builder τ}
    {mismatch : Mismatch τ} (failed : rule builder.rest = .error mismatch) :
    Move builder (builder.recover mismatch) := by
  obtain ⟨lost, here⟩ := shrinks builder.rest
  rw [failed] at here
  refine .drop builder lost _ _ _ ?_
  rw [unread_append_resumed]
  exact here.symm

omit [Terminal τ] in
theorem within_at (tokens : List τ) : (Site.at tokens).Within tokens := by
  cases tokens with
  | nil => trivial
  | cons token rest => exact List.mem_cons_self

omit [Terminal τ] in
/-- Some tokens that come first are those from the first of them to the last. -/
theorem within_run {tokens run rest : List τ} {first last : τ} (here : tokens = run ++ rest)
    (head : run.head? = some first) (final : run.getLast? = some last) :
    (Site.across first last).Within tokens :=
  ⟨run, here ▸ (List.prefix_append run rest).isInfix, head, final⟩

omit [Terminal τ] in
theorem within_head {tokens rest : List τ} {head : Head τ} {angle : τ}
    (here : tokens = head.yield ++ angle :: rest) :
    (Site.across head.opening angle).Within tokens := by
  have here : tokens = (head.yield ++ [angle]) ++ rest := by
    rw [here, List.append_assoc, List.singleton_append]
  exact within_run here rfl List.getLast?_concat

omit [Terminal τ] in
theorem within_marker {tokens rest : List τ} {marker : Marker τ}
    (here : tokens = marker.yield ++ rest) :
    (Site.across marker.opening marker.closing).Within tokens :=
  within_run here rfl List.getLast?_concat

/-- A move can be taken after the depth of its tokens was recorded. -/
theorem moves_noteDepth {builder : Builder τ} {first last : τ} {rest : List τ}
    {frames : List (Frame τ)} (depth : Nat) (within : (Site.across first last).Within builder.rest)
    (move : ∀ noted : Builder τ, noted.rest = builder.rest → noted.frames = builder.frames →
      Move noted { noted with rest, frames }) :
    Moves builder ({ builder with rest, frames }.noteDepth depth first last) := by
  unfold noteDepth
  split
  · exact .head (.note builder _ _ within) (.single (move (builder.note _ _) rfl rfl))
  · exact .single (move builder rfl rfl)

theorem atOnce_of_leaf {child : Child τ} {depth : Nat} {after : List τ}
    (leaf : child.isLeaf = true) (formed : child.Formed .whole depth after) : child.AtOnce := by
  cases child with
  | raw element head body => exact formed.2
  | block | element => cases leaf
  | _ => trivial

omit [Terminal τ] in
/-- A closing tag runs from its opening to its angle bracket. -/
theorem dropped_close (close : CloseTag τ) (rest : List τ) :
    Site.dropped close.yield rest = .across close.opening close.angle := by
  simp only [CloseTag.yield, List.cons_append, Site.dropped, List.getLastD_concat]

/-- A step is made of moves. -/
theorem moves_of_does {before after : Builder τ} (does : Does before after) :
    Moves before after := by
  cases does with
  | broken _ failed => exact .single (move_recover piece_shrinks failed)
  | leaf _ here whole formed => exact .single (.add _ _ _ here (atOnce_of_leaf whole (formed 0)))
  | void reads =>
    refine .single (.add _ _ _ ?_ trivial)
    rw [reads.here, Child.yield, List.append_assoc, List.singleton_append]
  | @flat head angle rest reads =>
    have noted : Move before (before.note .tooDeep (.across head.opening angle)) :=
      .note before _ _ (within_head reads.here)
    refine .head noted (.single (.add _ (.element head angle [] none) rest ?_ ⟨rfl, rfl⟩))
    show before.rest = _
    simp only [reads.here, Child.yield, Child.yields, Option.toList_none, List.flatMap_nil,
      List.append_assoc, List.append_nil, List.cons_append, List.nil_append]
  | openElement reads => exact .single (.openElement _ _ _ _ reads.here)
  | openBlock _ here =>
    refine moves_noteDepth before.frames.length (within_marker here) ?_
    intro noted unread framed
    rw [← framed]
    exact .openBlock noted _ _ (unread.trans here)
  | endClosed ends _ here =>
    refine .single (.endElement _ _ _ _ _ (some _) _ ends.inside ?_)
    rw [here, Option.toList_some, List.flatMap_singleton]
  | endBroken ends _ failed =>
    exact .head (move_recover closeTag_shrinks failed)
      (.single (.endElement _ _ _ _ _ none _ ends.inside rfl))
  | endSilent ends => exact .single (.endElement _ _ _ _ _ none _ ends.inside rfl)
  | endMissing ends =>
    exact .head (.note before _ _ (within_at before.rest))
      (.single (.endElement _ _ _ _ _ none _ ends.inside rfl))
  | @stray _ _ _ _ _ close rest _ _ here =>
    rw [← dropped_close close rest]
    exact .single (.drop _ [] close.yield rest _ here)
  | strayBroken _ _ failed => exact .single (move_recover closeTag_shrinks failed)
  | turn ends here =>
    refine moves_noteDepth _ (within_marker here) ?_
    intro noted unread framed
    exact .turn noted _ _ _ _ _ _ (framed.trans ends.inside) (unread.trans here)
  | turnBroken ends _ failed =>
    exact .head (move_recover (marker_shrinks _) failed)
      (.single (.endBlock _ _ _ _ _ none _ ends.inside rfl))
  | @endBlock _ _ _ _ finish rest ends read =>
    have here : before.rest = (some finish).toList.flatMap BlockEnd.yield ++ rest := by
      rw [read, Option.toList_some, List.flatMap_singleton]
    unfold noteWrongEnd
    split
    · exact .single (.endBlock _ _ _ _ _ (some finish) _ ends.inside here)
    · have within : (Site.across finish.name finish.name).Within before.rest := by
        refine ⟨[finish.name], ⟨[finish.opening], ?_⟩, rfl, rfl⟩
        refine ⟨finish.blank.toList ++ finish.closing :: rest, ?_⟩
        rw [read, BlockEnd.yield_append]
        rfl
      exact .head (.note before _ _ within)
        (.single (.endBlock _ _ _ _ _ (some finish) _ ends.inside here))
  | endBlockBroken ends _ failed =>
    exact .head (move_recover blockEnd_shrinks failed)
      (.single (.endBlock _ _ _ _ _ none _ ends.inside rfl))
  | endBlockMissing ends =>
    exact .head (.note before _ _ (within_at before.rest))
      (.single (.endBlock _ _ _ _ _ none _ ends.inside rfl))
  | @dropUnexpected token rest _ _ here =>
    refine .single (.drop _ [] (token :: unread rest) (resumed rest) _ ?_)
    rw [here, List.nil_append, List.cons_append, unread_append_resumed]

/-- What every move keeps is kept by a step. -/
theorem keeps_of_does (property : Builder τ → Prop)
    (kept : ∀ before after, Move before after → property before → property after)
    {before after : Builder τ} (does : Does before after) (holds : property before) :
    property after := by
  have moves := moves_of_does does
  clear does
  induction moves with
  | refl => exact holds
  | tail _ move ih => exact kept _ _ move ih

/-- What every move keeps is kept by building. -/
theorem keeps_of_moves (property : Builder τ → Prop)
    (kept : ∀ before after, Move before after → property before → property after)
    {first last : Builder τ} (steps : machine.Reaches first last) (start : property first) :
    property last :=
  steps.keeps property
    (fun _ _ holds taken => keeps_of_does property kept (does_of_step taken) holds) start

/-- Building stops where no token is left and no frame is open. -/
theorem stopped_of_step {builder : Builder τ} (stopped : builder.step = none) :
    builder.rest = [] ∧ builder.frames = [] := by
  unfold step at stopped
  split at stopped
  · cases stopped
  · split at stopped
    · cases stopped
    · cases stopped
    · next frames =>
      split at stopped
      · next rest => exact ⟨rest, frames⟩
      · cases stopped

end Builder

end Template.Concrete
