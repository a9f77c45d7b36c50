import Template.Proofs.Concrete.Ledger

set_option autoImplicit false

namespace Template.Concrete

open Terminal (kind tagName blockName)
open Rule

variable {τ : Type}

mutual

/-- A child inside so many elements and branches is not too deep, and neither is what it holds. At
the limit an element has neither content nor closing tag, and a branch has no content. -/
def Child.Nests (depth : Nat) : Child τ → Prop
  | .block first others _ => first.Nests depth ∧ Branch.AllNest depth others
  | .element _ _ content close =>
    depth ≤ maxNesting ∧ (depth = maxNesting → content = [] ∧ close = none) ∧
      Child.AllNest (depth + 1) content
  | _ => depth ≤ maxNesting

def Branch.Nests (depth : Nat) : Branch τ → Prop
  | ⟨_, content⟩ =>
    depth ≤ maxNesting ∧ (depth = maxNesting → content = []) ∧ Child.AllNest (depth + 1) content

def Child.AllNest (depth : Nat) : List (Child τ) → Prop
  | [] => True
  | child :: rest => child.Nests depth ∧ Child.AllNest depth rest

def Branch.AllNest (depth : Nat) : List (Branch τ) → Prop
  | [] => True
  | branch :: rest => branch.Nests depth ∧ Branch.AllNest depth rest

end

/-- What opens an element or a branch inside so many others, if that is as many as may be. -/
def Site.atLimit (depth : Nat) (first last : τ) : List (Site τ) :=
  if depth = maxNesting then [.across first last] else []

mutual

/-- The elements and branches at the limit in a child that is inside so many others, each by the
tokens that open it, in order. -/
def Child.deepest (depth : Nat) : Child τ → List (Site τ)
  | .block first others _ => first.deepest depth ++ Branch.allDeepest depth others
  | .element head angle content _ =>
    Site.atLimit depth head.opening angle ++ Child.allDeepest (depth + 1) content
  | _ => []

def Branch.deepest (depth : Nat) : Branch τ → List (Site τ)
  | ⟨marker, content⟩ =>
    Site.atLimit depth marker.opening marker.closing ++ Child.allDeepest (depth + 1) content

def Child.allDeepest (depth : Nat) : List (Child τ) → List (Site τ)
  | [] => []
  | child :: rest => child.deepest depth ++ Child.allDeepest depth rest

def Branch.allDeepest (depth : Nat) : List (Branch τ) → List (Site τ)
  | [] => []
  | branch :: rest => branch.deepest depth ++ Branch.allDeepest depth rest

end

/-- Where a fault tells of too deep a nesting. -/
def Fault.tooDeep? : Fault τ → Option (Site τ)
  | ⟨.tooDeep, site⟩ => some site
  | _ => none

theorem Branch.Nests.le {depth : Nat} {branch : Branch τ} (nests : branch.Nests depth) :
    depth ≤ maxNesting := by
  obtain ⟨marker, content⟩ := branch
  exact nests.1

theorem Child.Nests.le {depth : Nat} {child : Child τ} (nests : child.Nests depth) :
    depth ≤ maxNesting := by
  cases child with
  | block => exact nests.1.le
  | element => exact nests.1
  | _ => exact nests

theorem Child.allNest_append {depth : Nat} {first second : List (Child τ)} :
    Child.AllNest depth (first ++ second) ↔
      Child.AllNest depth first ∧ Child.AllNest depth second := by
  induction first with
  | nil => simp only [List.nil_append, Child.AllNest, true_and]
  | cons child rest ih => simp only [List.cons_append, Child.AllNest, ih, and_assoc]

theorem Branch.allNest_append {depth : Nat} {first second : List (Branch τ)} :
    Branch.AllNest depth (first ++ second) ↔
      Branch.AllNest depth first ∧ Branch.AllNest depth second := by
  induction first with
  | nil => simp only [List.nil_append, Branch.AllNest, true_and]
  | cons branch rest ih => simp only [List.cons_append, Branch.AllNest, ih, and_assoc]

theorem Child.allDeepest_append (depth : Nat) (first second : List (Child τ)) :
    Child.allDeepest depth (first ++ second) =
      Child.allDeepest depth first ++ Child.allDeepest depth second := by
  induction first with
  | nil => rfl
  | cons child rest ih => simp only [List.cons_append, Child.allDeepest, ih, List.append_assoc]

theorem Branch.allDeepest_append (depth : Nat) (first second : List (Branch τ)) :
    Branch.allDeepest depth (first ++ second) =
      Branch.allDeepest depth first ++ Branch.allDeepest depth second := by
  induction first with
  | nil => rfl
  | cons branch rest ih => simp only [List.cons_append, Branch.allDeepest, ih, List.append_assoc]

/-- What is open inside so many others is not too deep. An element at the limit is never opened. -/
def Frame.Nests (depth : Nat) : Frame τ → Prop
  | .element _ _ children => depth < maxNesting ∧ Child.AllNest (depth + 1) children.reverse
  | .block earlier marker children =>
    Branch.AllNest depth (earlier.reverse ++ [⟨marker, children.reverse⟩])

def Frame.deepest (depth : Nat) : Frame τ → List (Site τ)
  | .element head angle children =>
    Site.atLimit depth head.opening angle ++ Child.allDeepest (depth + 1) children.reverse
  | .block earlier marker children =>
    Branch.allDeepest depth (earlier.reverse ++ [⟨marker, children.reverse⟩])

theorem Frame.Nests.le {depth : Nat} {frame : Frame τ} (nests : frame.Nests depth) :
    depth ≤ maxNesting := by
  cases frame with
  | element => exact Nat.le_of_lt nests.1
  | block => exact (Branch.allNest_append.mp nests).2.1.le

theorem Frame.nests_add {depth : Nat} {frame : Frame τ} {child : Child τ}
    (nests : frame.Nests depth) (inner : child.Nests (depth + 1)) :
    (frame.add child).Nests depth := by
  have roomy : depth < maxNesting := inner.le
  cases frame with
  | element head angle children =>
    refine ⟨roomy, ?_⟩
    rw [List.reverse_cons]
    exact Child.allNest_append.mpr ⟨nests.2, inner, trivial⟩
  | block earlier marker children =>
    obtain ⟨before, ⟨-, -, content⟩, -⟩ := Branch.allNest_append.mp nests
    refine Branch.allNest_append.mpr ⟨before, ⟨Nat.le_of_lt roomy, ?_, ?_⟩, trivial⟩
    · intro limit
      omega
    · rw [List.reverse_cons]
      exact Child.allNest_append.mpr ⟨content, inner, trivial⟩

theorem Frame.deepest_add (depth : Nat) (frame : Frame τ) (child : Child τ) :
    (frame.add child).deepest depth = frame.deepest depth ++ child.deepest (depth + 1) := by
  cases frame <;>
    simp only [Frame.add, Frame.deepest, List.reverse_cons, Child.allDeepest_append,
      Child.allDeepest, Branch.allDeepest_append, Branch.allDeepest, Branch.deepest,
      List.append_nil, List.append_assoc]

/-- All that is open is not too deep. -/
def FramesNest : List (Frame τ) → Prop
  | [] => True
  | frame :: below => frame.Nests below.length ∧ FramesNest below

def framesDeepest : List (Frame τ) → List (Site τ)
  | [] => []
  | frame :: below => framesDeepest below ++ frame.deepest below.length

namespace Builder

/-- The elements and branches at the limit in what was read, in order. -/
def deepest (builder : Builder τ) : List (Site τ) :=
  Child.allDeepest 0 builder.children.reverse ++ framesDeepest builder.frames

/-- What was read is not too deep, and the faults tell of all that stands at the limit. -/
structure Nested (builder : Builder τ) : Prop where
  children : Child.AllNest 0 builder.children.reverse
  frames : FramesNest builder.frames
  recorded : builder.faults.reverse.filterMap Fault.tooDeep? = builder.deepest

theorem deepest_add (builder : Builder τ) (child : Child τ) :
    (builder.add child).deepest = builder.deepest ++ child.deepest builder.frames.length := by
  obtain ⟨rest, frames, children, faults⟩ := builder
  cases frames with
  | nil =>
    simp only [add, deepest, List.reverse_cons, Child.allDeepest_append, Child.allDeepest,
      framesDeepest, List.append_nil, List.length_nil]
  | cons frame below =>
    simp only [add, deepest, framesDeepest, Frame.deepest_add, List.append_assoc,
      List.length_cons]

/-- What is recorded of other things does not matter, nor which tokens are left. -/
theorem Nested.note {builder : Builder τ} (nested : builder.Nested) (rest : List τ)
    {cause : Cause τ} {site : Site τ} (other : Fault.tooDeep? ⟨cause, site⟩ = none) :
    ({ builder with rest }.note cause site).Nested := by
  refine ⟨nested.children, nested.frames, ?_⟩
  show ((⟨cause, site⟩ : Fault τ) :: builder.faults).reverse.filterMap Fault.tooDeep? = _
  rw [List.reverse_cons, List.filterMap_append, List.filterMap_cons_none other,
    List.filterMap_nil, List.append_nil]
  exact nested.recorded

theorem Nested.read {builder : Builder τ} (nested : builder.Nested) (rest : List τ) :
    Nested { builder with rest } := ⟨nested.children, nested.frames, nested.recorded⟩

/-- A child fits in, if the faults tell already of what stands at the limit in it. -/
theorem nested_add {builder : Builder τ} {child : Child τ}
    (children : Child.AllNest 0 builder.children.reverse) (frames : FramesNest builder.frames)
    (inner : child.Nests builder.frames.length)
    (recorded : builder.faults.reverse.filterMap Fault.tooDeep? =
      builder.deepest ++ child.deepest builder.frames.length) :
    (builder.add child).Nested := by
  rw [← deepest_add] at recorded
  obtain ⟨rest, open_, done, faults⟩ := builder
  cases open_ with
  | nil =>
    refine ⟨?_, trivial, recorded⟩
    simp only [add, List.reverse_cons]
    exact Child.allNest_append.mpr ⟨children, inner, trivial⟩
  | cons frame below => exact ⟨children, ⟨Frame.nests_add frames.1 inner, frames.2⟩, recorded⟩

/-- The innermost frame becomes a child of the one below. -/
theorem Nested.close {builder : Builder τ} {frame : Frame τ} {below : List (Frame τ)}
    {child : Child τ} (nested : builder.Nested) (inside : builder.frames = frame :: below)
    (inner : frame.Nests below.length → child.Nests below.length)
    (same : child.deepest below.length = frame.deepest below.length) :
    ({ builder with frames := below }.add child).Nested := by
  have frames := nested.frames
  have recorded := nested.recorded
  rw [inside] at frames
  rw [deepest, inside] at recorded
  refine nested_add nested.children frames.2 (inner frames.1) ?_
  rw [same]
  exact recorded.trans (List.append_assoc ..).symm

/-- What is noted of the depth of a branch is what stands at the limit. -/
theorem faults_noteDepth {builder : Builder τ} {depth : Nat} (first last : τ)
    (bounded : depth ≤ maxNesting) :
    (builder.noteDepth depth first last).faults.reverse.filterMap Fault.tooDeep? =
      builder.faults.reverse.filterMap Fault.tooDeep? ++ Site.atLimit depth first last := by
  unfold noteDepth Site.atLimit
  by_cases limit : depth = maxNesting
  · rw [if_pos (Nat.le_of_eq limit.symm), if_pos limit, note, List.reverse_cons, List.filterMap_append]
    rfl
  · rw [if_neg (show ¬maxNesting ≤ depth by omega), if_neg limit, List.append_nil]

theorem frames_noteDepth (builder : Builder τ) (depth : Nat) (first last : τ) :
    (builder.noteDepth depth first last).frames = builder.frames := by
  unfold noteDepth
  split <;> rfl

theorem children_noteDepth (builder : Builder τ) (depth : Nat) (first last : τ) :
    (builder.noteDepth depth first last).children = builder.children := by
  unfold noteDepth
  split <;> rfl

theorem Nested.endElement {builder : Builder τ} {below : List (Frame τ)} {head : Head τ}
    {angle : τ} {children : List (Child τ)} (nested : builder.Nested)
    (inside : builder.frames = .element head angle children :: below)
    (close : Option (CloseTag τ)) :
    (builder.endElement below head angle children close).Nested := by
  apply nested.close inside
  · intro inner
    refine ⟨Nat.le_of_lt inner.1, ?_, inner.2⟩
    intro limit
    exact absurd limit (Nat.ne_of_lt inner.1)
  · rfl

theorem Nested.endBlock {builder : Builder τ} {below : List (Frame τ)} {earlier : List (Branch τ)}
    {marker : Marker τ} {children : List (Child τ)} (nested : builder.Nested)
    (inside : builder.frames = .block earlier marker children :: below)
    (finish : Option (BlockEnd τ)) :
    (builder.endBlock below earlier marker children finish).Nested := by
  obtain ⟨first, others, spelled, block, -⟩ := exists_blockOf earlier marker children.reverse
  rw [Builder.endBlock, block]
  apply nested.close inside
  · intro inner
    rw [Frame.Nests, spelled] at inner
    exact inner
  · rw [Frame.deepest, spelled]
    rfl

theorem nests_of_leaf {child : Child τ} {depth : Nat} (whole : child.isLeaf = true)
    (bounded : depth ≤ maxNesting) : child.Nests depth ∧ child.deepest depth = [] := by
  cases child with
  | block | void | element => cases whole
  | _ => exact ⟨bounded, rfl⟩

variable [Terminal τ]

theorem Nested.recover {builder : Builder τ} (nested : builder.Nested) (mismatch : Mismatch τ) :
    (builder.recover mismatch).Nested := nested.note _ rfl

/-- Where a child is wanted there is room for it. -/
theorem Nested.roomy {builder : Builder τ} (nested : builder.Nested)
    (wants : builder.wantsChild = true) : builder.frames.length ≤ maxNesting := by
  have frames := nested.frames
  cases inside : builder.frames with
  | nil => exact Nat.zero_le _
  | cons frame below =>
    rw [inside] at frames
    cases frame with
    | element head angle children => exact frames.1.1
    | block earlier marker children =>
      simp only [wantsChild, inside, Bool.and_eq_true, decide_eq_true_eq] at wants
      exact wants.1

theorem nested_of_does {before after : Builder τ} (does : Does before after)
    (nested : before.Nested) : after.Nested := by
  cases does with
  | broken => exact nested.recover _
  | @leaf child rest wants _ whole =>
    obtain ⟨inner, none⟩ := nests_of_leaf whole (nested.roomy wants)
    refine nested_add nested.children nested.frames inner ?_
    rw [none, List.append_nil]
    exact nested.recorded
  | void reads =>
    refine nested_add nested.children nested.frames (nested.roomy reads.wants) ?_
    exact nested.recorded.trans (List.append_nil _).symm
  | @flat head angle rest reads holds deep =>
    have limit : before.frames.length = maxNesting := Nat.le_antisymm (nested.roomy reads.wants) deep
    refine nested_add nested.children nested.frames ?_ ?_
    · exact ⟨Nat.le_of_eq limit, fun _ => ⟨rfl, rfl⟩, trivial⟩
    · show ((⟨.tooDeep, .across head.opening angle⟩ : Fault τ) :: before.faults).reverse.filterMap
        Fault.tooDeep? = before.deepest ++ (Site.atLimit before.frames.length _ _ ++ [])
      rw [List.reverse_cons, List.filterMap_append, nested.recorded, Site.atLimit, if_pos limit]
      rfl
  | openElement reads holds roomy =>
    refine ⟨nested.children, ⟨⟨roomy, trivial⟩, nested.frames⟩, ?_⟩
    rw [nested.recorded]
    simp only [deepest, framesDeepest, Frame.deepest, Site.atLimit, Nat.ne_of_lt roomy, ↓reduceIte,
      List.reverse_nil, Child.allDeepest, List.append_nil]
  | @openBlock marker rest wants =>
    have bounded := nested.roomy wants
    refine ⟨?_, ?_, ?_⟩
    · rw [openBlock, children_noteDepth]
      exact nested.children
    · rw [openBlock, frames_noteDepth]
      exact ⟨⟨⟨bounded, fun _ => rfl, trivial⟩, trivial⟩, nested.frames⟩
    · rw [openBlock, faults_noteDepth _ _ bounded, deepest, children_noteDepth, frames_noteDepth]
      show before.faults.reverse.filterMap Fault.tooDeep? ++ _ = _
      rw [nested.recorded]
      simp only [deepest, framesDeepest, Frame.deepest, Branch.allDeepest, Branch.deepest,
        List.reverse_nil, List.nil_append, Child.allDeepest, List.append_nil, List.append_assoc]
  | @endClosed _ _ _ _ _ rest ends => exact (nested.read rest).endElement ends.inside _
  | endBroken ends => exact (nested.recover _).endElement ends.inside _
  | endSilent ends => exact nested.endElement ends.inside _
  | endMissing ends => exact (nested.note before.rest rfl).endElement ends.inside _
  | stray => exact nested.note _ rfl
  | strayBroken => exact nested.recover _
  | @turn below earlier marker next children rest ends =>
    have frames := nested.frames
    have recorded := nested.recorded
    rw [ends.inside] at frames
    rw [deepest, ends.inside] at recorded
    have bounded := frames.1.le
    refine ⟨?_, ?_, ?_⟩
    · rw [children_noteDepth]
      exact nested.children
    · rw [frames_noteDepth]
      refine ⟨?_, frames.2⟩
      rw [Frame.Nests, List.reverse_cons]
      exact Branch.allNest_append.mpr ⟨frames.1, ⟨bounded, fun _ => rfl, trivial⟩, trivial⟩
    · rw [faults_noteDepth _ _ bounded, deepest, children_noteDepth, frames_noteDepth]
      show before.faults.reverse.filterMap Fault.tooDeep? ++ _ = _
      rw [recorded]
      simp only [framesDeepest, Frame.deepest, List.reverse_cons, Branch.allDeepest_append,
        Branch.allDeepest, Branch.deepest, List.reverse_nil, Child.allDeepest, List.append_nil,
        List.append_assoc]
  | turnBroken ends => exact (nested.recover _).endBlock ends.inside _
  | @endBlock below earlier marker children finish rest ends =>
    unfold noteWrongEnd
    split
    · exact (nested.read rest).endBlock ends.inside _
    · exact (nested.note rest rfl).endBlock ends.inside _
  | endBlockBroken ends => exact (nested.recover _).endBlock ends.inside _
  | endBlockMissing ends => exact (nested.note before.rest rfl).endBlock ends.inside _
  | dropUnexpected => exact nested.note _ rfl

omit [Terminal τ] in
theorem nested_start (tokens : List τ) : (start tokens).Nested := ⟨trivial, trivial, rfl⟩

end Builder

/-- No tree is too deep, and the faults tell of all that stands at the limit in it. -/
theorem nests_build [Terminal τ] (tokens : List τ) :
    Child.AllNest 0 (build tokens).children ∧
      (build tokens).faults.filterMap Fault.tooDeep? =
        Child.allDeepest 0 (build tokens).children := by
  have nested : (Builder.machine.exhaust (.start tokens)).Nested := by
    apply (Builder.machine.reaches_exhaust (.start tokens)).keeps Builder.Nested
    · intro before after nested taken
      exact Builder.nested_of_does (Builder.does_of_step taken) nested
    · exact Builder.nested_start tokens
  obtain ⟨-, frames⟩ := Builder.stopped_of_step
    (Builder.machine.step_exhaust (Builder.start tokens))
  have recorded := nested.recorded
  rw [Builder.deepest, frames] at recorded
  exact ⟨nested.children, recorded.trans (List.append_nil _)⟩

end Template.Concrete
