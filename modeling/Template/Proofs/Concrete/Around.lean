import Template.Proofs.Concrete.Locality

set_option autoImplicit false

namespace Template.Concrete

open Terminal (kind tagName blockName)
open Rule

variable {τ : Type}

/-- What stands around a content: the elements and branches that it is inside, the innermost first,
each among the children of what it is inside itself. Earlier branches are kept the latest first. -/
inductive Around (τ : Type) where
  | root
  | element (outer : Around τ) (before : List (Child τ)) (head : Head τ) (angle : τ)
      (close : Option (CloseTag τ)) (after : List (Child τ))
  | branch (outer : Around τ) (before : List (Child τ)) (earlier : List (Branch τ))
      (marker : Marker τ) (later : List (Branch τ)) (finish : Option (BlockEnd τ))
      (after : List (Child τ))

namespace Around

/-- The whole tree, given the content. -/
def fill : Around τ → List (Child τ) → List (Child τ)
  | root, content => content
  | element outer before head angle close after, content =>
    outer.fill (before ++ .element head angle content close :: after)
  | branch outer before earlier marker later finish after, content =>
    outer.fill (before ++ Builder.blockOf finish earlier ⟨marker, content⟩ later :: after)

def front : Around τ → List τ
  | root => []
  | element outer before head angle _ _ =>
    outer.front ++ (Child.yields before ++ (head.yield ++ [angle]))
  | branch outer before earlier marker _ _ _ =>
    outer.front ++ (Child.yields before ++ (Branch.yields earlier.reverse ++ marker.yield))

def back : Around τ → List τ
  | root => []
  | element outer _ _ _ close after =>
    close.toList.flatMap CloseTag.yield ++ (Child.yields after ++ outer.back)
  | branch outer _ _ _ later finish after =>
    Branch.yields later ++
      (finish.toList.flatMap BlockEnd.yield ++ (Child.yields after ++ outer.back))

def depth : Around τ → Nat
  | root => 0
  | element outer .. | branch outer .. => outer.depth + 1

/-- The frames that are open after some children of the content. -/
def frames : Around τ → List (Child τ) → List (Frame τ)
  | root, _ => []
  | element outer before head angle _ _, children =>
    .element head angle children.reverse :: outer.frames before
  | branch outer before earlier marker _ _ _, children =>
    .block earlier marker children.reverse :: outer.frames before

/-- The children outside all frames after some children of the content, the latest first. -/
def settled : Around τ → List (Child τ) → List (Child τ)
  | root, children => children.reverse
  | element outer before .., _ | branch outer before .., _ => outer.settled before

/-- Where building stands after some children of the content, with some tokens left. -/
def standing (around : Around τ) (children : List (Child τ)) (rest : List τ) : Builder τ :=
  ⟨rest, around.frames children, around.settled children, []⟩

/-- The tokens of the whole tree, with others between some children of the content. -/
def inserting (around : Around τ) (left : List (Child τ)) (tokens : List τ)
    (right : List (Child τ)) : List τ :=
  around.front ++ (Child.yields left ++ (tokens ++ (Child.yields right ++ around.back)))

theorem yields_fill (around : Around τ) : ∀ content : List (Child τ),
    Child.yields (around.fill content) =
      around.front ++ (Child.yields content ++ around.back) := by
  induction around with
  | root => exact fun content => (List.append_nil _).symm
  | element outer before head angle close after ih =>
    intro content
    simp only [fill, ih, Child.yields_append, Child.yields, Child.yield, front, back,
      List.append_assoc, List.cons_append, List.nil_append]
  | branch outer before earlier marker later finish after ih =>
    intro content
    simp only [fill, ih, Child.yields_append, Child.yields, Builder.yield_blockOf, Branch.yield,
      front, back, List.append_assoc]

theorem inserting_nil (around : Around τ) (left right : List (Child τ)) :
    around.inserting left [] right = Child.yields (around.fill (left ++ right)) := by
  rw [inserting, yields_fill, Child.yields_append, List.nil_append, List.append_assoc]

theorem length_frames (around : Around τ) : ∀ children : List (Child τ),
    (around.frames children).length = around.depth := by
  induction around with
  | root => exact fun _ => rfl
  | element outer before _ _ _ _ ih => exact fun _ => congrArg (· + 1) (ih before)
  | branch outer before _ _ _ _ _ ih => exact fun _ => congrArg (· + 1) (ih before)

theorem addAll_standing (around : Around τ) (children more : List (Child τ)) (rest : List τ) :
    (around.standing children rest).addAll more = around.standing (children ++ more) rest := by
  cases around with
  | root =>
    rw [Builder.addAll_root _ _ rfl]
    simp only [standing, settled, frames, List.reverse_append]
  | element outer before head angle close after =>
    rw [Builder.addAll_element more _ _ head angle _ rfl]
    simp only [standing, settled, frames, List.reverse_append]
  | branch outer before earlier marker later finish after =>
    rw [Builder.addAll_block more _ _ earlier marker _ rfl]
    simp only [standing, settled, frames, List.reverse_append]

variable [Terminal τ]

def names : Around τ → List Text
  | root => []
  | element outer _ head .. => Builder.nameOf head :: outer.names
  | branch outer .. => outer.names

theorem openNames_frames (around : Around τ) : ∀ children : List (Child τ),
    Builder.openNames (around.frames children) = around.names := by
  induction around with
  | root => exact fun _ => rfl
  | element outer before head _ _ _ ih =>
    exact fun _ => congrArg (Builder.nameOf head :: ·) (ih before)
  | branch outer before _ _ _ _ _ ih => exact fun _ => ih before

end Around

variable [Terminal τ]

/-- The content of a branch in a well-formed block. -/
theorem allFormed_of_blockOf {extent : Extent τ} {depth : Nat} {finish : Option (BlockEnd τ)}
    {earlier later : List (Branch τ)} {marker : Marker τ} {content : List (Child τ)}
    {after : List τ}
    (formed : (Builder.blockOf finish earlier ⟨marker, content⟩ later).Formed extent depth after) :
    depth < maxNesting ∧ Child.AllFormed extent (depth + 1) content
      (Branch.yields later ++ (finish.toList.flatMap BlockEnd.yield ++ after)) := by
  cases spelled : earlier.reverse with
  | nil =>
    obtain rfl : earlier = [] := List.reverse_eq_nil_iff.mp spelled
    obtain ⟨⟨-, bounded, inside⟩, -⟩ := formed
    exact ⟨bounded, inside⟩
  | cons first middle =>
    rw [Builder.blockOf_eq finish earlier _ later (by rw [spelled]; rfl)] at formed
    obtain ⟨-, others, -⟩ := formed
    obtain ⟨-, ⟨-, bounded, inside⟩, -⟩ := Branch.allFormed_append.mp others
    exact ⟨bounded, inside⟩

namespace Around

theorem allFormed_of_fill {extent : Extent τ} (around : Around τ) : ∀ {content : List (Child τ)},
    WellFormed extent (around.fill content) →
      Child.AllFormed extent around.depth content around.back := by
  induction around with
  | root => exact fun formed => formed
  | element outer before head angle close after ih =>
    intro content formed
    obtain ⟨-, ⟨-, -, -, -, -, inside, -⟩, -⟩ := Child.allFormed_append.mp (ih formed)
    exact inside
  | branch outer before earlier marker later finish after ih =>
    intro content formed
    obtain ⟨-, block, -⟩ := Child.allFormed_append.mp (ih formed)
    exact (allFormed_of_blockOf block).2

theorem roomy_frames {extent : Extent τ} (around : Around τ) {content : List (Child τ)}
    (formed : WellFormed extent (around.fill content)) (children : List (Child τ)) :
    Roomy (around.frames children) := by
  cases around with
  | root => trivial
  | element => trivial
  | branch outer before earlier marker later finish after =>
    obtain ⟨-, block, -⟩ := Child.allFormed_append.mp (outer.allFormed_of_fill formed)
    have bounded := (allFormed_of_blockOf block).1
    rwa [← outer.length_frames before] at bounded

theorem spares_frames {extent : Extent τ} (around : Around τ) {content : List (Child τ)}
    (formed : WellFormed extent (around.fill content)) (children : List (Child τ)) :
    ∀ child ∈ content, ∀ name ∈ child.tag?, Spares (around.frames children) name := by
  cases around with
  | root => exact fun _ _ name _ => Builder.spares_root name
  | element outer before head angle close after =>
    obtain ⟨-, ⟨-, -, -, -, spared, -⟩, -⟩ :=
      Child.allFormed_append.mp (outer.allFormed_of_fill formed)
    exact spared
  | branch outer before earlier marker later finish after =>
    exact fun _ _ name _ => Builder.spares_block _ _ _ _ name

end Around

/-- Building comes from the beginning of a block to the content of any branch of it. -/
theorem Builder.reaches_branch {builder : Builder τ} {earlier later : List (Branch τ)}
    {marker : Marker τ} {content : List (Child τ)} {finish : Option (BlockEnd τ)}
    {after rest : List τ}
    (here : builder.rest = Branch.yields earlier.reverse ++ (marker.yield ++ rest))
    (formed : (blockOf finish earlier ⟨marker, content⟩ later).Formed .whole
      builder.frames.length after) (roomy : Roomy builder.frames) :
    machine.Reaches builder
      { builder with rest, frames := .block earlier marker [] :: builder.frames } := by
  cases spelled : earlier.reverse with
  | nil =>
    obtain rfl : earlier = [] := List.reverse_eq_nil_iff.mp spelled
    obtain ⟨⟨sound, bounded, -⟩, -⟩ := formed
    exact reaches_openBlock here sound bounded roomy
  | cons first middle =>
    obtain ⟨opening, inside⟩ := first
    have whole : blockOf finish earlier ⟨marker, content⟩ later =
        .block ⟨opening, inside⟩ (middle ++ ⟨marker, content⟩ :: later) finish :=
      blockOf_eq finish earlier _ later (by rw [spelled, List.cons_append])
    rw [whole] at formed
    obtain ⟨⟨sound, bounded, inner⟩, others, -⟩ := formed
    obtain ⟨between, ⟨turning, -⟩, -⟩ := Branch.allFormed_append.mp others
    simp only [spelled, Branch.yields, Branch.yield, List.append_assoc] at here
    -- What follows each branch begins with a marker, whatever comes after that.
    have still := marker.shut.still (Child.yields content ++ (Branch.yields later ++
      (finish.toList.flatMap BlockEnd.yield ++ after))) rest
    simp only [Branch.yields_append, Branch.yields, Branch.yield, List.append_assoc]
      at inner between
    have opened := reaches_openBlock here sound bounded roomy
    have filled := reaches_children inside { builder with
      rest := Child.yields inside ++ (Branch.yields middle ++ (marker.yield ++ rest))
      frames := .block [] opening [] :: builder.frames } _ rfl
      (Child.AllFormed.before (Nat.le_refl _) ((Branch.still still).stillFor _) inner) bounded
      (fun _ _ _ _ => spares_block _ _ _ _ _)
    rw [addAll_block inside _ builder.frames [] opening [] rfl, List.append_nil] at filled
    obtain ⟨before, final, last, turned, same⟩ := reaches_branches middle { builder with
      rest := Branch.yields middle ++ (marker.yield ++ rest)
      frames := .block [] opening inside.reverse :: builder.frames } _ _ _ _ _ rfl rfl
      (Branch.AllFormed.before (Nat.le_refl _) still between)
    have ahead : ⟨final, last.reverse⟩ :: before = earlier := by
      rw [List.reverse_nil, List.nil_append, List.reverse_reverse, ← spelled] at same
      simpa only [List.reverse_append, List.reverse_reverse, List.reverse_cons, List.reverse_nil,
        List.nil_append, List.singleton_append] using congrArg List.reverse same
    have turn : machine.Reaches { builder with
        rest := marker.yield ++ rest
        frames := .block before final last :: builder.frames } _ :=
      reaches_turn rfl rfl turning bounded
    rw [ahead] at turn
    exact opened.trans (filled.trans (turned.trans turn))

namespace Around

open Builder

/-- From the start of a content, building comes to each place in it. -/
theorem reaches_after (around : Around τ) (left right : List (Child τ)) (rest : List τ)
    (formed : WellFormed .whole (around.fill (left ++ right)))
    (still : StillFor (Child.pendings left) (Child.yields right ++ around.back) rest)
    (begun : ∀ tokens, machine.Reaches (.start (around.front ++ tokens))
      (around.standing [] tokens)) :
    machine.Reaches (.start (around.front ++ (Child.yields left ++ rest)))
      (around.standing left rest) := by
  have before := (Child.allFormed_append.mp (around.allFormed_of_fill formed)).1
  have elsewhere := Child.AllFormed.before (Nat.le_refl _) still before
  rw [← around.length_frames []] at elsewhere
  have filled := reaches_children left (around.standing [] (Child.yields left ++ rest)) rest rfl
    elsewhere (around.roomy_frames formed []) fun child member =>
      around.spares_frames formed [] child (List.mem_append_left _ member)
  have added := around.addAll_standing [] left rest
  rw [List.nil_append] at added
  rw [← added]
  exact (begun _).trans filled

/-- Building comes to the start of each content. -/
theorem reaches_content (around : Around τ) : ∀ {content : List (Child τ)},
    WellFormed .whole (around.fill content) → ∀ rest,
      machine.Reaches (.start (around.front ++ rest)) (around.standing [] rest) := by
  induction around with
  | root => exact fun _ rest => .refl _
  | element outer before head angle close after ih =>
    intro content formed rest
    obtain ⟨-, ⟨sound, closes, holds, bounded, -⟩, -⟩ :=
      Child.allFormed_append.mp (outer.allFormed_of_fill formed)
    -- What comes before the element ends before its head, whatever comes after that.
    have still := (sound.shut (by decide)).still (angle :: (Child.yields content ++
      (close.toList.flatMap CloseTag.yield ++ (Child.yields after ++ outer.back)))) (angle :: rest)
    have reached := outer.reaches_after before _ (head.yield ++ angle :: rest) formed (by
      simpa only [Child.yields, Child.yield, List.append_assoc, List.cons_append]
        using still.stillFor _) (ih formed)
    have spared := outer.spares_frames formed before (.element head angle content close)
      (List.mem_append_right _ List.mem_cons_self) (nameOf head) rfl
    have alike : head.Formed .whole .openTag (angle :: rest) :=
      sound.alike (alike_angle closes _ _)
    rw [← outer.length_frames before] at bounded
    simp only [front, List.append_assoc, List.singleton_append]
    exact reached.trans (reaches_openElement rfl alike closes holds bounded
      (outer.roomy_frames formed before) spared)
  | branch outer before earlier marker later finish after ih =>
    intro content formed rest
    have block := (Child.allFormed_append.mp (outer.allFormed_of_fill formed)).2.1
    rw [← outer.length_frames before] at block
    -- What comes before the block ends before its first marker.
    have still : Still (Child.yields (blockOf finish earlier ⟨marker, content⟩ later :: after) ++
        outer.back) (Branch.yields earlier.reverse ++ (marker.yield ++ rest)) := by
      have turns := marker.shut.still (Child.yields content ++ (Branch.yields later ++
        (finish.toList.flatMap BlockEnd.yield ++ (Child.yields after ++ outer.back)))) rest
      simpa only [Child.yields, yield_blockOf, Branch.yield, List.append_assoc]
        using Branch.still turns
    have reached := outer.reaches_after before _ _ formed (still.stillFor _) (ih formed)
    simp only [front, List.append_assoc]
    exact reached.trans (reaches_branch rfl block (outer.roomy_frames formed before))

/-- Building a well-formed tree comes to each place in it, and so it does with other tokens from
there on, if what ends there ends before those too. -/
theorem reaches_place {around : Around τ} {left right : List (Child τ)} {rest : List τ}
    (formed : WellFormed .whole (around.fill (left ++ right)))
    (still : StillFor (Child.pendings left) (Child.yields right ++ around.back) rest) :
    machine.Reaches (.start (around.front ++ (Child.yields left ++ rest)))
      (around.standing left rest) :=
  around.reaches_after left right rest formed still (around.reaches_content formed)

end Around

end Template.Concrete
