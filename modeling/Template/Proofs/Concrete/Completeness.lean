import Template.Proofs.Concrete.Soundness

set_option autoImplicit false

namespace Template.Concrete

open Terminal (kind tagName blockName)
open Rule

variable {τ : Type} [Terminal τ]

/-- A tag begins a child unless the content ends before it. -/
theorem startsChild_of_openTag {stops : Option (List Text)} {opening : τ}
    (opener : kind opening = .openTag) (outside : ∀ list ∈ stops, tagName opening ∉ list)
    (rest : List τ) : Builder.startsChild stops (opening :: rest) = true := by
  cases stops with
  | none =>
    simp only [Builder.startsChild, opener, Option.getD_none, List.contains_nil, Bool.not_false]
  | some list =>
    have absent := outside list rfl
    simp only [Builder.startsChild, opener, Option.getD_some, List.contains_eq_mem, absent,
      decide_false, Bool.not_false]

/-- A brace begins a child unless it goes on with a branch or ends a block. -/
theorem startsChild_of_brace {stops : Option (List Text)} {opening : τ} {rest : List τ}
    {second : Kind} (opener : kind opening = .braceOpen) (next : kind? rest = some second)
    (turns : second ≠ .block .continuing) (closes : second ≠ .block .closing) :
    Builder.startsChild stops (opening :: rest) = true := by
  simp [Builder.startsChild, opener, next, turns, closes]

/-- Every child that is well-formed and may stand here is wanted here. -/
theorem startsChild_of_formed {stops : Option (List Text)} {child : Child τ} {depth : Nat}
    {after : List τ} (formed : child.Formed .whole depth after)
    (spared : ∀ name ∈ child.tag?, ∀ list ∈ stops, name ∉ list) (rest : List τ) :
    Builder.startsChild stops (child.yield ++ rest) = true := by
  cases child with
  | text token =>
    have same : kind token = .text := formed
    simp only [Child.yield, List.singleton_append, Builder.startsChild, same]
  | comment token =>
    have same : kind token = .comment := formed
    simp only [Child.yield, List.singleton_append, Builder.startsChild, same]
  | braced script =>
    have sound : script.Formed := formed
    have second := sound.second rest
    rw [Child.yield]
    rw [Braced.yield_append, List.tail_cons] at second
    rw [Braced.yield_append]
    rcases second with second | second <;>
      exact startsChild_of_brace sound.opening second (by decide) (by decide)
  | single marker =>
    have sound : marker.Formed .single := formed
    rw [Child.yield, Marker.yield_append]
    exact startsChild_of_brace sound.opening (congrArg some sound.name) (by decide) (by decide)
  | block first others finish =>
    obtain ⟨marker, content⟩ := first
    have sound : marker.Formed .opening := formed.1.1
    simp only [Child.yield, Branch.yield, List.append_assoc]
    rw [Marker.yield_append]
    exact startsChild_of_brace sound.opening (congrArg some sound.name) (by decide) (by decide)
  | raw element head body =>
    have same : kind head.opening = .rawOpen element := formed.1.opening
    simp only [Child.yield, Head.yield, List.cons_append, Builder.startsChild, same]
  | selfClosed head slash angle => exact startsChild_of_openTag formed.1.opening (spared _ rfl) _
  | void head angle => exact startsChild_of_openTag formed.1.opening (spared _ rfl) _
  | element head angle content close =>
    exact startsChild_of_openTag formed.1.opening (spared _ rfl) _

/-- Whether the content of the innermost frame is read at all. -/
def Roomy : List (Frame τ) → Prop
  | .block _ _ _ :: below => below.length < maxNesting
  | _ => True

namespace Builder

theorem wantsChild_eq {builder : Builder τ} (roomy : Roomy builder.frames) :
    builder.wantsChild = startsChild (stopsOf builder.frames) builder.rest := by
  obtain ⟨rest, frames, children, faults⟩ := builder
  cases frames with
  | nil => rfl
  | cons frame below =>
    cases frame with
    | element head angle children => rfl
    | block earlier marker children =>
      have bounded : below.length < maxNesting := roomy
      simp only [wantsChild, bounded, decide_true, Bool.true_and, stopsOf]

/-- A child that is wanted is begun. -/
theorem reaches_readChild {builder : Builder τ} (roomy : Roomy builder.frames)
    (begins : startsChild (stopsOf builder.frames) builder.rest = true) :
    machine.Reaches builder builder.readChild := by
  have wants : builder.wantsChild = true := by rw [wantsChild_eq roomy, begins]
  exact .single (by simp only [machine, step, wants, ↓reduceIte])

theorem reaches_leaf {builder : Builder τ} {child : Child τ} {after : List τ}
    (leaf : child.isLeaf = true) (here : builder.rest = child.yield ++ after)
    (formed : child.Formed .whole builder.frames.length after) (roomy : Roomy builder.frames)
    (spared : ∀ name ∈ child.tag?, Spares builder.frames name) :
    machine.Reaches builder ({ builder with rest := after }.add child) := by
  have read : builder.readChild = { builder with rest := after }.add child := by
    simp only [readChild, here, piece_of_leaf leaf formed]
  rw [← read]
  refine reaches_readChild roomy ?_
  rw [here]
  exact startsChild_of_formed formed spared after

theorem reaches_openElement {builder : Builder τ} {head : Head τ} {angle : τ} {rest : List τ}
    (here : builder.rest = head.yield ++ angle :: rest)
    (sound : head.Formed .whole .openTag (angle :: rest)) (closes : kind angle = .angle)
    (holds : Element.isVoid (nameOf head) = false) (bounded : builder.frames.length < maxNesting)
    (roomy : Roomy builder.frames) (spared : Spares builder.frames (nameOf head)) :
    machine.Reaches builder
      { builder with rest, frames := .element head angle [] :: builder.frames } := by
  have read : piece builder.rest = .ok (.element head angle, rest) := by
    rw [here]
    exact piece_of_angle sound closes
  have opened : builder.readChild =
      { builder with rest, frames := .element head angle [] :: builder.frames } := by
    simp only [readChild, read, openElement, holds, Bool.false_eq_true, ↓reduceIte,
      Nat.not_le.mpr bounded]
  rw [← opened]
  refine reaches_readChild roomy ?_
  rw [here, Head.yield, List.cons_append, List.cons_append]
  exact startsChild_of_openTag sound.opening spared _

theorem reaches_void {builder : Builder τ} {head : Head τ} {angle : τ} {after : List τ}
    (here : builder.rest = (Child.void head angle).yield ++ after)
    (formed : (Child.void head angle).Formed .whole builder.frames.length after)
    (roomy : Roomy builder.frames) (spared : Spares builder.frames (nameOf head)) :
    machine.Reaches builder ({ builder with rest := after }.add (.void head angle)) := by
  have begins := startsChild_of_formed formed (by rintro name ⟨⟩; exact spared) after
  rw [← here] at begins
  have opened := reaches_readChild roomy begins
  obtain ⟨sound, last, empty⟩ := formed
  have read : piece builder.rest = .ok (.element head angle, after) := by
    rw [here, Child.yield, List.append_assoc, List.singleton_append]
    exact piece_of_angle sound last
  simpa only [readChild, read, openElement, empty, ↓reduceIte] using opened

theorem reaches_finishContent {builder : Builder τ} {below : List (Frame τ)} {head : Head τ}
    {angle : τ} {children : List (Child τ)}
    (inside : builder.frames = .element head angle children :: below)
    (idle : startsChild (Element.stops? (nameOf head)) builder.rest = false) :
    machine.Reaches builder (builder.finishContent below head angle children) := by
  have wants : builder.wantsChild = false := by rw [wantsChild, inside]; exact idle
  exact .single (by simp only [machine, step, wants, Bool.false_eq_true, ↓reduceIte, inside])

/-- An element may end where the grammar lets it end. -/
theorem reaches_endElement (builder : Builder τ) {below : List (Frame τ)} {head : Head τ}
    {angle : τ} {children : List (Child τ)} {close : Option (CloseTag τ)} {rest : List τ}
    (inside : builder.frames = .element head angle children :: below)
    (here : builder.rest = close.toList.flatMap CloseTag.yield ++ rest)
    (closed : ClosedBy (nameOf head) rest close) :
    machine.Reaches builder ({ builder with rest }.endElement below head angle children close) := by
  cases close with
  | some close =>
    obtain ⟨sound, named⟩ := closed
    have spelled : builder.rest = close.yield ++ rest := by
      simpa only [Option.toList_some, List.flatMap_singleton] using here
    have read : closeTag builder.rest = .ok (close, rest) := closeTag_eq_ok.mpr ⟨spelled, sound⟩
    rw [CloseTag.yield_append] at spelled
    have ending : endingOf (nameOf head) (openNames below) builder.rest = .closed := by
      rw [spelled]
      simp only [endingOf, sound.opening, named, and_self, ↓reduceIte]
    have ended : builder.finishContent below head angle children =
        { builder with rest }.endElement below head angle children (some close) := by
      simp only [finishContent, ending, read]
    rw [← ended]
    refine reaches_finishContent inside ?_
    simp only [spelled, startsChild, sound.opening]
  | none =>
    obtain ⟨stops, found, ends⟩ := closed
    have may : Element.mayEnd (nameOf head) = true := by
      rw [Element.mayEnd, found, Option.isSome_some]
    have same : builder.rest = rest := here
    have silent : endingOf (nameOf head) (openNames below) rest = .silent ∧
        startsChild (Element.stops? (nameOf head)) rest = false := by
      cases rest with
      | nil => exact ⟨if_pos may, rfl⟩
      | cons token rest =>
        rcases ends with ⟨closing, other⟩ | ⟨opener, stop⟩ | ⟨brace, second⟩
        · simp [endingOf, other, may, startsChild, closing]
        · simp [endingOf, opener, may, startsChild, found, stop]
        · rcases second with second | second <;>
            simp [endingOf, brace, may, startsChild, second]
    have ended : builder.finishContent below head angle children =
        { builder with rest }.endElement below head angle children none := by
      simp only [finishContent, same, silent.1]
      rw [← same]
    rw [← ended]
    refine reaches_finishContent inside ?_
    rw [same]
    exact silent.2

theorem reaches_openBlock {builder : Builder τ} {marker : Marker τ} {rest : List τ}
    (here : builder.rest = marker.yield ++ rest) (sound : marker.Formed .opening)
    (bounded : builder.frames.length < maxNesting) (roomy : Roomy builder.frames) :
    machine.Reaches builder
      { builder with rest, frames := .block [] marker [] :: builder.frames } := by
  have read : piece builder.rest = .ok (.branch marker, rest) := by
    rw [here]
    exact piece_of_marker sound
  have opened : builder.readChild =
      { builder with rest, frames := .block [] marker [] :: builder.frames } := by
    simp only [readChild, read, openBlock, noteDepth, ↓reduceIte, Nat.not_le.mpr bounded]
  rw [← opened]
  refine reaches_readChild roomy ?_
  rw [here, Marker.yield_append]
  exact startsChild_of_brace sound.opening (congrArg some sound.name) (by decide) (by decide)

theorem reaches_finishBranch {builder : Builder τ} {below : List (Frame τ)}
    {earlier : List (Branch τ)} {marker : Marker τ} {children : List (Child τ)}
    (inside : builder.frames = .block earlier marker children :: below)
    (idle : startsChild none builder.rest = false) :
    machine.Reaches builder (builder.finishBranch below earlier marker children) := by
  have wants : builder.wantsChild = false := by
    rw [wantsChild, inside]
    simp only [idle, Bool.and_false]
  exact .single (by simp only [machine, step, wants, Bool.false_eq_true, ↓reduceIte, inside])

theorem reaches_turn {builder : Builder τ} {below : List (Frame τ)} {earlier : List (Branch τ)}
    {marker next : Marker τ} {children : List (Child τ)} {rest : List τ}
    (inside : builder.frames = .block earlier marker children :: below)
    (here : builder.rest = next.yield ++ rest) (sound : next.Formed .continuing)
    (bounded : below.length < maxNesting) :
    machine.Reaches builder { builder with
      rest
      frames := .block (⟨marker, children.reverse⟩ :: earlier) next [] :: below } := by
  have read : Concrete.marker .continuing builder.rest = .ok (next, rest) :=
    marker_eq_ok.mpr ⟨here, sound⟩
  have first : kind? builder.rest = some .braceOpen := by
    rw [here, Marker.yield_append]
    exact congrArg some sound.opening
  have second : kind? builder.rest.tail = some (.block .continuing) := by
    rw [here, Marker.yield_append]
    exact congrArg some sound.name
  have turned : builder.finishBranch below earlier marker children = { builder with
      rest
      frames := .block (⟨marker, children.reverse⟩ :: earlier) next [] :: below } := by
    simp only [finishBranch, first, second, read, noteDepth, Nat.not_le.mpr bounded, ↓reduceIte]
  rw [← turned]
  refine reaches_finishBranch inside ?_
  rw [here, Marker.yield_append] at second ⊢
  rw [List.tail_cons] at second
  simp [startsChild, sound.opening, second]

theorem reaches_endBlock (builder : Builder τ) {below : List (Frame τ)} {earlier : List (Branch τ)}
    {marker : Marker τ} {children : List (Child τ)} {finish : BlockEnd τ} (rest : List τ)
    (inside : builder.frames = .block earlier marker children :: below)
    (here : builder.rest = finish.yield ++ rest) (sound : finish.Formed)
    (same : blockName (firstMarker earlier marker).name = blockName finish.name) :
    machine.Reaches builder
      ({ builder with rest }.endBlock below earlier marker children (some finish)) := by
  have read : blockEnd builder.rest = .ok (finish, rest) := blockEnd_eq_ok.mpr ⟨here, sound⟩
  have first : kind? builder.rest = some .braceOpen := by
    rw [here, BlockEnd.yield_append]
    exact congrArg some sound.opening
  have second : kind? builder.rest.tail = some (.block .closing) := by
    rw [here, BlockEnd.yield_append]
    exact congrArg some sound.name
  have ended : builder.finishBranch below earlier marker children =
      { builder with rest }.endBlock below earlier marker children (some finish) := by
    simp only [finishBranch, first, second, read, noteWrongEnd, same, ↓reduceIte]
  rw [← ended]
  refine reaches_finishBranch inside ?_
  rw [here, BlockEnd.yield_append] at second ⊢
  rw [List.tail_cons] at second
  simp [startsChild, sound.opening, second]

theorem spares_root (name : Text) : Spares ([] : List (Frame τ)) name := by
  intro stops found
  cases found

theorem spares_block (earlier : List (Branch τ)) (marker : Marker τ) (children : List (Child τ))
    (below : List (Frame τ)) (name : Text) :
    Spares (.block earlier marker children :: below) name := by
  intro stops found
  cases found

def addAll (builder : Builder τ) (children : List (Child τ)) : Builder τ :=
  children.foldl add builder

omit [Terminal τ] in
theorem addAll_element (children : List (Child τ)) :
    ∀ (builder : Builder τ) (below : List (Frame τ)) (head : Head τ) (angle : τ)
      (others : List (Child τ)), builder.frames = .element head angle others :: below →
        builder.addAll children =
          { builder with frames := .element head angle (children.reverse ++ others) :: below } := by
  induction children with
  | nil =>
    rintro ⟨rest, frames, children, faults⟩ below head angle others rfl
    rfl
  | cons child children ih =>
    rintro ⟨rest, frames, siblings, faults⟩ below head angle others rfl
    rw [addAll, List.foldl_cons, ← addAll, ih _ below head angle (child :: others) rfl,
      List.reverse_cons, List.append_assoc, List.singleton_append]
    rfl

omit [Terminal τ] in
theorem addAll_block (children : List (Child τ)) :
    ∀ (builder : Builder τ) (below : List (Frame τ)) (earlier : List (Branch τ)) (marker : Marker τ)
      (others : List (Child τ)), builder.frames = .block earlier marker others :: below →
        builder.addAll children =
          { builder with
            frames := .block earlier marker (children.reverse ++ others) :: below } := by
  induction children with
  | nil =>
    rintro ⟨rest, frames, children, faults⟩ below earlier marker others rfl
    rfl
  | cons child children ih =>
    rintro ⟨rest, frames, siblings, faults⟩ below earlier marker others rfl
    rw [addAll, List.foldl_cons, ← addAll, ih _ below earlier marker (child :: others) rfl,
      List.reverse_cons, List.append_assoc, List.singleton_append]
    rfl

omit [Terminal τ] in
theorem addAll_root (children : List (Child τ)) :
    ∀ builder : Builder τ, builder.frames = [] →
      builder.addAll children =
        { builder with children := children.reverse ++ builder.children } := by
  induction children with
  | nil => exact fun _ _ => rfl
  | cons child children ih =>
    rintro ⟨rest, frames, siblings, faults⟩ rfl
    rw [addAll, List.foldl_cons, ← addAll, ih _ rfl, List.reverse_cons, List.append_assoc,
      List.singleton_append]
    rfl

omit [Terminal τ] in
theorem add_rest (builder : Builder τ) (child : Child τ) (rest : List τ) :
    { builder.add child with rest } = { builder with rest }.add child := by
  obtain ⟨tokens, frames, children, faults⟩ := builder
  cases frames <;> rfl

theorem stopsOf_add (builder : Builder τ) (child : Child τ) :
    stopsOf (builder.add child).frames = stopsOf builder.frames := by
  obtain ⟨rest, frames, children, faults⟩ := builder
  cases frames with
  | nil => rfl
  | cons frame below => cases frame <;> rfl

theorem openNames_add (builder : Builder τ) (child : Child τ) :
    openNames (builder.add child).frames = openNames builder.frames := by
  obtain ⟨rest, frames, children, faults⟩ := builder
  cases frames with
  | nil => rfl
  | cons frame below => cases frame <;> rfl

omit [Terminal τ] in
theorem roomy_add (builder : Builder τ) (roomy : Roomy builder.frames) (child : Child τ) :
    Roomy (builder.add child).frames := by
  obtain ⟨rest, frames, children, faults⟩ := builder
  cases frames with
  | nil => exact roomy
  | cons frame below => cases frame <;> exact roomy

mutual

theorem reaches_child : ∀ (child : Child τ) (builder : Builder τ) (after : List τ),
    builder.rest = child.yield ++ after → child.Formed .whole builder.frames.length after →
    Roomy builder.frames → (∀ name ∈ child.tag?, Spares builder.frames name) →
    machine.Reaches builder ({ builder with rest := after }.add child)
  | .text _, _, _ => reaches_leaf rfl
  | .comment _, _, _ => reaches_leaf rfl
  | .braced _, _, _ => reaches_leaf rfl
  | .single _, _, _ => reaches_leaf rfl
  | .raw _ _ _, _, _ => reaches_leaf rfl
  | .selfClosed _ _ _, _, _ => reaches_leaf rfl
  | .void head angle, _, _ => fun here formed roomy spared =>
    reaches_void here formed roomy (spared _ rfl)
  | .element head angle content close, builder, after => fun here formed roomy spared => by
    obtain ⟨sound, closes, holds, bounded, spares, inner, closed⟩ := formed
    simp only [Child.yield, List.append_assoc, List.cons_append] at here sound
    have opened := reaches_openElement here sound closes holds bounded roomy (spared _ rfl)
    have filled := reaches_children content { builder with
      rest := Child.yields content ++ (close.toList.flatMap CloseTag.yield ++ after)
      frames := .element head angle [] :: builder.frames } _ rfl inner trivial spares
    rw [addAll_element content _ builder.frames head angle [] rfl, List.append_nil] at filled
    have ended := reaches_endElement { builder with
      rest := close.toList.flatMap CloseTag.yield ++ after
      frames := .element head angle content.reverse :: builder.frames } rfl rfl closed
    refine opened.trans (filled.trans ?_)
    simpa only [endElement, List.reverse_reverse] using ended
  | .block ⟨marker, content⟩ others finish, builder, after => fun here formed roomy _ => by
    obtain ⟨⟨opening, bounded, inner⟩, branches, found, rfl, sound, same⟩ := formed
    simp only [Child.yield, Branch.yield, List.append_assoc] at here
    have opened := reaches_openBlock here opening bounded roomy
    have filled := reaches_children content { builder with
      rest := Child.yields content ++
        (Branch.yields others ++ ((some found).toList.flatMap BlockEnd.yield ++ after))
      frames := .block [] marker [] :: builder.frames } _ rfl inner bounded
      (fun _ _ _ _ => spares_block _ _ _ _ _)
    rw [addAll_block content _ builder.frames [] marker [] rfl, List.append_nil] at filled
    obtain ⟨earlier, final, children, turned, spelled⟩ := reaches_branches others { builder with
      rest := Branch.yields others ++ ((some found).toList.flatMap BlockEnd.yield ++ after)
      frames := .block [] marker content.reverse :: builder.frames } _ _ _ _ _ rfl rfl branches
    rw [List.reverse_nil, List.nil_append, List.reverse_reverse] at spelled
    rw [← firstMarker_eq earlier final _ [] spelled] at same
    have ended := reaches_endBlock { builder with
      rest := (some found).toList.flatMap BlockEnd.yield ++ after
      frames := .block earlier final children :: builder.frames } after rfl
      (by rw [Option.toList_some, List.flatMap_singleton]) sound same
    refine opened.trans (filled.trans (turned.trans ?_))
    simpa only [endBlock, blockOf_eq (some found) earlier _ [] spelled] using ended

theorem reaches_children : ∀ (children : List (Child τ)) (builder : Builder τ) (after : List τ),
    builder.rest = Child.yields children ++ after →
    Child.AllFormed .whole builder.frames.length children after → Roomy builder.frames →
    (∀ child ∈ children, ∀ name ∈ child.tag?, Spares builder.frames name) →
    machine.Reaches builder ({ builder with rest := after }.addAll children)
  | [], builder, after => fun here _ _ _ => by
    have same : { builder with rest := after } = builder := by
      change builder.rest = after at here
      rw [← here]
    rw [same]
    exact .refl builder
  | child :: children, builder, after => fun here formed roomy spares => by
    obtain ⟨first, others⟩ := formed
    rw [Child.yields, List.append_assoc] at here
    have added := reaches_child child builder _ here first roomy (spares child List.mem_cons_self)
    have further := reaches_children children
      ({ builder with rest := Child.yields children ++ after }.add child) after (rest_add _ _)
      (by rw [frames_length_add]; exact others)
      (roomy_add { builder with rest := Child.yields children ++ after } roomy child) (by
        intro next present name named
        rw [Spares, stopsOf_add]
        exact spares next (List.mem_cons_of_mem _ present) name named)
    rw [add_rest] at further
    exact added.trans further

theorem reaches_branches : ∀ (others : List (Branch τ)) (builder : Builder τ)
    (earlier : List (Branch τ)) (marker : Marker τ) (children : List (Child τ))
    (below : List (Frame τ)) (after : List τ),
    builder.frames = .block earlier marker children :: below →
    builder.rest = Branch.yields others ++ after →
    Branch.AllFormed .whole below.length others after →
    ∃ before final last, machine.Reaches builder
        { builder with rest := after, frames := .block before final last :: below } ∧
      before.reverse ++ [⟨final, last.reverse⟩] =
        earlier.reverse ++ ⟨marker, children.reverse⟩ :: others
  | [], builder, earlier, marker, children, below, after => fun inside here _ => by
    have same : { builder with rest := after, frames := .block earlier marker children :: below } =
        builder := by
      change builder.rest = after at here
      rw [← here, ← inside]
    refine ⟨earlier, marker, children, ?_, rfl⟩
    rw [same]
    exact .refl builder
  | ⟨next, content⟩ :: others, builder, earlier, marker, children, below, after =>
    fun inside here formed => by
    obtain ⟨⟨sound, bounded, inner⟩, branches⟩ := formed
    simp only [Branch.yields, Branch.yield, List.append_assoc] at here
    have turned := reaches_turn inside here sound bounded
    have filled := reaches_children content { builder with
      rest := Child.yields content ++ (Branch.yields others ++ after)
      frames := .block (⟨marker, children.reverse⟩ :: earlier) next [] :: below } _ rfl inner
      bounded (fun _ _ _ _ => spares_block _ _ _ _ _)
    rw [addAll_block content _ below _ next [] rfl, List.append_nil] at filled
    obtain ⟨before, final, last, further, spelled⟩ := reaches_branches others { builder with
      rest := Branch.yields others ++ after
      frames := .block (⟨marker, children.reverse⟩ :: earlier) next content.reverse :: below }
      _ _ _ _ _ rfl rfl branches
    refine ⟨before, final, last, turned.trans (filled.trans further), ?_⟩
    rw [spelled, List.reverse_cons, List.append_assoc, List.singleton_append, List.reverse_reverse]

end

end Builder

/-- A well-formed tree is built from its tokens. -/
theorem build_of_wellFormed {children : List (Child τ)} (formed : WellFormed .whole children) :
    build (Child.yields children) = ⟨children, []⟩ := by
  have steps := Builder.reaches_children children (.start (Child.yields children)) []
    (List.append_nil _).symm formed trivial (fun _ _ _ _ => Builder.spares_root _)
  rw [Builder.addAll_root _ _ rfl] at steps
  have stopped : Builder.step (τ := τ) ⟨[], [], children.reverse ++ [], []⟩ = none := rfl
  have final := steps.exhaust_eq.trans (Builder.machine.exhaust_of_none _ stopped)
  rw [build, final]
  simp only [Builder.result, Builder.start, List.append_nil, List.reverse_reverse,
    List.reverse_nil]

end Template.Concrete
