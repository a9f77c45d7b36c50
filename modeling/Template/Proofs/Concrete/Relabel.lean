import Mathlib.Data.List.Basic
import Template.Concrete.Relabel
import Template.Proofs.Concrete.Steps

set_option autoImplicit false

namespace Template

/-- A replacement of tokens that the grammar does not notice. Names matter in tags and at the two
ends of a block only. -/
structure Terminal.Keeps {τ σ : Type} [Terminal τ] [Terminal σ] (f : τ → σ) : Prop where
  kind : ∀ token, Terminal.kind (f token) = Terminal.kind token
  tagName : ∀ token, Terminal.kind token = .openTag ∨ Terminal.kind token = .closeTag →
    Terminal.tagName (f token) = Terminal.tagName token
  blockName : ∀ token,
    Terminal.kind token = .block .opening ∨ Terminal.kind token = .block .closing →
      Terminal.blockName (f token) = Terminal.blockName token

/-- The grammar does not see numbers. -/
theorem Terminal.keeps_fst {τ ι : Type} [Terminal τ] : Keeps (Prod.fst : τ × ι → τ) :=
  ⟨fun _ => rfl, fun _ _ => rfl, fun _ _ => rfl⟩

/-- What is not noticed is not noticed in numbered tokens. -/
theorem Terminal.Keeps.numbered {τ σ ι : Type} [Terminal τ] [Terminal σ] {f : τ → σ}
    (keeps : Keeps f) : Keeps (Prod.map f id : τ × ι → σ × ι) :=
  ⟨fun token => keeps.kind token.1, fun token => keeps.tagName token.1,
    fun token => keeps.blockName token.1⟩

namespace Concrete

open Terminal (kind tagName blockName Keeps)
open Rule

section Yield

variable {τ σ : Type} (f : τ → σ)

theorem toList_map (token : Option τ) : (token.map f).toList = token.toList.map f := by
  cases token <;> rfl

@[simp] theorem Braced.yield_map (script : Braced τ) :
    (script.map f).yield = script.yield.map f := by
  simp only [Braced.yield, Braced.map, toList_map, List.map_append, List.map_cons, List.map_nil]

@[simp] theorem Marker.yield_map (marker : Marker τ) :
    (marker.map f).yield = marker.yield.map f := by
  simp only [Marker.yield, Marker.map, toList_map, List.map_append, List.map_cons, List.map_nil]

@[simp] theorem BlockEnd.yield_map (finish : BlockEnd τ) :
    (finish.map f).yield = finish.yield.map f := by
  simp only [BlockEnd.yield, BlockEnd.map, toList_map, List.map_append, List.map_cons, List.map_nil]

@[simp] theorem CloseTag.yield_map (close : CloseTag τ) :
    (close.map f).yield = close.yield.map f := by
  simp only [CloseTag.yield, CloseTag.map, toList_map, List.map_append, List.map_cons, List.map_nil]

/-- The yields of some things follow a replacement if the yield of each does. -/
theorem flatMap_yield_map {α β : Type} {yield : α → List τ} {yieldOf : β → List σ} {g : α → β}
    (agree : ∀ item, yieldOf (g item) = (yield item).map f) (items : List α) :
    (items.map g).flatMap yieldOf = (items.flatMap yield).map f := by
  simp only [List.flatMap_map, List.map_flatMap, agree]

@[simp] theorem Part.yield_map (part : Part τ) : (part.map f).yield = part.yield.map f := by
  cases part with
  | text token => rfl
  | braced script => exact script.yield_map f

@[simp] theorem Value.yield_map (value : Value τ) : (value.map f).yield = value.yield.map f := by
  cases value with
  | quoted quote opening parts closing =>
    simp only [Value.map, Value.yield, flatMap_yield_map f (Part.yield_map f), List.map_append,
      List.map_cons, List.map_nil]
  | bare parts => exact flatMap_yield_map f (Part.yield_map f) parts

@[simp] theorem Attribute.yield_map (entry : Attribute τ) :
    (entry.map f).yield = entry.yield.map f := by
  cases entry with
  | named name modifiers value =>
    have assigned : ∀ item : Assigned τ, (item.map f).yield = item.yield.map f := by
      intro item
      simp only [Assigned.yield, Assigned.map, Value.yield_map, List.map_cons]
    have modified : ∀ item : Modifier τ, (item.map f).yield = item.yield.map f := fun _ => rfl
    simp only [Attribute.map, Attribute.yield, toList_map, flatMap_yield_map f assigned,
      flatMap_yield_map f modified, List.map_append, List.map_cons]
  | braced script => exact script.yield_map f

@[simp] theorem Head.yield_map (head : Head τ) : (head.map f).yield = head.yield.map f := by
  have item : ∀ item : Item τ, (item.map f).yield = item.yield.map f := by
    intro item
    simp only [Item.yield, Item.map, toList_map, Attribute.yield_map, List.map_append]
  simp only [Head.yield, Head.map, flatMap_yield_map f item, toList_map, List.map_append,
    List.map_cons]

@[simp] theorem RawBody.yield_map (body : RawBody τ) : (body.map f).yield = body.yield.map f := by
  cases body <;> rfl

mutual

theorem Child.yield_map : ∀ child : Child τ, (child.map f).yield = child.yield.map f
  | .text _ => rfl
  | .comment _ => rfl
  | .braced script => script.yield_map f
  | .single marker => marker.yield_map f
  | .block first others finish => by
    have ending := flatMap_yield_map f (BlockEnd.yield_map f) finish.toList
    simp only [Child.map, Child.yield, first.yield_map, Branch.yields_maps others, toList_map,
      ending, List.map_append]
  | .raw element head body => by
    simp only [Child.map, Child.yield, Head.yield_map, RawBody.yield_map, List.map_append]
  | .selfClosed head slash angle => by
    simp only [Child.map, Child.yield, Head.yield_map, List.map_append, List.map_cons, List.map_nil]
  | .void head angle => by
    simp only [Child.map, Child.yield, Head.yield_map, List.map_append, List.map_cons, List.map_nil]
  | .element head angle content close => by
    have ending := flatMap_yield_map f (CloseTag.yield_map f) close.toList
    simp only [Child.map, Child.yield, Head.yield_map, Child.yields_maps content, toList_map,
      ending, List.map_append, List.map_cons]

theorem Branch.yield_map : ∀ branch : Branch τ, (branch.map f).yield = branch.yield.map f
  | ⟨marker, content⟩ => by
    simp only [Branch.map, Branch.yield, Marker.yield_map, Child.yields_maps content,
      List.map_append]

theorem Child.yields_maps : ∀ children : List (Child τ),
    Child.yields (Child.maps f children) = (Child.yields children).map f
  | [] => rfl
  | child :: rest => by
    simp only [Child.maps, Child.yields, child.yield_map, Child.yields_maps rest, List.map_append]

theorem Branch.yields_maps : ∀ branches : List (Branch τ),
    Branch.yields (Branch.maps f branches) = (Branch.yields branches).map f
  | [] => rfl
  | branch :: rest => by
    simp only [Branch.maps, Branch.yields, branch.yield_map, Branch.yields_maps rest,
      List.map_append]

end

end Yield

variable {τ σ : Type} {α β γ δ : Type} {f : τ → σ}

/-- The outcome of a rule with other tokens, given what becomes of its item. -/
def Rule.relabel (f : τ → σ) (g : α → β) :
    Except (Mismatch τ) (α × List τ) → Except (Mismatch σ) (β × List σ)
  | .ok (item, rest) => .ok (g item, rest.map f)
  | .error mismatch => .error (mismatch.map f)

/-- A rule does with other tokens what another did with the first ones. -/
def Rule.Follows (f : τ → σ) (g : α → β) (rule : Rule τ α) (other : Rule σ β) : Prop :=
  ∀ tokens, other (tokens.map f) = relabel f g (rule tokens)

namespace Rule.Follows

theorem bind {g : α → β} {h : γ → δ} {rule : Rule τ α} {other : Rule σ β}
    {next : α → Rule τ γ} {further : β → Rule σ δ} (front : Follows f g rule other)
    (back : ∀ item, Follows f h (next item) (further (g item))) :
    Follows f h (rule >>= next) (other >>= further) := by
  intro tokens
  have ahead := front tokens
  cases read : rule tokens with
  | error mismatch =>
    rw [read] at ahead
    rw [bind_of_error read, bind_of_error ahead, relabel]
  | ok found =>
    obtain ⟨item, rest⟩ := found
    rw [read] at ahead
    rw [bind_of_ok read, bind_of_ok ahead]
    exact back item rest

theorem pure {g : α → β} {item : α} {image : β} (same : g item = image) :
    Follows f g (Pure.pure item) (Pure.pure image) := by
  subst same
  exact fun _ => rfl

theorem map {g : α → β} {h : γ → δ} {rule : Rule τ α} {other : Rule σ β} {next : α → γ}
    {further : β → δ} (front : Follows f g rule other)
    (same : ∀ item, h (next item) = further (g item)) :
    Follows f h (next <$> rule) (further <$> other) := by
  rw [map_eq_pure_bind, map_eq_pure_bind]
  exact front.bind fun item => .pure (same item)

theorem fail (g : α → β) (expected : Expected) :
    Follows f g (Rule.fail expected) (Rule.fail expected) := fun _ => rfl

theorem many {g : α → β} {starts : List τ → Bool} {begins : List σ → Bool}
    {rule : Rule τ α} {other : Rule σ β} (takes : Takes rule) (brings : Takes other)
    (agree : ∀ tokens, begins (tokens.map f) = starts tokens) (front : Follows f g rule other) :
    Follows f (List.map g) (Rule.many starts rule takes) (Rule.many begins other brings) := by
  intro tokens
  cases go : starts tokens with
  | false =>
    rw [many_of_stop takes go, many_of_stop brings ((agree tokens).trans go)]
    rfl
  | true =>
    have start := (agree tokens).trans go
    have ahead := front tokens
    cases read : rule tokens with
    | error mismatch =>
      rw [read] at ahead
      rw [many_of_error takes go read, many_of_error brings start ahead]
      rfl
    | ok found =>
      obtain ⟨item, rest⟩ := found
      have shorter := takes tokens item rest read
      rw [read] at ahead
      rw [many_of_ok takes go read, many_of_ok brings start ahead,
        Follows.many takes brings agree front rest]
      cases Rule.many starts rule takes rest <;> rfl
termination_by tokens => tokens.length

end Rule.Follows

section Keeps

variable [Terminal τ] [Terminal σ]

theorem kind?_map (keeps : Keeps f) (tokens : List τ) : kind? (tokens.map f) = kind? tokens := by
  cases tokens with
  | nil => rfl
  | cons token rest => exact congrArg some (keeps.kind token)

theorem peek_follows (keeps : Keeps f) : Follows f id (peek : Rule τ _) (peek : Rule σ _) := by
  intro tokens
  simp only [peek, kind?_map keeps, relabel, id_eq]

theorem expect_follows (keeps : Keeps f) (wanted : Kind) :
    Follows f f (expect wanted) (expect wanted) := by
  intro tokens
  cases tokens with
  | nil => rfl
  | cons token rest =>
    by_cases same : kind token = wanted
    · simp only [List.map_cons, expect, keeps.kind, same, ↓reduceIte, relabel]
    · simp only [List.map_cons, expect, keeps.kind, same, ↓reduceIte, relabel, Mismatch.map]

theorem accept_follows (keeps : Keeps f) (wanted : Kind) :
    Follows f (Option.map f) (accept wanted) (accept wanted) := by
  intro tokens
  cases tokens with
  | nil => rfl
  | cons token rest =>
    by_cases same : kind token = wanted
    · simp only [List.map_cons, accept, keeps.kind, same, ↓reduceIte, relabel, Option.map_some]
    · simp only [List.map_cons, accept, keeps.kind, same, ↓reduceIte, relabel, Option.map_none]

theorem startsAttribute_map (keeps : Keeps f) (tokens : List τ) :
    startsAttribute (tokens.map f) = startsAttribute tokens := by
  simp only [startsAttribute, kind?_map keeps]

theorem braced_follows (keeps : Keeps f) : Follows f (Braced.map f) braced braced :=
  (expect_follows keeps _).bind fun _ => (accept_follows keeps _).bind fun _ =>
    (expect_follows keeps _).bind fun _ => (expect_follows keeps _).bind fun _ => .pure rfl

theorem marker_follows (keeps : Keeps f) (sigil : Sigil) :
    Follows f (Marker.map f) (marker sigil) (marker sigil) :=
  (expect_follows keeps _).bind fun _ => (expect_follows keeps _).bind fun _ =>
    (accept_follows keeps _).bind fun _ => (accept_follows keeps _).bind fun _ =>
      (expect_follows keeps _).bind fun _ => .pure rfl

theorem blockEnd_follows (keeps : Keeps f) : Follows f (BlockEnd.map f) blockEnd blockEnd :=
  (expect_follows keeps _).bind fun _ => (expect_follows keeps _).bind fun _ =>
    (accept_follows keeps _).bind fun _ => (expect_follows keeps _).bind fun _ => .pure rfl

theorem closeTag_follows (keeps : Keeps f) : Follows f (CloseTag.map f) closeTag closeTag :=
  (expect_follows keeps _).bind fun _ => (accept_follows keeps _).bind fun _ =>
    (expect_follows keeps _).bind fun _ => .pure rfl

theorem quotedPart_follows (keeps : Keeps f) (quote : Quote) :
    Follows f (Part.map f) (quotedPart quote) (quotedPart quote) :=
  (peek_follows keeps).bind fun first => by
    unfold id
    split
    · exact (braced_follows keeps).map fun _ => rfl
    · exact (expect_follows keeps _).map fun _ => rfl

theorem barePart_follows (keeps : Keeps f) : Follows f (Part.map f) barePart barePart :=
  (peek_follows keeps).bind fun first => by
    unfold id
    split
    · exact (expect_follows keeps _).map fun _ => rfl
    · exact (expect_follows keeps _).map fun _ => rfl
    · exact (braced_follows keeps).map fun _ => rfl

theorem value_follows (keeps : Keeps f) : Follows f (Value.map f) value value := by
  have quoted : ∀ quote tokens,
      startsQuoted quote (List.map f tokens) = startsQuoted quote tokens := by
    intro quote tokens
    simp only [startsQuoted, kind?_map keeps]
  have bare : ∀ tokens, startsBare (List.map f tokens) = startsBare tokens := by
    intro tokens
    simp only [startsBare, ← List.map_tail, kind?_map keeps]
  refine (peek_follows keeps).bind fun first => ?_
  unfold id
  split
  · exact (expect_follows keeps _).bind fun _ =>
      (Follows.many _ _ (quoted _) (quotedPart_follows keeps _)).bind fun _ =>
        (expect_follows keeps _).bind fun _ => .pure rfl
  · exact (Follows.many _ _ bare (barePart_follows keeps)).map fun _ => rfl

theorem modifier_follows (keeps : Keeps f) : Follows f (Modifier.map f) modifier modifier :=
  (expect_follows keeps _).bind fun _ => (expect_follows keeps _).bind fun _ => .pure rfl

theorem assigned?_follows (keeps : Keeps f) :
    Follows f (Option.map (Assigned.map f)) assigned? assigned? :=
  (accept_follows keeps _).bind fun equal => by
    cases equal with
    | none => exact .pure rfl
    | some equal => exact (value_follows keeps).map fun _ => rfl

theorem named_follows (keeps : Keeps f) : Follows f (Attribute.map f) named named := by
  have starts : ∀ tokens, startsModifier (List.map f tokens) = startsModifier tokens := by
    intro tokens
    simp only [startsModifier, kind?_map keeps]
  exact (expect_follows keeps _).bind fun _ =>
    (Follows.many _ _ starts (modifier_follows keeps)).bind fun _ =>
      (assigned?_follows keeps).bind fun _ => .pure rfl

theorem item_follows (keeps : Keeps f) : Follows f (Item.map f) item item := by
  have entry : Follows f (Attribute.map f) entry entry :=
    (peek_follows keeps).bind fun first => by
      unfold id
      split
      · exact named_follows keeps
      · exact (braced_follows keeps).map fun _ => rfl
  exact (accept_follows keeps _).bind fun _ => entry.bind fun _ => .pure rfl

theorem head_follows (keeps : Keeps f) (opener : Kind) :
    Follows f (Head.map f) (head opener) (head opener) := by
  have starts : ∀ tokens, startsItem (List.map f tokens) = startsItem tokens := by
    intro tokens
    simp only [startsItem, ← List.map_tail, startsAttribute_map keeps, kind?_map keeps]
  exact (expect_follows keeps _).bind fun _ =>
    (Follows.many _ _ starts (item_follows keeps)).bind fun _ =>
      (accept_follows keeps _).bind fun _ => .pure rfl

theorem tag_follows (keeps : Keeps f) : Follows f (Piece.map f) tag tag := by
  refine (head_follows keeps _).bind fun head => ?_
  refine (peek_follows keeps).bind fun first => ?_
  unfold id
  split
  · exact (expect_follows keeps _).bind fun _ => (expect_follows keeps _).bind fun _ => .pure rfl
  · exact (expect_follows keeps _).map fun _ => rfl
  · exact .fail _ _

theorem rawTag_follows (keeps : Keeps f) (element : RawElement) :
    Follows f (Child.map f) (rawTag element) (rawTag element) := by
  have body : Follows f (RawBody.map f) (rawBody element) (rawBody element) := by
    refine (peek_follows keeps).bind fun first => ?_
    unfold id
    split
    · exact (expect_follows keeps _).map fun _ => rfl
    · split
      · exact (expect_follows keeps _).bind fun _ =>
          (expect_follows keeps _).bind fun _ => .pure rfl
      · exact .fail _ _
    · exact .fail _ _
  exact (head_follows keeps _).bind fun _ => body.bind fun _ => .pure rfl

theorem piece_follows (keeps : Keeps f) : Follows f (Piece.map f) piece piece := by
  intro tokens
  simp only [piece, ← List.map_tail, kind?_map keeps]
  suffices follows : Follows f (Piece.map f) (pieceFor (kind? tokens) (kind? tokens.tail))
      (pieceFor (kind? tokens) (kind? tokens.tail)) from follows tokens
  unfold pieceFor
  split
  · exact tag_follows keeps
  · exact (rawTag_follows keeps _).map fun _ => rfl
  · exact (expect_follows keeps _).map fun _ => rfl
  · exact (expect_follows keeps _).map fun _ => rfl
  · exact (marker_follows keeps _).map fun _ => rfl
  · exact (marker_follows keeps _).map fun _ => rfl
  · exact (braced_follows keeps).map fun _ => rfl
  · exact .fail _ _

/-- The names by which what is open is known are those of an opening tag and of the token that
opens a block. -/
def Frame.Named : Frame τ → Prop
  | element head _ _ => kind head.opening = .openTag
  | block earlier marker _ => kind (Builder.firstMarker earlier marker).name = .block .opening

namespace Builder

/-- All that is open has its name from the right tokens. -/
def Named (builder : Builder τ) : Prop := ∀ frame ∈ builder.frames, frame.Named

section Named

omit [Terminal σ]

variable {builder : Builder τ}

theorem Named.inside {frame : Frame τ} {below : List (Frame τ)} (named : builder.Named)
    (inside : builder.frames = frame :: below) :
    frame.Named ∧ ∀ other ∈ below, other.Named := by
  unfold Named at named
  rw [inside] at named
  exact List.forall_mem_cons.mp named

theorem named_add {rest : List τ} {frames : List (Frame τ)} {children : List (Child τ)}
    {faults : List (Fault τ)} (named : ∀ frame ∈ frames, frame.Named) (child : Child τ) :
    (Builder.add ⟨rest, frames, children, faults⟩ child).Named := by
  cases frames with
  | nil => exact named
  | cons frame below =>
    obtain ⟨here, others⟩ := List.forall_mem_cons.mp named
    refine List.forall_mem_cons.mpr ⟨?_, others⟩
    cases frame <;> exact here

theorem named_noteDepth {rest : List τ} {below : List (Frame τ)} {children : List (Child τ)}
    {faults : List (Fault τ)} (frame : Frame τ) (here : frame.Named)
    (others : ∀ other ∈ below, other.Named) (depth : Nat) (first last : τ) :
    (noteDepth ⟨rest, frame :: below, children, faults⟩ depth first last).Named := by
  unfold noteDepth
  split <;> exact List.forall_mem_cons.mpr ⟨here, others⟩

/-- Every step opens what has its name from the right tokens. -/
theorem named_of_does {before after : Builder τ} (does : Does before after)
    (named : before.Named) : after.Named := by
  cases does with
  | broken | stray | strayBroken | dropUnexpected => exact named
  | leaf | void | flat => exact named_add named _
  | openElement reads => exact List.forall_mem_cons.mpr ⟨reads.sound.opening, named⟩
  | openBlock _ _ sound => exact named_noteDepth (.block [] _ []) sound.name named _ _ _
  | endClosed ends | endBroken ends | endSilent ends | endMissing ends =>
    exact named_add (named.inside ends.inside).2 _
  | @turn _ earlier marker next children _ ends =>
    obtain ⟨here, others⟩ := named.inside ends.inside
    exact named_noteDepth (.block (⟨marker, children.reverse⟩ :: earlier) next []) here others _ _ _
  | turnBroken ends | endBlockBroken ends | endBlockMissing ends =>
    exact named_add (named.inside ends.inside).2 _
  | endBlock ends =>
    unfold noteWrongEnd
    split <;> exact named_add (named.inside ends.inside).2 _

end Named

theorem startsChild_map (keeps : Keeps f) (stops : Option (List Text)) (tokens : List τ) :
    startsChild stops (tokens.map f) = startsChild stops tokens := by
  cases tokens with
  | nil => rfl
  | cons token rest =>
    simp only [List.map_cons, startsChild, keeps.kind, kind?_map keeps]
    split
    · next opener => rw [keeps.tagName token (.inl opener)]
    all_goals rfl

theorem resumed_map (keeps : Keeps f) (tokens : List τ) :
    resumed (tokens.map f) = (resumed tokens).map f := by
  simp only [resumed, List.dropWhile_map, Function.comp_def, keeps.kind]

theorem unread_map (keeps : Keeps f) (tokens : List τ) :
    unread (tokens.map f) = (unread tokens).map f := by
  simp only [unread, List.takeWhile_map, Function.comp_def, keeps.kind]

omit [Terminal τ] [Terminal σ] in
theorem at_map (tokens : List τ) : Site.at (tokens.map f) = (Site.at tokens).map f := by
  cases tokens <;> rfl

omit [Terminal τ] [Terminal σ] in
theorem dropped_map (dropped rest : List τ) :
    Site.dropped (dropped.map f) (rest.map f) = (Site.dropped dropped rest).map f := by
  cases dropped with
  | nil => exact at_map rest
  | cons token more =>
    simp only [List.map_cons, Site.dropped, Site.map, List.getLastD_eq_getLast?, List.getLast?_map,
      Option.getD_map]

theorem nameOf_map (keeps : Keeps f) {head : Head τ} (opener : kind head.opening = .openTag) :
    nameOf (head.map f) = nameOf head := keeps.tagName head.opening (.inl opener)

theorem openNames_map (keeps : Keeps f) {frames : List (Frame τ)}
    (named : ∀ frame ∈ frames, frame.Named) :
    openNames (frames.map (Frame.map f)) = openNames frames := by
  unfold openNames
  rw [List.filterMap_map]
  refine List.filterMap_congr fun frame member => ?_
  cases frame with
  | element head angle children => exact congrArg some (nameOf_map keeps (named _ member))
  | block earlier marker children => rfl

theorem wantsChild_map (keeps : Keeps f) {builder : Builder τ} (named : builder.Named) :
    (builder.map f).wantsChild = builder.wantsChild := by
  obtain ⟨rest, frames, children, faults⟩ := builder
  cases frames with
  | nil => exact startsChild_map keeps none rest
  | cons frame below =>
    cases frame with
    | element head angle children =>
      have opener : kind head.opening = .openTag := named _ List.mem_cons_self
      simp only [map, List.map_cons, Frame.map, wantsChild, nameOf_map keeps opener,
        startsChild_map keeps]
    | block earlier marker children =>
      simp only [map, List.map_cons, Frame.map, wantsChild, List.length_map, startsChild_map keeps]

omit [Terminal τ] [Terminal σ] in
theorem add_map (builder : Builder τ) (child : Child τ) :
    (builder.map f).add (child.map f) = (builder.add child).map f := by
  obtain ⟨rest, frames, children, faults⟩ := builder
  cases frames with
  | nil => rfl
  | cons frame below => cases frame <;> rfl

omit [Terminal τ] [Terminal σ] in
theorem noteDepth_map (builder : Builder τ) (depth : Nat) (first last : τ) :
    (builder.map f).noteDepth depth (f first) (f last) =
      (builder.noteDepth depth first last).map f := by
  unfold noteDepth
  split <;> rfl

theorem recover_map (keeps : Keeps f) (builder : Builder τ) (mismatch : Mismatch τ) :
    (builder.map f).recover (mismatch.map f) = (builder.recover mismatch).map f := by
  simp only [recover, Mismatch.map, resumed_map keeps, unread_map keeps, dropped_map,
    List.head?_map]
  rfl

theorem openElement_map (keeps : Keeps f) (builder : Builder τ) {head : Head τ} (angle : τ)
    (opener : kind head.opening = .openTag) :
    (builder.map f).openElement (head.map f) (f angle) =
      (builder.openElement head angle).map f := by
  have height : (builder.map f).frames.length = builder.frames.length := List.length_map _
  unfold openElement
  rw [nameOf_map keeps opener, height]
  split
  · exact add_map builder (.void head angle)
  · split
    · exact add_map (builder.note .tooDeep (.across head.opening angle))
        (.element head angle [] none)
    · rfl

omit [Terminal τ] [Terminal σ] in
theorem openBlock_map (builder : Builder τ) (marker : Marker τ) :
    (builder.map f).openBlock (marker.map f) = (builder.openBlock marker).map f := by
  have height : (builder.map f).frames.length = builder.frames.length := List.length_map _
  unfold openBlock
  rw [height]
  exact noteDepth_map { builder with frames := .block [] marker [] :: builder.frames } _ _ _

theorem readChild_map (keeps : Keeps f) (builder : Builder τ) :
    (builder.map f).readChild = builder.readChild.map f := by
  have follows := piece_follows keeps builder.rest
  have here : (builder.map f).rest = builder.rest.map f := rfl
  unfold readChild
  rw [here, follows]
  cases read : piece builder.rest with
  | error mismatch => exact recover_map keeps builder mismatch
  | ok found =>
    obtain ⟨found, rest⟩ := found
    cases found with
    | whole child => exact add_map { builder with rest } child
    | element head angle =>
      obtain ⟨-, sound, -⟩ := eq_of_piece read
      exact openElement_map keeps { builder with rest } angle sound.opening
    | branch marker => exact openBlock_map { builder with rest } marker

theorem dropUnexpected_map (keeps : Keeps f) (builder : Builder τ) (token : τ) (rest : List τ) :
    (builder.map f).dropUnexpected (f token) (rest.map f) =
      (builder.dropUnexpected token rest).map f := by
  have site := dropped_map (f := f) (token :: unread rest) (resumed rest)
  unfold dropUnexpected
  rw [resumed_map keeps, unread_map keeps, ← List.map_cons, site]
  rfl

omit [Terminal τ] [Terminal σ] in
theorem endElement_map (builder : Builder τ) (below : List (Frame τ)) (head : Head τ) (angle : τ)
    (children : List (Child τ)) (close : Option (CloseTag τ)) :
    (builder.map f).endElement (below.map (Frame.map f)) (head.map f) (f angle)
        (children.map (Child.map f)) (close.map (CloseTag.map f)) =
      (builder.endElement below head angle children close).map f := by
  unfold endElement
  rw [← add_map, Child.map, Child.maps_eq, List.map_reverse]
  rfl

omit [Terminal τ] [Terminal σ] in
theorem blockOf_map (finish : Option (BlockEnd τ)) (earlier : List (Branch τ)) :
    ∀ (current : Branch τ) (later : List (Branch τ)),
      blockOf (finish.map (BlockEnd.map f)) (earlier.map (Branch.map f)) (current.map f)
          (later.map (Branch.map f)) =
        (blockOf finish earlier current later).map f := by
  induction earlier with
  | nil =>
    intro current later
    simp only [List.map_nil, blockOf, Child.map, Branch.maps_eq]
  | cons branch earlier ih => exact fun current later => ih branch (current :: later)

omit [Terminal τ] [Terminal σ] in
theorem firstMarker_map (earlier : List (Branch τ)) :
    ∀ marker : Marker τ, firstMarker (earlier.map (Branch.map f)) (marker.map f) =
      (firstMarker earlier marker).map f := by
  induction earlier with
  | nil => exact fun _ => rfl
  | cons branch earlier ih =>
    obtain ⟨marker, content⟩ := branch
    exact fun _ => ih marker

omit [Terminal τ] [Terminal σ] in
theorem endBlock_map (builder : Builder τ) (below : List (Frame τ)) (earlier : List (Branch τ))
    (marker : Marker τ) (children : List (Child τ)) (finish : Option (BlockEnd τ)) :
    (builder.map f).endBlock (below.map (Frame.map f)) (earlier.map (Branch.map f)) (marker.map f)
        (children.map (Child.map f)) (finish.map (BlockEnd.map f)) =
      (builder.endBlock below earlier marker children finish).map f := by
  have block := blockOf_map (f := f) finish earlier ⟨marker, children.reverse⟩ []
  unfold endBlock
  rw [← add_map, ← block, Branch.map, Child.maps_eq, List.map_reverse]
  rfl

theorem noteWrongEnd_map (keeps : Keeps f) (builder : Builder τ) (opened : Text) {name : τ}
    (closer : kind name = .block .closing) :
    (builder.map f).noteWrongEnd opened (f name) = (builder.noteWrongEnd opened name).map f := by
  unfold noteWrongEnd
  rw [keeps.blockName name (.inr closer)]
  split <;> rfl

theorem dropClose_map (keeps : Keeps f) (builder : Builder τ) (name : Text) {token : τ}
    (closer : kind token = .closeTag) :
    (builder.map f).dropClose name (f token) = (builder.dropClose name token).map f := by
  have follows := closeTag_follows keeps builder.rest
  have here : (builder.map f).rest = builder.rest.map f := rfl
  unfold dropClose
  rw [here, follows, keeps.tagName token (.inr closer)]
  cases closeTag builder.rest with
  | error mismatch => exact recover_map keeps builder mismatch
  | ok found => rfl

def Ending.map (f : τ → σ) : Ending τ → Ending σ
  | closed => closed
  | silent => silent
  | missing => missing
  | stray token => stray (f token)

theorem endingOf_map (keeps : Keeps f) (name : Text) (outer : List Text) (tokens : List τ) :
    endingOf name outer (tokens.map f) = (endingOf name outer tokens).map f := by
  cases tokens with
  | nil =>
    simp only [List.map_nil, endingOf]
    split <;> rfl
  | cons token rest =>
    by_cases closer : kind token = .closeTag
    · simp only [List.map_cons, endingOf, keeps.kind, keeps.tagName token (.inr closer)]
      split
      · rfl
      · split
        · rfl
        · split <;> rfl
    · simp only [List.map_cons, endingOf, keeps.kind, closer, false_and, ↓reduceIte, ne_eq,
        not_false_eq_true, true_or]
      split <;> rfl

theorem finishContent_map (keeps : Keeps f) {builder : Builder τ} {below : List (Frame τ)}
    {head : Head τ} {angle : τ} {children : List (Child τ)} (named : builder.Named)
    (inside : builder.frames = .element head angle children :: below) :
    (builder.map f).finishContent (below.map (Frame.map f)) (head.map f) (f angle)
        (children.map (Child.map f)) =
      (builder.finishContent below head angle children).map f := by
  have here : (builder.map f).rest = builder.rest.map f := rfl
  obtain ⟨opener, others⟩ := named.inside inside
  unfold finishContent
  rw [here, nameOf_map keeps opener, openNames_map keeps others, endingOf_map keeps]
  cases ending : endingOf (nameOf head) (openNames below) builder.rest with
  | closed =>
    have follows := closeTag_follows keeps builder.rest
    simp only [Ending.map, follows]
    cases closeTag builder.rest with
    | error mismatch =>
      simp only [relabel, recover_map keeps]
      exact endElement_map _ below head angle children none
    | ok found =>
      exact endElement_map { builder with rest := found.2 } below head angle children (some found.1)
  | silent => exact endElement_map builder below head angle children none
  | missing =>
    have noted : (builder.map f).noteMissingClose (nameOf head) =
        (builder.noteMissingClose (nameOf head)).map f := by
      simp only [noteMissingClose, here, at_map, List.head?_map]
      rfl
    simp only [Ending.map, noted]
    exact endElement_map _ below head angle children none
  | stray token =>
    obtain ⟨_, -, closer⟩ := closeTag_of_stray _ _ _ _ ending
    exact dropClose_map keeps builder (nameOf head) closer

theorem finishBranch_map (keeps : Keeps f) {builder : Builder τ} {below : List (Frame τ)}
    {earlier : List (Branch τ)} {marker : Marker τ} {children : List (Child τ)}
    (named : builder.Named) (inside : builder.frames = .block earlier marker children :: below) :
    (builder.map f).finishBranch (below.map (Frame.map f)) (earlier.map (Branch.map f))
        (marker.map f) (children.map (Child.map f)) =
      (builder.finishBranch below earlier marker children).map f := by
  have here : (builder.map f).rest = builder.rest.map f := rfl
  have opened : blockName (firstMarker (earlier.map (Branch.map f)) (marker.map f)).name =
      blockName (firstMarker earlier marker).name := by
    rw [firstMarker_map]
    exact keeps.blockName _ (.inl (named.inside inside).1)
  unfold finishBranch
  simp only [here, opened, ← List.map_tail, kind?_map keeps]
  split
  · have follows := marker_follows keeps .continuing builder.rest
    simp only [follows]
    cases Concrete.marker .continuing builder.rest with
    | error mismatch =>
      simp only [relabel, recover_map keeps]
      exact endBlock_map _ below earlier marker children none
    | ok found =>
      obtain ⟨next, rest⟩ := found
      simp only [relabel, List.length_map]
      have branches : Builder.map f { builder with
          rest
          frames := .block (⟨marker, children.reverse⟩ :: earlier) next [] :: below } =
          { builder.map f with
            rest := rest.map f
            frames := .block (⟨marker.map f, (children.map (Child.map f)).reverse⟩ ::
              earlier.map (Branch.map f)) (next.map f) [] :: below.map (Frame.map f) } := by
        simp only [Builder.map, List.map_cons, Frame.map, Branch.map, Child.maps_eq,
          List.map_reverse, List.map_nil]
      rw [← branches]
      exact noteDepth_map _ below.length next.opening next.closing
  · have follows := blockEnd_follows keeps builder.rest
    simp only [follows]
    cases read : blockEnd builder.rest with
    | error mismatch =>
      simp only [relabel, recover_map keeps]
      exact endBlock_map _ below earlier marker children none
    | ok found =>
      obtain ⟨finish, rest⟩ := found
      obtain ⟨-, sound⟩ := blockEnd_eq_ok.mp read
      have noted := noteWrongEnd_map keeps { builder with rest }
        (blockName (firstMarker earlier marker).name) sound.name
      have ended := endBlock_map (f := f) ({ builder with rest }.noteWrongEnd
        (blockName (firstMarker earlier marker).name) finish.name) below earlier marker children
        (some finish)
      rw [← noted] at ended
      exact ended
  · simp only [at_map, List.head?_map]
    exact endBlock_map (builder.note (.missingEnd _ _) _) below earlier marker children none

theorem step_map (keeps : Keeps f) {builder : Builder τ} (named : builder.Named) :
    (builder.map f).step = builder.step.map (Builder.map f) := by
  unfold step
  rw [wantsChild_map keeps named]
  split
  · exact congrArg some (readChild_map keeps builder)
  · obtain ⟨rest, frames, children, faults⟩ := builder
    cases frames with
    | cons frame below =>
      cases frame with
      | element head angle children => exact congrArg some (finishContent_map keeps named rfl)
      | block earlier marker children => exact congrArg some (finishBranch_map keeps named rfl)
    | nil =>
      cases rest with
      | nil => rfl
      | cons token rest => exact congrArg some (dropUnexpected_map keeps _ _ _)

end Builder

/-- Building from other tokens that look the same gives the same tree and the same faults with the
other tokens in them. -/
theorem build_map (keeps : Keeps f) (tokens : List τ) :
    build (tokens.map f) = (build tokens).map f := by
  have start : Builder.start (tokens.map f) = (Builder.start tokens).map f := rfl
  have stopped : Builder.machine.exhaust ((Builder.start tokens).map f) =
      (Builder.machine.exhaust (Builder.start tokens)).map f :=
    Machine.exhaust_map Builder.machine Builder.Named
      (fun _ _ named taken => Builder.named_of_does (Builder.does_of_step taken) named)
      (fun _ named => Builder.step_map keeps named) _ (List.forall_mem_nil _)
  unfold build
  rw [start, stopped]
  simp only [Builder.result, Builder.map, Built.map, List.map_reverse]

end Keeps

end Concrete

end Template
