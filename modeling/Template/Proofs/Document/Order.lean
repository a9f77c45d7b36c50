import Mathlib.Data.Bool.AllAny
import Template.Proofs.Concrete.Sites
import Template.Proofs.Document.Seams
import Template.Proofs.Scan.Munching

set_option autoImplicit false

namespace Template

open Concrete (Child Site build)

namespace Span

/-- Spans from one offset to another: in order, and none begins before the one before it ends. -/
def Between (low high : Nat) : List Span → Prop
  | [] => low ≤ high
  | span :: rest => low ≤ span.start.offset ∧ span.start.offset ≤ span.stop.offset ∧
      Between span.stop.offset high rest

variable {low middle high : Nat} {spans : List Span}

theorem Between.le (between : Between low high spans) : low ≤ high := by
  induction spans generalizing low with
  | nil => exact between
  | cons span rest ih => exact (between.1.trans between.2.1).trans (ih between.2.2)

theorem Between.lower {lower : Nat} (between : Between low high spans) (below : lower ≤ low) :
    Between lower high spans := by
  cases spans with
  | nil => exact below.trans between
  | cons span rest => exact ⟨below.trans between.1, between.2⟩

theorem Between.raise {higher : Nat} (between : Between low high spans) (above : high ≤ higher) :
    Between low higher spans := by
  induction spans generalizing low with
  | nil => exact between.trans above
  | cons span rest ih => exact ⟨between.1, between.2.1, ih between.2.2⟩

theorem between_append {front back : List Span} :
    Between low high (front ++ back) ↔
      ∃ middle, Between low middle front ∧ Between middle high back := by
  induction front generalizing low with
  | nil =>
    constructor
    · exact fun between => ⟨low, Nat.le_refl low, between⟩
    · rintro ⟨middle, below, between⟩
      exact between.lower below
  | cons span rest ih => simp only [List.cons_append, Between, ih, and_assoc, exists_and_left]

/-- What is left out of some spans leaves the others in order. -/
theorem Between.sublist {others : List Span} (between : Between low high spans)
    (sub : others.Sublist spans) : Between low high others := by
  induction sub generalizing low with
  | slnil => exact between
  | cons span _ ih =>
    exact (ih between.2.2).lower (between.1.trans between.2.1)
  | cons_cons span _ ih => exact ⟨between.1, between.2.1, ih between.2.2⟩

theorem Between.mem {span : Span} (between : Between low high spans) (member : span ∈ spans) :
    low ≤ span.start.offset ∧ span.start.offset ≤ span.stop.offset ∧ span.stop.offset ≤ high :=
  between.sublist (List.singleton_sublist.mpr member)

/-- Spans that follow one another between two offsets. -/
theorem between_of_pairwise (ordered : low ≤ high)
    (inside : ∀ span ∈ spans, low ≤ span.start.offset ∧ span.start.offset ≤ span.stop.offset ∧
      span.stop.offset ≤ high)
    (apart : spans.Pairwise fun left right => left.stop.offset ≤ right.start.offset) :
    Between low high spans := by
  induction spans generalizing low with
  | nil => exact ordered
  | cons span rest ih =>
    obtain ⟨⟨begins, forwards, ends⟩, others⟩ := List.forall_mem_cons.mp inside
    obtain ⟨first, apart⟩ := List.pairwise_cons.mp apart
    exact ⟨begins, forwards, ih ends
      (fun other member => ⟨first other member, (others other member).2⟩) apart⟩

/-- From the first of some spans to the last. -/
theorem Between.hull {first last : Span} {inner : List Span}
    (between : Between low high (first :: (inner ++ [last]))) :
    Between low high [⟨first.start, last.stop⟩] := by
  obtain ⟨begins, forwards, rest⟩ := between
  obtain ⟨middle, inside, ends⟩ := between_append.mp rest
  exact ⟨begins, forwards.trans (inside.le.trans (ends.1.trans ends.2.1)), ends.2.2⟩

/-- Spans from a point on end where the last of them does. -/
theorem Between.tight {point : Point} (between : Between point.offset high spans) :
    Between point.offset ((spans.getLast?.map stop).getD point).offset spans ∧
      ((spans.getLast?.map stop).getD point).offset ≤ high := by
  rcases List.eq_nil_or_concat spans with rfl | ⟨front, last, rfl⟩
  · exact ⟨Nat.le_refl _, between⟩
  · rw [List.concat_eq_append] at between ⊢
    obtain ⟨middle, inside, ends⟩ := between_append.mp between
    rw [List.getLast?_concat, Option.map_some, Option.getD_some]
    exact ⟨between_append.mpr ⟨middle, inside, ends.1, ends.2.1, Nat.le_refl _⟩, ends.2.2⟩

/-- Where each of some parts covers spans in order, so do the parts. -/
theorem Between.flatMap {α : Type} {items : List α} {inner : α → List Span} {outer : α → Span}
    (each : ∀ item ∈ items, ∀ low high, Between low high (inner item) →
      Between low high [outer item])
    (between : Between low high (items.flatMap inner)) : Between low high (items.map outer) := by
  induction items generalizing low with
  | nil => exact between
  | cons item rest ih =>
    obtain ⟨first, others⟩ := List.forall_mem_cons.mp each
    obtain ⟨middle, here, further⟩ := between_append.mp between
    obtain ⟨begins, forwards, ends⟩ := first low middle here
    exact ⟨begins, forwards, (ih others further).lower ends⟩

end Span

namespace Point

theorem one_le_column_walk {point : Point} (positive : 1 ≤ point.column) (text : Text) :
    1 ≤ (point.walk text).column := by
  induction text generalizing point with
  | nil => exact positive
  | cons char rest ih =>
    refine ih ?_
    unfold next
    split
    · exact Nat.le_refl 1
    · exact Nat.le_add_left 1 _

/-- Walking over characters of ASCII on one line. -/
theorem walk_line {text : Text} (ascii : ∀ char ∈ text, Text.IsAscii char ∧ char ≠ '\n')
    (point : Point) :
    point.walk text = ⟨point.line, point.column + text.size, point.offset + text.size⟩ := by
  induction text generalizing point with
  | nil => rfl
  | cons char rest ih =>
    obtain ⟨⟨first, feed⟩, others⟩ := List.forall_mem_cons.mp ascii
    rw [walk_cons, ih others, next, if_neg feed, Text.size_cons, Text.utf8Size_of_ascii first]
    simp only [Nat.add_assoc]

/-- To go back over a tag on one line undoes walking over it. -/
theorem back_walk {text : Text} (ascii : ∀ char ∈ text, Text.IsAscii char ∧ char ≠ '\n')
    {point : Point} (positive : 1 ≤ point.column) :
    (point.walk text).back text.size = point := by
  rw [walk_line ascii, back]
  simp only [Nat.add_sub_cancel, Nat.max_eq_left positive]

end Point

/-- Small letters of ASCII on one line come from letters of ASCII on one line. -/
theorem ascii_of_lower {tag word : Text} (like : Text.lower tag = word)
    (ascii : ∀ char ∈ word, Text.IsAscii char ∧ char ≠ '\n') :
    ∀ char ∈ tag, Text.IsAscii char ∧ char ≠ '\n' := by
  intro char member
  have small := ascii char.toLower (like ▸ List.mem_map_of_mem member)
  refine ⟨(Munch.isAscii_toLower_iff char).mp small.1, ?_⟩
  rintro rfl
  exact small.2 rfl

theorem ascii_endTag (element : RawElement) :
    ∀ char ∈ element.endTag.toList, Text.IsAscii char ∧ char ≠ '\n' :=
  List.all_iff_forall_prop.mp (by cases element <;> decide)

theorem size_of_lower {tag word : Text} (like : Text.lower tag = word)
    (ascii : ∀ char ∈ word, Text.IsAscii char ∧ char ≠ '\n') : tag.size = word.size := by
  have lengths : ∀ {text : Text}, (∀ char ∈ text, Text.IsAscii char ∧ char ≠ '\n') →
      text.size = text.length := by
    intro text single
    induction text with
    | nil => rfl
    | cons char rest ih =>
      obtain ⟨first, others⟩ := List.forall_mem_cons.mp single
      rw [Text.size_cons, Text.utf8Size_of_ascii first.1, ih others, List.length_cons, Nat.add_comm]
  rw [lengths (ascii_of_lower like ascii), lengths ascii, ← like, Text.lower, List.length_map]

/-- The token after the angle bracket of a raw element is its content with its end tag. -/
def Concrete.Child.Tagged (source : Text) : Child Token → Prop
  | .raw known _ (.content _ rest) =>
    ∃ front body tag back, source = front ++ body ++ tag ++ back ∧
      Text.lower tag = known.endTag.toList ∧ rest.start = Point.origin.walk front ∧
      rest.after = (Point.origin.walk (front ++ body)).walk tag
  | _ => True

/-- The content of a raw element ends where its end tag begins. -/
theorem Fragment.ofRaw_stop {known : RawElement} {rest : Token} {tag front : Text}
    (like : Text.lower tag = known.endTag.toList)
    (after : rest.after = (Point.origin.walk front).walk tag) :
    (Fragment.ofRaw known rest).span.stop = Point.origin.walk front := by
  have ascii := ascii_endTag known
  change rest.after.back (Text.size known.endTag.toList) = _
  rw [after, ← size_of_lower like ascii]
  exact Point.back_walk (ascii_of_lower like ascii) (Point.one_le_column_walk (Nat.le_refl 1) front)

/-- What is known of the tokens of a tree that was built from a source. -/
structure Ordered (source : Text) (children : List (Child Token)) : Prop where
  stands : ∀ token ∈ Child.yields children, ∃ front back, token.StandsIn source front back
  between : Span.Between 0 source.size ((Child.yields children).map Token.span)
  tagged : ∀ child ∈ Child.families children, child.Tagged source

theorem Token.StandsIn.offset_le {source front back : Text} {token : Token}
    (stands : token.StandsIn source front back) : token.after.offset ≤ source.size := by
  rw [stands.after_eq, stands.source_eq, Point.offset_walk, Text.size_append _ back]
  exact (Nat.zero_add _).le.trans (Nat.le_add_right _ _)

/-- The tokens of a scan follow one another. -/
theorem between_scan (source : Text) :
    Span.Between 0 source.size ((scan source).tokens.map Token.span) := by
  obtain ⟨stretches, tiles⟩ := exists_tiles source
  refine Span.between_of_pairwise (Nat.zero_le _) ?_ (List.pairwise_map.mpr tiles.ordered)
  refine List.forall_mem_map.mpr fun token member => ?_
  obtain ⟨front, back, stands⟩ := tiles.standsIn member
  exact ⟨Nat.zero_le _, stands.start_lt_after.le, stands.offset_le⟩

theorem ordered_build (source : Text) :
    Ordered source (build (scan source).tokens).children := by
  obtain ⟨stretches, tiles⟩ := exists_tiles source
  have sub := Concrete.yields_sublist (scan source).tokens
  have stands : ∀ token ∈ (scan source).tokens, ∃ front back, token.StandsIn source front back :=
    fun token member => tiles.standsIn member
  refine ⟨fun token member => stands token (sub.subset member),
    (between_scan source).sublist (sub.map _), fun child member => ?_⟩
  have bodied := (Concrete.sound_build (scan source).tokens).2 child member
  unfold Child.Tagged
  split
  · next known head angle rest =>
    have inside : rest ∈ Child.yield (.raw known head (.content angle rest)) := by
      simp [Child.yield, Concrete.RawBody.yield]
    have member := sub.subset ((Child.yields_infix _ member).subset inside)
    obtain ⟨front, back, stands⟩ := stands rest member
    have kind : rest.kind = .rawRest known := bodied.2
    have belongs := language_of_scan member
    rw [kind] at belongs
    obtain ⟨⟨body, tag, image, like⟩, -⟩ := belongs
    refine ⟨front, body, tag, back, ?_, like, stands.start_eq, ?_⟩
    · rw [stands.source_eq, image, ← List.append_assoc]
    · rw [stands.after_eq, image, ← List.append_assoc, Point.walk_append]
  · trivial

end Template
