import Template.Parse
import Template.Proofs.Concrete.Records
import Template.Proofs.Document.Order

set_option autoImplicit false

namespace Template

open Concrete (Builder Fault Records Site finishOf)

/-- A span neither begins nor ends after another one does. -/
structure Span.Before (left right : Span) : Prop where
  start : left.start.offset ≤ right.start.offset
  stop : left.stop.offset ≤ right.stop.offset

theorem Span.Before.refl (span : Span) : span.Before span := ⟨Nat.le_refl _, Nat.le_refl _⟩

theorem Span.Before.trans {first second third : Span} (front : first.Before second)
    (back : second.Before third) : first.Before third :=
  ⟨front.start.trans back.start, front.stop.trans back.stop⟩

/-- Spans that follow one another are in order. -/
theorem Span.Between.pairwise {low high : Nat} {spans : List Span}
    (between : Between low high spans) : spans.Pairwise Before := by
  induction spans generalizing low with
  | nil => exact .nil
  | cons span rest ih =>
    obtain ⟨-, forwards, further⟩ := between
    refine .cons (fun later member => ?_) (ih further)
    obtain ⟨begins, onwards, -⟩ := further.mem member
    exact ⟨forwards.trans begins, begins.trans onwards⟩

namespace Concrete

/-- The spans of the tokens that are left, and the end of the input. -/
def places (finish : Point) (tokens : List Token) : List Span :=
  tokens.map Token.span ++ [.empty finish]

theorem places_append (finish : Point) (read rest : List Token) :
    places finish (read ++ rest) = read.map Token.span ++ places finish rest := by
  rw [places, List.map_append, List.append_assoc, places]

/-- The place before the tokens that are left is the first of their places. -/
theorem places_eq (finish : Point) (tokens : List Token) :
    ∃ later, places finish tokens = (Site.at tokens).span finish :: later := by
  cases tokens with
  | nil => exact ⟨[], rfl⟩
  | cons token rest => exact ⟨places finish rest, rfl⟩

/-- The places of a scan are in order. -/
theorem places_scan (source : Text) :
    (places (finishOf (scan source).tokens) (scan source).tokens).Pairwise Span.Before := by
  have between : Span.Between Point.origin.offset source.size _ := between_scan source
  obtain ⟨between, -⟩ := between.tight
  rw [List.getLast?_map, Option.map_map] at between
  refine List.pairwise_append.mpr ⟨between.pairwise, List.pairwise_singleton _ _, ?_⟩
  intro span member finish only
  obtain ⟨-, forwards, ends⟩ := between.mem member
  cases List.mem_singleton.mp only
  exact ⟨forwards.trans ends, ends⟩

variable {finish : Point}

/-- The place before some tokens is before everything that comes. -/
theorem at_before {tokens : List Token} (ordered : (places finish tokens).Pairwise Span.Before)
    {span : Span} (member : span ∈ places finish tokens) :
    ((Site.at tokens).span finish).Before span := by
  obtain ⟨later, same⟩ := places_eq finish tokens
  rw [same] at ordered member
  rcases List.mem_cons.mp member with rfl | further
  · exact .refl _
  · exact (List.pairwise_cons.mp ordered).1 span further

theorem at_mem_places (tokens : List Token) :
    (Site.at tokens).span finish ∈ places finish tokens := by
  obtain ⟨later, same⟩ := places_eq finish tokens
  exact same ▸ List.mem_cons_self

/-- What is recorded where tokens are taken lies between the place before them and the place after
them. -/
theorem Records.between {read rest : List Token} {faults others : List (Fault Token)}
    (records : Records read rest faults others)
    (ordered : (places finish (read ++ rest)).Pairwise Span.Before) :
    others = faults ∨ ∃ fault, others = fault :: faults ∧
      ((Site.at (read ++ rest)).span finish).Before (fault.site.span finish) ∧
      (fault.site.span finish).Before ((Site.at rest).span finish) := by
  have first : ∀ token ∈ read,
      ((Site.at (read ++ rest)).span finish).Before token.span := by
    intro token member
    refine at_before ordered ?_
    rw [places_append]
    exact List.mem_append_left _ (List.mem_map_of_mem member)
  have last : ∀ token ∈ read, token.span.Before ((Site.at rest).span finish) := by
    intro token member
    rw [places_append] at ordered
    exact (List.pairwise_append.mp ordered).2.2 _ (List.mem_map_of_mem member) _
      (at_mem_places rest)
  cases records with
  | nothing => exact .inl rfl
  | across cause within =>
    obtain ⟨run, inside, head, final⟩ := within
    have begins := inside.subset (List.mem_of_head? head)
    have ends := inside.subset (List.mem_of_getLast? final)
    exact .inr ⟨_, rfl, ⟨(first _ begins).start, (first _ ends).stop⟩,
      ⟨(last _ begins).start, (last _ ends).stop⟩⟩
  | here cause =>
    refine .inr ⟨_, rfl, at_before ordered ?_, .refl _⟩
    rw [places_append]
    exact List.mem_append_right _ (at_mem_places rest)

/-- What is recorded is in order, and it is not after the tokens that are left. The faults are kept
the latest first. -/
structure Builder.Orderly (finish : Point) (builder : Builder Token) : Prop where
  places : (places finish builder.rest).Pairwise Span.Before
  ordered : builder.faults.Pairwise fun later earlier =>
    (earlier.site.span finish).Before (later.site.span finish)
  behind : ∀ fault ∈ builder.faults,
    (fault.site.span finish).Before ((Site.at builder.rest).span finish)

theorem Builder.Advances.orderly {before after : Builder Token} {read : List Token}
    (advances : Advances before after read) (orderly : before.Orderly finish) :
    after.Orderly finish := by
  obtain ⟨here, records⟩ := advances
  have places := here ▸ orderly.places
  have onwards : ((Site.at before.rest).span finish).Before ((Site.at after.rest).span finish) := by
    rw [here]
    refine at_before places ?_
    rw [places_append]
    exact List.mem_append_right _ (at_mem_places after.rest)
  have behind : ∀ fault ∈ before.faults,
      (fault.site.span finish).Before ((Site.at after.rest).span finish) :=
    fun fault recorded => (orderly.behind fault recorded).trans onwards
  have further : (Concrete.places finish after.rest).Pairwise Span.Before := by
    rw [places_append] at places
    exact (List.pairwise_append.mp places).2.1
  rcases records.between places with same | ⟨fault, same, begins, ends⟩
  · exact ⟨further, same ▸ orderly.ordered, same ▸ behind⟩
  · refine ⟨further, ?_, ?_⟩
    · rw [same]
      refine .cons (fun earlier recorded => ?_) orderly.ordered
      exact (orderly.behind earlier recorded).trans (here ▸ begins)
    · rw [same]
      exact List.forall_mem_cons.mpr ⟨ends, behind⟩

/-- The faults of tokens that are in order are in order. -/
theorem faults_ordered {tokens : List Token}
    (ordered : (places finish tokens).Pairwise Span.Before) :
    (build tokens).faults.Pairwise fun earlier later =>
      (earlier.site.span finish).Before (later.site.span finish) := by
  have orderly : (Builder.machine.exhaust (.start tokens)).Orderly finish := by
    refine (Builder.machine.reaches_exhaust (.start tokens)).keeps (Builder.Orderly finish)
      (fun before after holds taken => ?_) ⟨ordered, .nil, List.forall_mem_nil _⟩
    obtain ⟨read, advances⟩ := Builder.advances_of_does (Builder.does_of_step taken)
    exact advances.orderly holds
  exact List.pairwise_reverse.mpr orderly.ordered

end Concrete

/-- No problem of a scan begins where another one does. -/
theorem Scanned.Tiles.problems_ordered {source : Text} {scanned : Scanned}
    {stretches : List Stretch} (tiles : scanned.Tiles source stretches) :
    (scanned.faults.map LexicalFault.problem).Pairwise fun earlier later =>
      earlier.span.start.offset < later.span.start.offset := by
  -- A gap holds a character, so what comes after it begins later.
  have longer : ∀ {point : Point} {stretch : Stretch} {problem : Problem},
      Stretch.problem? (point, stretch) = some problem →
        problem.span.start = point ∧ point.offset < (point.walk stretch.text).offset := by
    intro point stretch problem reported
    cases stretch with
    | token kind image => cases reported
    | gap char more =>
      cases reported
      have positive := char.utf8Size_pos
      refine ⟨rfl, ?_⟩
      rw [Point.offset_walk, Stretch.text, Text.size_cons]
      omega
  rw [tiles.problems_eq]
  refine List.pairwise_append.mpr ⟨List.pairwise_filterMap.mpr ?_, ?_, ?_⟩
  · refine (Stretch.placed_ordered .origin stretches).imp ?_
    rintro ⟨first, left⟩ ⟨second, right⟩ before problem reported later follows
    rw [(longer reported).1, (longer follows).1]
    exact Nat.lt_of_lt_of_le (longer reported).2 before
  · unfold ModeStack.problems
    split
    · exact .nil
    · exact List.pairwise_singleton _ _
  · intro problem member last only
    obtain ⟨⟨point, stretch⟩, placed, reported⟩ := List.mem_filterMap.mp member
    obtain ⟨front, back, split, rfl⟩ := Stretch.placed_split placed
    have ends : last.span.start = Point.origin.walk source := by
      unfold ModeStack.problems at only
      split at only
      · cases only
      · cases List.mem_singleton.mp only
        rfl
    rw [(longer reported).1, ends, ← tiles.source_eq, split, Stretch.texts_append,
      Stretch.texts_cons, Point.walk_append, Point.walk_append]
    refine Nat.lt_of_lt_of_le (longer reported).2 ?_
    rw [Point.offset_walk _ (Stretch.texts back)]
    exact Nat.le_add_right _ _

/-- The problems of a source are those of its characters, each beginning after the one before it,
and then those of its grammar, none of which begins or ends before an earlier one does. -/
theorem parse_orders_problems (options : Options) (source : Text) :
    ∃ lexical grammatical, (parse options source).problems = lexical ++ grammatical ∧
      (∀ problem ∈ lexical, problem.stage = .lexer) ∧
      (∀ problem ∈ grammatical, problem.stage = .parser) ∧
      (lexical.Pairwise fun earlier later =>
        earlier.span.start.offset < later.span.start.offset) ∧
      grammatical.Pairwise fun earlier later => earlier.span.Before later.span := by
  obtain ⟨stretches, tiles⟩ := exists_tiles (options.read source)
  refine ⟨_, _, rfl, ?_, ?_, tiles.problems_ordered, ?_⟩
  · exact List.forall_mem_map.mpr fun fault _ => rfl
  · exact List.forall_mem_map.mpr fun fault _ => rfl
  · exact List.pairwise_map.mpr (Concrete.faults_ordered (Concrete.places_scan _))

/-- Two closing tags are missing at one place. -/
example : (parse {} "<a><b>é".toList).problems.map (·.span.start.offset) = [8, 8] := by
  decide +kernel

end Template
