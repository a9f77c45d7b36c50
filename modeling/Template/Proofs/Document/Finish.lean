import Template.Parse
import Template.Proofs.Concrete.Records
import Template.Proofs.Concrete.Sites
import Template.Proofs.Scan.Placement

set_option autoImplicit false

namespace Template

open Concrete (Builder Fault Records Site build finishOf)

/-- A gap may end the stretches. What stands before it ends with a token. -/
theorem Stretch.exists_tail {stretches : List Stretch} (apart : stretches.IsChain Apart) :
    ∃ front run, stretches = front ++ ofRun run ∧
      (front = [] ∨ ∃ before kind image, front = before ++ [.token kind image]) := by
  rcases List.eq_nil_or_concat' stretches with rfl | ⟨front, last, rfl⟩
  · exact ⟨[], [], rfl, .inl rfl⟩
  · cases last with
    | token kind image =>
      exact ⟨_, [], (List.append_nil _).symm, .inr ⟨front, kind, image, rfl⟩⟩
    | gap char more =>
      refine ⟨front, char :: more, rfl, ?_⟩
      rcases List.eq_nil_or_concat' front with rfl | ⟨before, stretch, rfl⟩
      · exact .inl rfl
      · have beside := (List.isChain_append.mp apart).2.2 stretch List.getLast?_concat _ rfl
        cases stretch with
        | token kind image => exact .inr ⟨before, kind, image, rfl⟩
        | gap => exact beside.elim

/-- The tokens of a source end between two parts of it. The first part ends with the last token, and
the characters of the second part are skipped. -/
structure Scanned.EndsBetween (source : Text) (scanned : Scanned) (read skipped : Text) : Prop where
  source_eq : read ++ skipped = source
  finish_eq : finishOf scanned.tokens = Point.origin.walk read
  read_eq : read = [] ∧ scanned.tokens = [] ∨ ∃ front, ∃ token ∈ scanned.tokens.getLast?,
    token.start = Point.origin.walk front ∧ read = front ++ token.image
  gap : ∀ char more, skipped = char :: more →
    .skipped ⟨Point.origin.walk read, char, more.length + 1⟩ ∈ scanned.faults

theorem Scanned.Tiles.exists_endsBetween {source : Text} {scanned : Scanned}
    {stretches : List Stretch} (tiles : scanned.Tiles source stretches) :
    ∃ read skipped, scanned.EndsBetween source read skipped := by
  obtain ⟨front, run, rfl, tail⟩ := Stretch.exists_tail tiles.apart
  have source_eq := tiles.source_eq
  have tokens_eq := tiles.tokens_eq
  rw [Stretch.texts_append, Stretch.texts_ofRun] at source_eq
  rw [Stretch.placed_append, List.filterMap_append, Stretch.token?_ofRun, List.append_nil]
    at tokens_eq
  have gap : ∀ char more, run = char :: more →
      .skipped ⟨Point.origin.walk (Stretch.texts front), char, more.length + 1⟩ ∈
        scanned.faults := by
    rintro char more rfl
    rw [tiles.faults_eq, Stretch.placed_append, List.filterMap_append, List.map_append]
    apply List.mem_append_left
    apply List.mem_append_right
    exact List.mem_singleton_self _
  refine ⟨Stretch.texts front, run, source_eq, ?_, ?_, gap⟩
  all_goals
    rcases tail with rfl | ⟨before, kind, image, rfl⟩
  · rw [tokens_eq]
    rfl
  · rw [tokens_eq, Stretch.placed_append, List.filterMap_append]
    simp only [Stretch.placed, List.filterMap_cons, Stretch.token?, List.filterMap_nil, finishOf,
      List.getLast?_concat, Option.map_some, Option.getD_some, Token.after_place]
    rw [Stretch.texts_append, Point.walk_append, Stretch.texts_cons, Stretch.texts_nil,
      List.append_nil]
    rfl
  · exact .inl ⟨rfl, tokens_eq⟩
  · refine .inr ⟨Stretch.texts before, .place kind image _, ?_, rfl, ?_⟩
    · rw [tokens_eq, Stretch.placed_append, List.filterMap_append]
      exact List.getLast?_concat
    · rw [Stretch.texts_append, Stretch.texts_cons, Stretch.texts_nil, List.append_nil]
      rfl

/-- The tokens end where the text does exactly if nothing is skipped after them. -/
theorem Scanned.EndsBetween.reaches_end_iff {source read skipped : Text} {scanned : Scanned}
    (ends : scanned.EndsBetween source read skipped) :
    finishOf scanned.tokens = Point.origin.walk source ↔ skipped = [] := by
  rw [ends.finish_eq, ← ends.source_eq]
  constructor
  · intro same
    have offsets := congrArg Point.offset same
    rw [Point.walk_append, Point.offset_walk _ skipped] at offsets
    cases skipped with
    | nil => rfl
    | cons char more =>
      have positive := char.utf8Size_pos
      rw [Text.size_cons] at offsets
      omega
  · rintro rfl
    rw [List.append_nil]

namespace Concrete

/-- What tokens cover holds a character, since the tokens do. -/
theorem start_lt_after_of_infix {tokens run : List Token} {first last : Token}
    (filled : ∀ token ∈ tokens, token.start.offset < token.after.offset)
    (ordered : tokens.Pairwise fun left right => left.after.offset ≤ right.start.offset)
    (inside : run <:+: tokens) (head : run.head? = some first) (final : run.getLast? = some last) :
    first.start.offset < last.after.offset := by
  cases run with
  | nil => cases head
  | cons token rest =>
    cases head
    have here := filled first (inside.subset List.mem_cons_self)
    have apart := List.pairwise_cons.mp (ordered.sublist inside.sublist)
    rcases List.mem_cons.mp (List.mem_of_getLast? final) with rfl | later
    · exact here
    · have there := filled last (inside.subset (List.mem_cons_of_mem _ later))
      have between := apart.1 last later
      omega

/-- The site of a fault covers no character exactly if no token is left there. -/
theorem Site.isEmpty_span_iff {source : Text} {finish : Point} {site : Site Token}
    (within : site.Within (scan source).tokens) :
    (site.span finish).isEmpty = true ↔ site = .finish := by
  obtain ⟨stretches, tiles⟩ := exists_tiles source
  have filled : ∀ token ∈ (scan source).tokens, token.start.offset < token.after.offset := by
    intro token member
    obtain ⟨front, back, stands⟩ := tiles.standsIn member
    exact stands.start_lt_after
  rw [Span.isEmpty, beq_iff_eq]
  cases site with
  | across first last =>
    obtain ⟨run, inside, head, final⟩ := within
    have longer := start_lt_after_of_infix filled tiles.ordered inside head final
    exact ⟨fun same => absurd same (Nat.ne_of_lt longer), fun same => nomatch same⟩
  | before token =>
    have longer := filled token within
    exact ⟨fun same => absurd same (Nat.ne_of_lt longer), fun same => nomatch same⟩
  | finish => exact ⟨fun _ => rfl, fun _ => rfl⟩

/-- Where a step records a fault without a token, it leaves none, and where no token is left a step
records no other fault. -/
theorem Builder.Advances.finish_iff {before after : Builder Token} {read : List Token}
    {fault : Fault Token} (advances : Advances before after read)
    (recorded : after.faults = fault :: before.faults) :
    (fault.site = .finish → after.rest = []) ∧ (before.rest = [] → fault.site = .finish) := by
  obtain ⟨here, records⟩ := advances
  rw [recorded] at records
  generalize same : fault :: before.faults = faults at records
  cases records with
  | nothing => exact absurd same (List.cons_ne_self _ _)
  | across cause within =>
    cases same
    refine ⟨fun finish => (nomatch finish), fun none => ?_⟩
    obtain ⟨run, inside, head, -⟩ := within
    rw [none, eq_comm, List.append_eq_nil_iff] at here
    rw [here.1, List.infix_nil] at inside
    subst inside
    cases head
  | here cause =>
    cases same
    refine ⟨fun finish => ?_, fun none => ?_⟩
    · cases rest : after.rest with
      | nil => rfl
      | cons token more =>
        rw [rest] at finish
        cases finish
    · rw [none, eq_comm, List.append_eq_nil_iff] at here
      rw [here.2]
      rfl

end Concrete

/-- The problems of a grammar that cover no character are those that are found where no token is
left, and they all stand at one point. -/
structure Scanned.ReportsEndAt (scanned : Scanned) (point : Point) : Prop where
  /-- Building records a fault without a token only where it leaves none, and where no token is left
  it records no other fault. -/
  recorded : ∀ before after fault, Builder.machine.Reaches (.start scanned.tokens) before →
    Builder.machine.step before = some after → after.faults = fault :: before.faults →
      (fault.site = .finish → after.rest = []) ∧ (before.rest = [] → fault.site = .finish)
  empty : ∀ fault ∈ (build scanned.tokens).faults,
    (fault.problem (finishOf scanned.tokens)).span.isEmpty = true ↔ fault.site = .finish
  span_eq : ∀ fault ∈ (build scanned.tokens).faults, fault.site = .finish →
    (fault.problem (finishOf scanned.tokens)).span = .empty point

theorem scan_reportsEndAt (source : Text) :
    (scan source).ReportsEndAt (finishOf (scan source).tokens) where
  recorded := by
    intro before after fault _ taken recorded
    obtain ⟨read, advances⟩ := Builder.advances_of_does (Builder.does_of_step taken)
    exact advances.finish_iff recorded
  empty := by
    intro fault member
    exact Site.isEmpty_span_iff ((Concrete.sound_build (scan source).tokens).1 fault member)
  span_eq := by
    intro fault _ finish
    show fault.site.span _ = _
    rw [finish]
    rfl

/-- The problems that the grammar of a source has where no token is left, which are those without a
character, stand right after the last token. This is the end of the text that was read exactly if no
characters are skipped after that token; otherwise the end comes later. -/
theorem parse_reports_end (options : Options) (source : Text) :
    ∃ read skipped lexical,
      (scan (options.read source)).EndsBetween (options.read source) read skipped ∧
      (scan (options.read source)).ReportsEndAt (Point.origin.walk read) ∧
      (parse options source).problems =
        lexical ++ (build (scan (options.read source)).tokens).faults.map
          (·.problem (finishOf (scan (options.read source)).tokens)) ∧
      (∀ problem ∈ lexical, problem.stage = .lexer) ∧
      ∀ problem ∈ (parse options source).problems, problem.stage = .parser →
        problem.span.isEmpty = true → problem.span = .empty (Point.origin.walk read) ∧
          (problem.span = .empty (Point.origin.walk (options.read source)) ↔ skipped = []) := by
  set text := options.read source
  obtain ⟨stretches, tiles⟩ := exists_tiles text
  obtain ⟨read, skipped, ends⟩ := tiles.exists_endsBetween
  have reports := scan_reportsEndAt text
  have reaches := ends.reaches_end_iff
  rw [ends.finish_eq] at reports reaches
  have lexical : ∀ problem ∈ (scan text).faults.map (·.problem), problem.stage = .lexer :=
    List.forall_mem_map.mpr fun fault _ => rfl
  refine ⟨read, skipped, _, ends, reports, rfl, lexical, ?_⟩
  intro problem member parser covers
  rcases List.mem_append.mp member with scanned | parsed
  · have lexer := lexical problem scanned
    rw [parser] at lexer
    cases lexer
  · obtain ⟨fault, found, rfl⟩ := List.mem_map.mp parsed
    have same := reports.span_eq fault found ((reports.empty fault found).mp covers)
    refine ⟨same, ?_⟩
    rw [same, ← reaches]
    exact ⟨congrArg Span.start, congrArg Span.empty⟩

/-- The closing tag is found missing before the character that is skipped, not after it. -/
example : (parse {} "<div><".toList).problems.map (fun problem => (problem.stage, problem.span)) =
    [(.lexer, ⟨⟨1, 6, 5⟩, ⟨1, 7, 6⟩⟩), (.parser, .empty ⟨1, 6, 5⟩)] := by
  decide +kernel

end Template
