import Template.Proofs.Scan.Bounds
import Template.Proofs.Scan.Tiling

set_option autoImplicit false

namespace Template

namespace Stretch

theorem placed_split {start point : Point} {stretch : Stretch} {stretches : List Stretch}
    (member : (point, stretch) ∈ placed start stretches) :
    ∃ front back, stretches = front ++ stretch :: back ∧ point = start.walk (texts front) := by
  induction stretches generalizing start with
  | nil => cases member
  | cons first rest ih =>
    rw [placed] at member
    rcases List.mem_cons.mp member with same | later
    · cases same
      exact ⟨[], rest, rfl, rfl⟩
    · obtain ⟨front, back, rfl, rfl⟩ := ih later
      exact ⟨first :: front, back, rfl, by rw [texts_cons, Point.walk_append]⟩

/-- No stretch begins before the stretches before it end. -/
theorem offset_le_of_mem_placed {start point : Point} {stretch : Stretch}
    {stretches : List Stretch} (member : (point, stretch) ∈ placed start stretches) :
    start.offset ≤ point.offset := by
  obtain ⟨front, _, _, rfl⟩ := placed_split member
  rw [Point.offset_walk]
  exact Nat.le_add_right _ _

theorem placed_ordered (start : Point) (stretches : List Stretch) :
    (placed start stretches).Pairwise fun left right =>
      (left.1.walk left.2.text).offset ≤ right.1.offset := by
  induction stretches generalizing start with
  | nil => exact .nil
  | cons stretch rest ih =>
    exact .cons (fun later member => offset_le_of_mem_placed member) (ih _)

/-- The problem that a gap at a point is: it stands on the first of its characters, and it says
which one that is, where it stands and how many characters there are. -/
def problem? : Point × Stretch → Option Problem
  | (_, token ..) => none
  | (point, gap char more) =>
    some {
      stage := .lexer
      name := "LexingError".toList
      message := "unexpected character: ->".toList ++ [char] ++ "<- at offset: ".toList ++
        .ofNat point.offset ++ ", skipped ".toList ++ .ofNat (gap char more).text.length ++
        " characters.".toList
      span := ⟨point, point.next char⟩ }

theorem problem?_eq (placed : Point × Stretch) :
    problem? placed = (run? placed).map fun run => (LexicalFault.skipped run).problem := by
  obtain ⟨point, stretch⟩ := placed
  cases stretch <;> rfl

end Stretch

/-- The problem of a source that ends in these modes: none where only the first mode is left, and
else one at the end. -/
def ModeStack.problems (modes : ModeStack) (finish : Point) : List Problem :=
  if modes.below = [] then []
  else [{
    stage := .lexer
    name := "LexingError".toList
    message := "unexpected end of input in ".toList ++ modes.top.name.toList ++ " mode".toList
    span := .empty finish }]

/-- A token that stands in a source: its text is a part of the source, and its places are those
that walking over the source reaches. -/
structure Token.StandsIn (source : Text) (token : Token) (front back : Text) : Prop where
  source_eq : source = front ++ token.image ++ back
  filled : token.image ≠ []
  start_eq : token.start = Point.origin.walk front
  last_eq : token.last = Point.origin.walk (front ++ token.image.dropLast)
  after_eq : token.after = Point.origin.walk (front ++ token.image)

/-- The text between two places that walking over a source reaches. -/
theorem Span.slice?_walk (front part back : Text) :
    Span.slice? ⟨Point.origin.walk front, Point.origin.walk (front ++ part)⟩
      (front ++ part ++ back) = some part := by
  have zero : Point.origin.offset = 0 := rfl
  simp only [slice?, Point.offset_walk, Text.size_append, zero, Nat.zero_add]
  exact Text.slice?_append front part back

theorem Token.StandsIn.slice_eq {source front back : Text} {token : Token}
    (stands : token.StandsIn source front back) :
    source.slice? token.start.offset token.after.offset = some token.image := by
  rw [stands.start_eq, stands.after_eq, stands.source_eq]
  exact Span.slice?_walk front token.image back

theorem Token.StandsIn.start_lt_after {source front back : Text} {token : Token}
    (stands : token.StandsIn source front back) : token.start.offset < token.after.offset := by
  rw [stands.start_eq, stands.after_eq, Point.walk_append, Point.offset_walk _ token.image]
  cases image : token.image with
  | nil => exact absurd image stands.filled
  | cons char rest =>
    have positive := char.utf8Size_pos
    rw [Text.size_cons]
    omega

namespace Scanned.Tiles

variable {source : Text} {scanned : Scanned} {stretches : List Stretch}

theorem standsIn (tiles : scanned.Tiles source stretches) {token : Token}
    (member : token ∈ scanned.tokens) : ∃ front back, token.StandsIn source front back := by
  rw [tiles.tokens_eq, List.mem_filterMap] at member
  obtain ⟨⟨point, stretch⟩, placed, is_token⟩ := member
  cases stretch with
  | gap char more => cases is_token
  | token kind image =>
    cases is_token
    obtain ⟨front, back, split, rfl⟩ := Stretch.placed_split placed
    have filled := tiles.filled (.token kind image) (by rw [split]; simp)
    refine ⟨Stretch.texts front, Stretch.texts back, ⟨?_, filled, rfl, ?_, ?_⟩⟩
    · rw [← tiles.source_eq, split, Stretch.texts_append, Stretch.texts_cons, List.append_assoc]
      rfl
    · exact (Point.walk_append _ _ _).symm
    · rw [Token.after_place, Point.walk_append]
      rfl

/-- No token begins before the tokens before it end. -/
theorem ordered (tiles : scanned.Tiles source stretches) :
    scanned.tokens.Pairwise fun left right => left.after.offset ≤ right.start.offset := by
  rw [tiles.tokens_eq, List.pairwise_filterMap]
  refine (Stretch.placed_ordered .origin stretches).imp ?_
  rintro ⟨first, left⟩ ⟨second, right⟩ before token is_token later is_later
  cases left with
  | gap char more => cases is_token
  | token kind image =>
    cases right with
    | gap char more => cases is_later
    | token other text =>
      cases is_token
      cases is_later
      rw [Token.after_place]
      exact before

theorem problems_eq (tiles : scanned.Tiles source stretches) :
    scanned.faults.map LexicalFault.problem =
      (Stretch.placed .origin stretches).filterMap Stretch.problem? ++
        (ModeStack.after scanned.tokens).problems (Point.origin.walk source) := by
  have gaps : Stretch.problem? = fun placed =>
      (Stretch.run? placed).map fun run => (LexicalFault.skipped run).problem :=
    funext Stretch.problem?_eq
  rw [tiles.faults_eq, List.map_append, List.map_map, gaps, ← List.map_filterMap]
  congr 1
  unfold LexicalFault.atEnd ModeStack.problems
  cases (ModeStack.after scanned.tokens).below with
  | nil => rfl
  | cons mode below => rfl

end Scanned.Tiles

namespace Scanner

/-- The places at which a scan cuts its source here: where it stands, after the next character,
where each kind of token would end, and where the body of a comment would begin. The end of a script
that is searched for in the bytes of the whole source is the one found from here. -/
structure Bounded (source : Text) (scanner : Scanner) : Prop where
  here : ∃ front, source.cut? scanner.point.offset = some (front, scanner.rest)
  next : ∀ char rest, scanner.rest = char :: rest →
    ∃ front, source.cut? (scanner.point.offset + char.utf8Size) = some (front, rest)
  token : ∀ kind, Munch.length kind scanner.rest ≤ scanner.rest.length ∧
    source.slice? scanner.point.offset
      (scanner.point.offset + Munch.byteLength kind scanner.rest) =
        some (scanner.rest.take (Munch.length kind scanner.rest))
  comment : ∀ body, Munch.commentBody? scanner.rest = some body →
    ∃ front, source.cut? scanner.commentBody = some (front, body)
  script : (Embedded.endIn? source scanner.point.offset).getD scanner.point.offset =
    scanner.point.offset + Munch.byteLength .expression scanner.rest

theorem bounded_of_append {source front : Text} {scanner : Scanner}
    (source_eq : source = front ++ scanner.rest) (offset_eq : scanner.point.offset = front.size) :
    Bounded source scanner where
  here := ⟨front, by rw [source_eq, offset_eq, Text.cut?_append]⟩
  next := by
    intro char rest ahead
    refine ⟨front ++ [char], ?_⟩
    have longer : front.size + char.utf8Size = Text.size (front ++ [char]) :=
      (Text.size_append front [char]).symm
    rw [offset_eq, longer, source_eq, ahead, List.append_cons front char rest, Text.cut?_append]
  token := by
    intro kind
    refine ⟨Munch.length_le kind scanner.rest, ?_⟩
    have split := List.take_append_drop (Munch.length kind scanner.rest) scanner.rest
    rw [offset_eq, Munch.byteLength_eq]
    calc
      source.slice? _ _ =
          Text.slice? (front ++ scanner.rest.take (Munch.length kind scanner.rest) ++
            scanner.rest.drop (Munch.length kind scanner.rest)) _ _ := by
        rw [List.append_assoc, split, source_eq]
      _ = _ := Text.slice?_append _ _ _
  comment := by
    intro body opened
    have four : Text.size ['<', '!', '-', '-'] = 4 := rfl
    refine ⟨front ++ ['<', '!', '-', '-'], ?_⟩
    rw [commentBody, offset_eq, ← four, ← Text.size_append, source_eq,
      Munch.eq_of_commentBody? opened, ← List.append_assoc, Text.cut?_append]
  script := by
    rw [source_eq, offset_eq, Embedded.endIn?_append, Munch.byteLength_eq]
    change _ = front.size + Text.size (scanner.rest.take (Embedded.length scanner.rest))
    split
    · next empty =>
      rw [empty]
      rfl
    · rfl

/-- Wherever a scan gets to, it cuts its source between two characters. -/
theorem bounded_of_reaches {source : Text} {scanner : Scanner}
    (reached : machine.Reaches (.start source) scanner) : Bounded source scanner := by
  obtain ⟨closed, run, covers⟩ := covers_of_reaches reached
  refine bounded_of_append covers.source_eq.symm ?_
  rw [covers.point_eq, Point.offset_walk]
  exact Nat.zero_add _

end Scanner

/-- A scan tiles its source. It is divided into stretches, none of them empty and no gap beside a
gap, such that the tokens are those of the stretches and the problems those of the gaps, one for
each, with one more at the end where a mode is left open. Every token stands where walking over the
source leads, its text is what the source has there, and the tokens follow one another. Nowhere is
the source cut outside its bounds or inside a character. -/
theorem scan_tiles (source : Text) :
    (∃ stretches : List Stretch,
      Stretch.texts stretches = source ∧
      (∀ stretch ∈ stretches, stretch.text ≠ []) ∧
      stretches.IsChain Stretch.Apart ∧
      (scan source).tokens = (Stretch.placed .origin stretches).filterMap Stretch.token? ∧
      (scan source).faults.map LexicalFault.problem =
        (Stretch.placed .origin stretches).filterMap Stretch.problem? ++
          (ModeStack.after (scan source).tokens).problems (Point.origin.walk source)) ∧
    (∀ token ∈ (scan source).tokens,
      (∃ front back, token.StandsIn source front back) ∧
      source.slice? token.start.offset token.after.offset = some token.image) ∧
    (scan source).tokens.Pairwise (fun left right =>
      left.start.offset < right.start.offset ∧ left.after.offset ≤ right.start.offset) ∧
    ∀ scanner, Scanner.machine.Reaches (.start source) scanner → scanner.Bounded source := by
  obtain ⟨stretches, tiles⟩ := exists_tiles source
  refine ⟨⟨stretches, tiles.source_eq, tiles.filled, tiles.apart, tiles.tokens_eq,
    tiles.problems_eq⟩, ?_, ?_, fun scanner reached => Scanner.bounded_of_reaches reached⟩
  · intro token member
    obtain ⟨front, back, stands⟩ := tiles.standsIn member
    exact ⟨⟨front, back, stands⟩, stands.slice_eq⟩
  · refine tiles.ordered.imp_of_mem ?_
    intro left right member _ before
    obtain ⟨front, back, stands⟩ := tiles.standsIn member
    exact ⟨Nat.lt_of_lt_of_le stands.start_lt_after before, before⟩

end Template
