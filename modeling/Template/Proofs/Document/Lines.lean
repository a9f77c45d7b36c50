import Mathlib.Algebra.BigOperators.Group.List.Basic
import Mathlib.Data.List.Infix
import Template.CommandLine
import Template.Proofs.Concrete.Causes
import Template.Proofs.Document.Writing

set_option autoImplicit false

namespace Template

/-- Whether a token of this kind can hold a line feed. -/
def Kind.mayBreak : Kind → Bool
  | .blank | .text | .comment | .rawRest _ | .quoted _ | .expression => true
  | _ => false

namespace Munch

/-- A headed run holds no line feed if neither its word nor its run can. -/
theorem Headed.no_lineFeed {word part : Text} {allowed : Char → Prop}
    (headed : Headed word allowed part) (fixed : '\n' ∉ word) (outside : ¬allowed '\n') :
    '\n' ∉ part := by
  obtain ⟨run, rfl, -, inside⟩ := headed
  intro member
  rcases List.mem_append.mp member with member | member
  · exact fixed member
  · exact outside (inside '\n' member)

/-- A line feed is in none but blanks, texts, comments, scripts, quoted texts and the content of raw
elements. -/
theorem no_lineFeed_of_belongs {kind : Kind} {image : Text} (belongs : Language kind image)
    (whole : kind.mayBreak = false) : '\n' ∉ image := by
  have named : ¬TagNameChar '\n' := fun named => absurd named.visible.1 (by decide)
  cases kind with
  | blank | text | comment | rawRest | quoted | expression => cases whole
  | openTag => exact belongs.no_lineFeed (by decide) named
  | closeTag => exact belongs.no_lineFeed (by decide) named
  | rawOpen => exact (openTag_of_rawOpen belongs).no_lineFeed (by decide) named
  | attributeText =>
    intro member
    cases (belongs.2 '\n' member).1
  | block sigil =>
    apply belongs.no_lineFeed (by cases sigil <;> decide)
    rintro ⟨filled, -⟩
    cases filled
  | quoteOpen quote | quoteClose quote =>
    rw [show image = _ from belongs]
    cases quote <;> decide
  | _ =>
    rw [show image = _ from belongs]
    decide

end Munch

theorem Mode.count_name (mode : Mode) : mode.name.toList.count '\n' = 0 := by
  cases mode with
  | rawTag element | rawContent element => cases element <;> decide
  | quoted quote => cases quote <;> decide
  | _ => decide

theorem Kind.count_describe (kind : Kind) : kind.describe.toList.count '\n' = 0 := by
  cases kind with
  | rawOpen element | rawAngle element | rawRest element => cases element <;> decide
  | quoteOpen quote | quoted quote | quoteClose quote => cases quote <;> decide
  | block sigil => cases sigil <;> decide
  | _ => decide

namespace Text

theorem count_ofNat (number : Nat) : (ofNat number).count '\n' = 0 := by
  rw [List.count_eq_zero]
  intro member
  exact absurd (Nat.isDigit_of_mem_toDigits (by decide) (by decide) member) (by decide)

/-- A letter made small is no line feed. -/
theorem count_lower {text : Text} (whole : '\n' ∉ text) : text.lower.count '\n' = 0 := by
  rw [List.count_eq_zero]
  intro member
  obtain ⟨char, inside, same⟩ := List.mem_map.mp member
  have code : char.toLower.toNat = 10 := congrArg Char.toNat same
  rw [Munch.toNat_toLower] at code
  split at code
  · omega
  · apply whole
    rwa [← show char = '\n' from Char.toNat_inj.mp code]

end Text

/-- The skipped character that a message quotes. -/
def LexicalFault.quoted : LexicalFault → Text
  | skipped run => [run.char]
  | unfinished _ _ => []

theorem LexicalFault.count_message (fault : LexicalFault) :
    fault.message.count '\n' = fault.quoted.count '\n' := by
  unfold message quoted
  cases fault with
  | skipped run =>
    simp (disch := decide) only [List.count_append, List.count_eq_zero_of_not_mem,
      Text.count_ofNat, Nat.zero_add, Nat.add_zero]
  | unfinished mode finish =>
    simp (disch := decide) only [List.count_append, List.count_eq_zero_of_not_mem, mode.count_name]

namespace Concrete

def foundImage : Option Token → Text
  | none => []
  | some token => token.image

theorem count_describeFound (found : Option Token) :
    (describeFound found).count '\n' = (foundImage found).count '\n' := by
  unfold describeFound foundImage
  cases found with
  | none => decide
  | some token =>
    simp (disch := decide) only [List.cons_append, List.count_cons_of_ne, List.count_append,
      List.count_nil, Nat.add_zero]

theorem Expected.count_describe (expected : Expected) : expected.describe.count '\n' = 0 := by
  cases expected with
  | token kind => exact kind.count_describe
  | _ => decide

namespace Cause

/-- The image that a message quotes. The names of tags and blocks hold no line feed, so they are left
out. -/
def quoted : Cause Token → Text
  | mismatch _ found | missingClose _ found | missingEnd _ found => foundImage found
  | unexpected token => token.image
  | strayClose _ _ | wrongEnd _ _ | tooDeep => []

/-- What a message quotes is the image of a token of the input, if it quotes anything. -/
theorem DrawnFrom.quoted_eq {tokens : List Token} {cause : Cause Token}
    (drawn : cause.DrawnFrom tokens) :
    cause.quoted = [] ∨ ∃ token ∈ tokens, cause.quoted = token.image := by
  have found : ∀ {found : Option Token}, found.toList ⊆ tokens →
      foundImage found = [] ∨ ∃ token ∈ tokens, foundImage found = token.image := by
    rintro (_ | token) shown
    · exact .inl rfl
    · exact .inr ⟨token, shown List.mem_cons_self, rfl⟩
  cases drawn with
  | mismatch _ shown | missingClose _ _ shown | missingEnd _ _ shown => exact found shown
  | unexpected shown => exact .inr ⟨_, shown, rfl⟩
  | strayClose | wrongEnd | tooDeep => exact .inl rfl

theorem count_name (cause : Cause Token) : cause.name.count '\n' = 0 := by
  unfold name
  split <;> decide

variable {tokens : List Token} (belongs : ∀ token ∈ tokens, Munch.Language token.kind token.image)

include belongs

theorem count_tagName {token : Token} {kind : Kind} (member : token ∈ tokens)
    (same : Terminal.kind token = kind) (whole : kind.mayBreak = false) :
    (Terminal.tagName token).count '\n' = 0 := by
  cases same
  apply Text.count_lower
  intro inside
  apply Munch.no_lineFeed_of_belongs (belongs token member) whole
  exact (List.dropWhile_suffix _).subset ((List.dropWhile_suffix _).subset inside)

theorem count_blockName {token : Token} {kind : Kind} (member : token ∈ tokens)
    (same : Terminal.kind token = kind) (whole : kind.mayBreak = false) :
    (Terminal.blockName token).count '\n' = 0 := by
  cases same
  rw [List.count_eq_zero]
  intro inside
  exact Munch.no_lineFeed_of_belongs (belongs token member) whole (List.mem_of_mem_tail inside)

/-- A message holds no line feeds but those of what it quotes. -/
theorem count_message {cause : Cause Token} (drawn : cause.DrawnFrom tokens) :
    cause.message.count '\n' = cause.quoted.count '\n' := by
  unfold message quoted
  cases drawn with
  | mismatch expected =>
    simp (disch := decide) only [List.count_append, List.count_eq_zero_of_not_mem,
      expected.count_describe, count_describeFound, Nat.zero_add]
  | @unexpected token =>
    simp (disch := decide) only [List.count_append, List.count_eq_zero_of_not_mem,
      token.kind.count_describe, Nat.zero_add, Nat.add_zero]
  | missingClose inside opens =>
    simp (disch := decide) only [List.count_append, List.count_eq_zero_of_not_mem,
      count_tagName belongs inside opens rfl, count_describeFound, Nat.zero_add]
  | strayClose stray closes inside opens =>
    simp (disch := decide) only [List.count_append, List.count_eq_zero_of_not_mem,
      count_tagName belongs stray closes rfl, count_tagName belongs inside opens rfl]
  | missingEnd inside opens =>
    simp (disch := decide) only [List.count_append, List.count_eq_zero_of_not_mem,
      count_blockName belongs inside opens rfl, count_describeFound, Nat.zero_add]
  | wrongEnd inside opens wrong closes =>
    simp (disch := decide) only [List.count_append, List.count_eq_zero_of_not_mem,
      count_blockName belongs inside opens rfl, count_blockName belongs wrong closes rfl]
  | tooDeep => decide

end Cause

end Concrete

/-- What the messages about a text quote, in the order of its problems. -/
def quotes (text : Text) : List Text :=
  (scan text).faults.map LexicalFault.quoted ++
    (Concrete.build (scan text).tokens).faults.map fun fault => fault.cause.quoted

/-- A skipped character is one of the source. -/
theorem Scanned.Tiles.mem_of_skipped {source : Text} {scanned : Scanned} {stretches : List Stretch}
    (tiles : scanned.Tiles source stretches) {run : Skipped}
    (recorded : .skipped run ∈ scanned.faults) : run.char ∈ source := by
  rw [tiles.faults_eq, List.mem_append] at recorded
  rcases recorded with gap | last
  · obtain ⟨_, inside, same⟩ := List.mem_map.mp gap
    cases same
    obtain ⟨⟨point, stretch⟩, placed, found⟩ := List.mem_filterMap.mp inside
    obtain ⟨front, back, split, -⟩ := Stretch.placed_split placed
    cases stretch with
    | token => cases found
    | gap char more =>
      cases found
      rw [← tiles.source_eq, split, Stretch.texts_append, Stretch.texts_cons]
      exact List.mem_append_right _ (List.mem_append_left _ List.mem_cons_self)
  · unfold LexicalFault.atEnd at last
    split at last
    · cases last
    · cases List.mem_singleton.mp last

/-- What is quoted is a part of the text. A line feed in it was skipped, or it is in a token of a
kind that can hold one. -/
theorem quoted_of_mem {text quote : Text} (member : quote ∈ quotes text) :
    quote <:+: text ∧ ('\n' ∈ quote → quote = ['\n'] ∨
      ∃ token ∈ (scan text).tokens, quote = token.image ∧ token.kind.mayBreak = true) := by
  obtain ⟨stretches, tiles⟩ := exists_tiles text
  rcases List.mem_append.mp member with lexical | grammatical
  · obtain ⟨fault, recorded, rfl⟩ := List.mem_map.mp lexical
    cases fault with
    | skipped run =>
      refine ⟨(List.singleton_infix_iff _ _).mpr (tiles.mem_of_skipped recorded), ?_⟩
      intro breaks
      exact .inl (congrArg (fun char => [char]) (List.mem_singleton.mp breaks).symm)
    | unfinished => exact ⟨List.nil_infix, fun breaks => nomatch breaks⟩
  · obtain ⟨fault, recorded, rfl⟩ := List.mem_map.mp grammatical
    rcases (Concrete.drawnFrom_build _ fault recorded).quoted_eq with none | ⟨token, inside, same⟩
    · rw [none]
      exact ⟨List.nil_infix, fun breaks => nomatch breaks⟩
    · obtain ⟨front, back, stands⟩ := tiles.standsIn inside
      rw [same]
      refine ⟨⟨front, back, stands.source_eq.symm⟩, ?_⟩
      intro breaks
      refine .inr ⟨token, inside, rfl, ?_⟩
      by_contra whole
      exact Munch.no_lineFeed_of_belongs (language_of_scan inside) (Bool.eq_false_iff.mpr whole) breaks

namespace CommandLine

def placeOf (path : Text) (problem : Problem) : Text :=
  path ++ ':' :: Text.ofNat problem.span.start.line ++
    ':' :: Text.ofNat problem.span.start.column ++ ": ".toList

/-- Each diagnostic begins with the place of its problem. -/
theorem forall₂_diagnostics (path : Text) (parsed : Parsed) :
    List.Forall₂ (fun problem line => placeOf path problem <+: line) parsed.problems
      (diagnostics path parsed) := by
  rw [diagnostics, List.forall₂_map_right_iff, List.forall₂_same]
  intro problem _
  refine ⟨problem.stage.name ++ ' ' :: problem.name ++ ": ".toList ++ problem.message, ?_⟩
  simp only [placeOf, diagnostic, List.append_assoc, List.cons_append]

theorem count_diagnostic (path : Text) (problem : Problem) (named : problem.name.count '\n' = 0) :
    (diagnostic path problem).count '\n' =
      path.count '\n' + problem.message.count '\n' := by
  have staged : problem.stage.name.count '\n' = 0 := by cases problem.stage <;> decide
  unfold diagnostic
  simp (disch := decide) only [List.count_append, List.count_cons_of_ne,
    List.count_eq_zero_of_not_mem, Text.count_ofNat, named, staged, Nat.add_zero]

/-- A diagnostic holds the line feeds of the path and of what its message quotes. -/
theorem count_diagnostics (path : Text) (options : Options) (source : Text) :
    (diagnostics path (parse options source)).map (List.count '\n') =
      (quotes (options.read source)).map fun quote => path.count '\n' + quote.count '\n' := by
  simp only [diagnostics, quotes, parse, parseTokens, List.map_append, List.map_map]
  congr 1
  · apply List.map_congr_left
    intro fault _
    have counted := count_diagnostic path fault.problem rfl
    exact counted.trans (congrArg _ fault.count_message)
  · apply List.map_congr_left
    intro fault recorded
    have drawn := Concrete.drawnFrom_build _ fault recorded
    have counted := count_diagnostic path
      (fault.problem (Concrete.finishOf (scan (options.read source)).tokens)) fault.cause.count_name
    exact counted.trans (congrArg _ (Concrete.Cause.count_message (fun _ => language_of_scan) drawn))

/-- Under a path of one line, each diagnostic is one line if nothing that is quoted breaks it. -/
theorem whole_iff {path : Text} (single : '\n' ∉ path) (options : Options) (source : Text) :
    (∀ line ∈ diagnostics path (parse options source), '\n' ∉ line) ↔
      '\n' ∉ (quotes (options.read source)).flatten := by
  have none : path.count '\n' = 0 := List.count_eq_zero_of_not_mem single
  calc (∀ line ∈ diagnostics path (parse options source), '\n' ∉ line)
      ↔ ∀ feeds ∈ (diagnostics path (parse options source)).map (List.count '\n'), feeds = 0 := by
        simp only [List.forall_mem_map, List.count_eq_zero]
    _ ↔ ∀ quote ∈ quotes (options.read source), '\n' ∉ quote := by
        simp only [count_diagnostics, none, Nat.zero_add, List.forall_mem_map, List.count_eq_zero]
    _ ↔ _ := by
        simp only [List.mem_flatten, not_exists, not_and]

/-- The answer holds a line feed after each diagnostic, and those of the diagnostics. -/
theorem count_errors {path source : Text} (broken : (parse {} source).problems ≠ []) :
    (answerCheck path source).errors.count '\n' =
      (parse {} source).problems.length * (path.count '\n' + 1) +
        (quotes (Options.read {} source)).flatten.count '\n' := by
  have wrong : (parse {} source).isOk = false := by
    rw [Parsed.isOk, List.isEmpty_eq_false_iff]
    exact broken
  have counts := count_diagnostics path {} source
  have long : (quotes (Options.read {} source)).length = (parse {} source).problems.length := by
    have lengths := congrArg List.length counts
    simpa only [List.length_map, diagnostics] using lengths.symm
  have ended : List.count '\n' ∘ (fun line : Text => line ++ ['\n']) =
      (fun feeds => feeds + 1) ∘ List.count '\n' := by
    funext line
    exact List.count_append
  calc (answerCheck path source).errors.count '\n'
      = (((diagnostics path (parse {} source)).map (List.count '\n')).map (· + 1)).sum := by
        rw [answerCheck, wrong, List.map_map, ← ended]
        exact List.count_flatMap
    _ = ((quotes (Options.read {} source)).map fun quote =>
          (path.count '\n' + 1) + quote.count '\n').sum := by
        rw [counts, List.map_map]
        congr 2
        funext quote
        exact Nat.add_right_comm _ _ _
    _ = _ := by
        rw [List.sum_map_add, List.map_const', List.sum_replicate, long, List.count_flatten]
        rfl

/-- What the answer about a broken source shows: each diagnostic begins with the place of its
problem, and it is one line but for the line feeds of the path and of what its message quotes. What
is quoted is a part of the source, and a line feed in it was skipped or is in a token of a kind that
can hold one. So there is one line for each problem only if nothing with a line feed is quoted. -/
theorem check_lines (path source : Text) :
    let text := Options.read {} source
    let parsed := parse {} source
    List.Forall₂ (fun problem line => placeOf path problem <+: line) parsed.problems
        (diagnostics path parsed) ∧
      (diagnostics path parsed).map (List.count '\n') =
        (quotes text).map (fun quote => path.count '\n' + quote.count '\n') ∧
      (∀ quote ∈ quotes text, quote <:+: text ∧ ('\n' ∈ quote → quote = ['\n'] ∨
        ∃ token ∈ (scan text).tokens, quote = token.image ∧ token.kind.mayBreak = true)) ∧
      (parsed.problems ≠ [] → (answerCheck path source).errors.count '\n' =
        parsed.problems.length * (path.count '\n' + 1) + (quotes text).flatten.count '\n') ∧
      ('\n' ∉ path → ((∀ line ∈ diagnostics path parsed, '\n' ∉ line) ↔
        '\n' ∉ (quotes text).flatten)) := by
  refine ⟨forall₂_diagnostics path _, count_diagnostics path {} source, ?_, count_errors, ?_⟩
  · intro quote member
    exact quoted_of_mem member
  · intro single
    exact whole_iff single {} source

/-- A line feed where a modifier should have its name. -/
example : (answerCheck ['a'] "<br a|\n>".toList).errors =
    "a:1:7: Parser MismatchedToken: expected attribute text but found '\n'\n".toList := by
  decide +kernel

end CommandLine

end Template
