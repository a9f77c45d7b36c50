import Mathlib.Data.List.Chain
import Template.Problem

set_option autoImplicit false

namespace Template

/-- A part of a source as a scan divides it: the text of a token, or characters that begin none. -/
inductive Stretch where
  | token (kind : Kind) (image : Text)
  | gap (char : Char) (more : Text)
deriving DecidableEq, Repr

namespace Stretch

def text : Stretch → Text
  | token _ image => image
  | gap char more => char :: more

def texts (stretches : List Stretch) : Text := stretches.flatMap text

/-- Some stretches with the points at which they begin, given where the first one does. -/
def placed : Point → List Stretch → List (Point × Stretch)
  | _, [] => []
  | point, stretch :: rest => (point, stretch) :: placed (point.walk stretch.text) rest

/-- The token of a stretch that begins at a point. -/
def token? : Point × Stretch → Option Token
  | (point, token kind image) => some (.place kind image point)
  | (_, gap ..) => none

/-- The run of skipped characters that a gap at a point is. -/
def run? : Point × Stretch → Option Skipped
  | (_, token ..) => none
  | (point, gap char more) => some ⟨point, char, more.length + 1⟩

/-- What may stand side by side: neither two gaps nor two texts. -/
def Apart : Stretch → Stretch → Prop
  | gap .., gap .. => False
  | token first _, token second _ => ¬ (first = .text ∧ second = .text)
  | _, _ => True

@[simp] theorem texts_nil : texts [] = [] := rfl

@[simp] theorem texts_cons (stretch : Stretch) (rest : List Stretch) :
    texts (stretch :: rest) = stretch.text ++ texts rest := rfl

@[simp] theorem texts_append (front back : List Stretch) :
    texts (front ++ back) = texts front ++ texts back := List.flatMap_append

theorem placed_append (point : Point) (front back : List Stretch) :
    placed point (front ++ back) =
      placed point front ++ placed (point.walk (texts front)) back := by
  induction front generalizing point with
  | nil => rfl
  | cons stretch rest ih =>
    rw [List.cons_append, placed, ih, placed, texts_cons, Point.walk_append, List.cons_append]

/-- The gap that some characters form, if there are any. -/
def ofRun : Text → List Stretch
  | [] => []
  | char :: more => [gap char more]

theorem token?_ofRun (point : Point) (run : Text) :
    (placed point (ofRun run)).filterMap token? = [] := by
  cases run <;> rfl

theorem text_ofRun_ne_nil (run : Text) : ∀ stretch ∈ ofRun run, stretch.text ≠ [] := by
  intro stretch member
  cases run with
  | nil => cases member
  | cons char more =>
    cases List.mem_singleton.mp member
    exact List.cons_ne_nil _ _

@[simp] theorem texts_ofRun (run : Text) : texts (ofRun run) = run := by
  cases run with
  | nil => rfl
  | cons char more => exact List.append_nil _

end Stretch

def ModeStack.after (tokens : List Token) : ModeStack :=
  tokens.foldl (fun stack token => stack.apply token.kind.transition) .initial

theorem ModeStack.after_concat (tokens : List Token) (token : Token) :
    after (tokens ++ [token]) = (after tokens).apply token.kind.transition :=
  List.foldl_concat ..

namespace Munch

/-- No text follows a text: the first one would have been longer. -/
theorem length_text_drop (text : Text) :
    length .text (text.drop (length .text text)) = 0 := by
  simp only [length, runLength]
  induction text with
  | nil => rfl
  | cons char rest ih =>
    cases allowed : (char != '<' && char != '\x7b') with
    | true => simpa only [List.takeWhile_cons, allowed, ↓reduceIte, List.length_cons,
        List.drop_succ_cons] using ih
    | false => simp only [List.takeWhile_cons, allowed, Bool.false_eq_true, ↓reduceIte,
        List.length_nil, List.drop_zero]

end Munch

namespace Scanner

open Stretch

/-- What is chosen takes as many characters as the rule of its kind says. -/
theorem longest?_length (scanner : Scanner) (kind : Kind) (count : Nat)
    (chosen : scanner.longest? = some (kind, count)) :
    count = Munch.length kind scanner.rest ∧ 0 < count := by
  obtain ⟨measured, positive⟩ := Munch.longest?_pos _ _ _ _ chosen
  refine ⟨?_, positive⟩
  unfold lengthOf at measured
  split at measured
  · omega
  · exact measured

/-- The source up to a place of the scan consists of closed stretches and of a run of skipped
characters that may go on. -/
structure Covers (source : Text) (scanner : Scanner) (closed : List Stretch) (run : Text) :
    Prop where
  source_eq : texts closed ++ run ++ scanner.rest = source
  point_eq : scanner.point = Point.origin.walk (texts closed ++ run)
  tokens_eq : scanner.tokens.reverse = (placed .origin closed).filterMap token?
  faults_eq : scanner.faults.reverse = ((placed .origin closed).filterMap run?).map .skipped
  skipped_eq : scanner.skipped.toList =
    (placed (Point.origin.walk (texts closed)) (ofRun run)).filterMap run?
  modes_eq : scanner.modes = ModeStack.after scanner.tokens.reverse
  filled : ∀ stretch ∈ closed, stretch.text ≠ []
  apart : closed.IsChain Apart
  /-- The last closed stretch is a token, and if it is a text then no text stands here. -/
  last : ∀ stretch ∈ closed.getLast?, ∃ kind image, stretch = .token kind image ∧
    (run = [] → kind = .text → Munch.length .text scanner.rest = 0)

theorem covers_start (source : Text) : Covers source (.start source) [] [] where
  source_eq := rfl
  point_eq := rfl
  tokens_eq := rfl
  faults_eq := rfl
  skipped_eq := rfl
  modes_eq := rfl
  filled := fun _ member => nomatch member
  apart := .nil
  last := fun _ member => nomatch member

/-- What is known of comment ends plays no part in how the source is divided. -/
theorem Covers.learn {source : Text} {scanner : Scanner} {closed : List Stretch} {run : Text}
    (covers : Covers source scanner closed run) (known : Option Nat) :
    Covers source { scanner with noCommentEnd := known } closed run :=
  { covers with }

/-- Where a run ends, it becomes a gap. -/
theorem Covers.settled_eq {source : Text} {scanner : Scanner} {closed : List Stretch} {run : Text}
    (covers : Covers source scanner closed run) :
    scanner.settled.reverse =
      ((placed .origin (closed ++ ofRun run)).filterMap run?).map .skipped := by
  have open_run := covers.skipped_eq
  rw [placed_append, List.filterMap_append, List.map_append, ← covers.faults_eq, ← open_run]
  unfold settled
  cases scanner.skipped with
  | none => exact (List.append_nil _).symm
  | some skipped => exact List.reverse_cons

/-- A run of skipped characters stands apart from the stretches before it. -/
theorem Covers.apart_run {source : Text} {scanner : Scanner} {closed : List Stretch} {run : Text}
    (covers : Covers source scanner closed run) : (closed ++ ofRun run).IsChain Apart := by
  cases run with
  | nil => simpa only [ofRun, List.append_nil] using covers.apart
  | cons char more =>
    refine covers.apart.append (.singleton _) fun first member second next => ?_
    obtain ⟨kind, image, rfl, _⟩ := covers.last first member
    cases next
    trivial

/-- A token that is taken closes the run before it. -/
theorem Covers.emit {source : Text} {scanner : Scanner} {closed : List Stretch} {run : Text}
    (covers : Covers source scanner closed run) (kind : Kind)
    (positive : 0 < Munch.length kind scanner.rest) (here : scanner.rest ≠ []) :
    Covers source (scanner.emit kind (Munch.length kind scanner.rest))
      (closed ++ ofRun run ++ [.token kind (scanner.rest.take (Munch.length kind scanner.rest))])
      [] where
  source_eq := by
    simp only [Scanner.emit, texts_append, texts_cons, texts_ofRun, texts_nil, Stretch.text,
      List.append_nil, List.append_assoc, List.take_append_drop]
    rw [← List.append_assoc, covers.source_eq]
  point_eq := by
    simp only [Scanner.emit, texts_append, texts_cons, texts_ofRun, texts_nil, Stretch.text,
      List.append_nil, covers.point_eq, Point.walk_append]
  tokens_eq := by
    simp only [Scanner.emit, List.reverse_cons, placed_append, List.filterMap_append,
      token?_ofRun, List.append_nil, covers.tokens_eq, texts_append, texts_ofRun,
      ← covers.point_eq]
    rfl
  faults_eq := by
    rw [placed_append, List.filterMap_append]
    simpa only [Scanner.emit, placed, List.filterMap_cons, run?, List.filterMap_nil,
      List.append_nil] using covers.settled_eq
  skipped_eq := rfl
  modes_eq := by
    simp only [Scanner.emit, List.reverse_cons, ModeStack.after_concat, ← covers.modes_eq]
    rfl
  filled := by
    intro stretch member
    simp only [List.mem_append, List.mem_singleton] at member
    rcases member with (member | member) | rfl
    · exact covers.filled stretch member
    · exact text_ofRun_ne_nil run stretch member
    · simp only [Stretch.text, ne_eq, List.take_eq_nil_iff, not_or]
      exact ⟨by omega, here⟩
  apart := by
    refine covers.apart_run.append (.singleton _) fun first member second next => ?_
    cases next
    cases run with
    | nil =>
      rw [ofRun, List.append_nil] at member
      obtain ⟨before, image, rfl, ended⟩ := covers.last first member
      rintro ⟨rfl, rfl⟩
      have nothing := ended rfl rfl
      omega
    | cons char more =>
      rw [ofRun, List.getLast?_concat] at member
      cases member
      trivial
  last := by
    intro stretch member
    rw [List.getLast?_concat] at member
    cases member
    refine ⟨kind, _, rfl, fun _ same => ?_⟩
    subst same
    exact Munch.length_text_drop scanner.rest

/-- Characters that are passed over continue the run before them. -/
theorem Covers.skip {source : Text} {scanner : Scanner} {closed : List Stretch} {run : Text}
    (covers : Covers source scanner closed run) (char : Char) (more rest : Text)
    (here : scanner.rest = char :: (more ++ rest)) :
    Covers source (scanner.skip char more rest) closed (run ++ char :: more) where
  source_eq := by
    rw [← covers.source_eq, here]
    simp only [Scanner.skip, List.append_assoc, List.cons_append]
  point_eq := by
    simp only [Scanner.skip, ← List.append_assoc, Point.walk_append _ _ (char :: more),
      ← covers.point_eq, Point.walk_cons]
  tokens_eq := covers.tokens_eq
  faults_eq := covers.faults_eq
  skipped_eq := by
    have before := covers.skipped_eq
    simp only [Scanner.skip, extend, Option.toList_some]
    cases run with
    | nil =>
      rw [Option.toList_eq_nil_iff.mp before, covers.point_eq, List.append_nil]
      rfl
    | cons first others =>
      rw [Option.toList_eq_singleton_iff.mp before]
      simp only [List.cons_append, ofRun, placed, List.filterMap_cons, run?, List.filterMap_nil,
        List.length_append, List.length_cons]
      congr 2
      omega
  modes_eq := covers.modes_eq
  filled := covers.filled
  apart := covers.apart
  last := by
    intro stretch member
    obtain ⟨kind, image, rfl, _⟩ := covers.last stretch member
    exact ⟨kind, image, rfl, fun empty => absurd empty (by simp)⟩

/-- Each step divides more of the source. -/
theorem covers_step {source : Text} {before after : Scanner} (taken : before.step = some after)
    (covers : ∃ closed run, Covers source before closed run) :
    ∃ closed run, Covers source after closed run := by
  obtain ⟨closed, run, covers⟩ := covers
  have known := covers.learn before.learn
  unfold step at taken
  split at taken
  · cases taken
  · next char rest here =>
    split at taken
    · next kind count chosen =>
      cases taken
      obtain ⟨rfl, positive⟩ := before.longest?_length kind count chosen
      exact ⟨_, _, known.emit kind positive (here ▸ List.cons_ne_nil char rest)⟩
    · split at taken
      · cases taken
        exact ⟨_, _, known.skip char rest [] (here.trans (by rw [List.append_nil]))⟩
      · cases taken
        exact ⟨_, _, known.skip char [] rest here⟩

theorem covers_of_reaches {source : Text} {scanner : Scanner}
    (reached : machine.Reaches (.start source) scanner) :
    ∃ closed run, Covers source scanner closed run := by
  apply reached.keeps fun scanner => ∃ closed run, Covers source scanner closed run
  · exact fun _ _ covers taken => covers_step taken covers
  · exact ⟨_, _, covers_start source⟩

/-- A scan stops only at the end of the source. -/
theorem rest_exhaust (scanner : Scanner) : (machine.exhaust scanner).rest = [] := by
  have stopped := machine.step_exhaust scanner
  change step _ = none at stopped
  unfold step at stopped
  split at stopped
  · assumption
  · split at stopped
    · cases stopped
    · split at stopped <;> cases stopped

end Scanner

/-- The fault of a source that ends in these modes. -/
def LexicalFault.atEnd (modes : ModeStack) (finish : Point) : List LexicalFault :=
  match modes.below with
  | [] => []
  | _ :: _ => [.unfinished modes.top finish]

structure Scanned.Tiles (source : Text) (scanned : Scanned) (stretches : List Stretch) : Prop where
  source_eq : Stretch.texts stretches = source
  filled : ∀ stretch ∈ stretches, stretch.text ≠ []
  apart : stretches.IsChain Stretch.Apart
  tokens_eq : scanned.tokens = (Stretch.placed .origin stretches).filterMap Stretch.token?
  faults_eq : scanned.faults =
    ((Stretch.placed .origin stretches).filterMap Stretch.run?).map .skipped ++
      LexicalFault.atEnd (ModeStack.after scanned.tokens) (Point.origin.walk source)

/-- Where nothing is left, what was found is that of the stretches. -/
theorem Scanner.Covers.tiles {source : Text} {scanner : Scanner} {closed : List Stretch}
    {run : Text} (covers : Covers source scanner closed run) (finished : scanner.rest = []) :
    scanner.result.Tiles source (closed ++ Stretch.ofRun run) := by
  have whole := covers.source_eq
  rw [finished, List.append_nil] at whole
  have finish : Point.origin.walk source = scanner.point := by rw [covers.point_eq, whole]
  refine ⟨?_, ?_, covers.apart_run, ?_, ?_⟩
  · rw [Stretch.texts_append, Stretch.texts_ofRun, whole]
  · intro stretch member
    rcases List.mem_append.mp member with member | member
    · exact covers.filled stretch member
    · exact Stretch.text_ofRun_ne_nil run stretch member
  · rw [Stretch.placed_append, List.filterMap_append, Stretch.token?_ofRun, List.append_nil]
    exact covers.tokens_eq
  · change scanner.result.faults =
      _ ++ LexicalFault.atEnd (ModeStack.after scanner.tokens.reverse) _
    rw [← covers.settled_eq, finish, ← covers.modes_eq]
    unfold result LexicalFault.atEnd
    cases scanner.modes.below with
    | nil => exact (List.append_nil _).symm
    | cons mode below => exact List.reverse_cons

/-- Every source is divided into stretches. -/
theorem exists_tiles (source : Text) : ∃ stretches, (scan source).Tiles source stretches := by
  obtain ⟨closed, run, covers⟩ :=
    Scanner.covers_of_reaches (Scanner.machine.reaches_exhaust (.start source))
  exact ⟨_, covers.tiles (Scanner.rest_exhaust (.start source))⟩

end Template
