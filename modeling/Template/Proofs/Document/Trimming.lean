import Template.CommandLine
import Template.Proofs.Concrete.Modes
import Template.Proofs.Concrete.Trailing
import Template.Proofs.Document.Seams
import Template.Proofs.Scan.Trimming

set_option autoImplicit false

namespace Template

open Concrete (build)

/-- Nothing is wrong with a source that is read as it stands: it is read without a gap, and a tree is
built of its tokens without faults. -/
def Flawless (source : Text) : Prop :=
  ∃ tokens, Reads .initial .origin source tokens ∧ (build tokens).faults = []

/-- A source has no problems exactly if nothing is wrong with the part of it that is read. -/
theorem problems_eq_nil_iff (options : Options) (source : Text) :
    (parse options source).problems = [] ↔ Flawless (options.read source) := by
  constructor
  · intro none
    obtain ⟨scanned, parsed⟩ := List.append_eq_nil_iff.mp none
    have clean := List.map_eq_nil_iff.mp scanned
    have whole : scan (options.read source) = ⟨(scan (options.read source)).tokens, []⟩ :=
      congrArg (Scanned.mk _) clean
    exact ⟨_, (scan_eq_iff.mp whole).1, List.map_eq_nil_iff.mp parsed⟩
  · rintro ⟨tokens, reads, clean⟩
    have ended : (ModeStack.after tokens).below = [] := by
      rw [Concrete.after_of_clean clean]
      rfl
    have scanned := scan_eq_iff.mpr ⟨reads, ended⟩
    rw [parse, scanned]
    exact List.map_eq_nil_iff.mpr clean

/-- At most a text at the end of the tokens makes no difference. -/
theorem Token.AtMostText.clean_iff {tail : List Token} (atMost : Token.AtMostText tail)
    (front : List Token) : (build (front ++ tail)).faults = [] ↔ (build front).faults = [] := by
  rcases atMost with rfl | ⟨token, rfl, text⟩
  · rw [List.append_nil]
  · exact Concrete.clean_concat_text text

/-- A blank at the end of a source makes no difference. -/
theorem flawless_concat_iff {source : Text} {char : Char} (blank : Text.isBlank char = true) :
    Flawless (source ++ [char]) ↔ Flawless source := by
  have content : ∀ {tokens : List Token}, (build tokens).faults = [] →
      (ModeStack.initial.through (tokens.map Token.kind)).top = .content := by
    intro tokens clean
    rw [← ModeStack.after_eq_through, Concrete.after_of_clean clean]
    rfl
  constructor
  · rintro ⟨tokens, reads, clean⟩
    obtain ⟨front, tail, more, rfl, before, after, again⟩ :=
      reads.of_concat (content clean) rfl blank
    exact ⟨_, again, (after.clean_iff front).mpr ((before.clean_iff front).mp clean)⟩
  · rintro ⟨tokens, reads, clean⟩
    obtain ⟨front, tail, more, rfl, before, after, again⟩ := reads.concat (content clean) blank
    exact ⟨_, again, (after.clean_iff front).mpr ((before.clean_iff front).mp clean)⟩

theorem flawless_append_iff {source blanks : Text}
    (blank : ∀ char ∈ blanks, Text.isBlank char = true) :
    Flawless (source ++ blanks) ↔ Flawless source := by
  induction blanks generalizing source with
  | nil => rw [List.append_nil]
  | cons char rest ih =>
    obtain ⟨first, others⟩ := List.forall_mem_cons.mp blank
    rw [List.append_cons, ih others, flawless_concat_iff first]

/-- Whatever options a source is read with, the verdict is that on the source as it stands. -/
theorem flawless_read_iff (options : Options) (source : Text) :
    Flawless (options.read source) ↔ Flawless source := by
  obtain ⟨blanks, split, blank⟩ := options.read_append source
  rw [← flawless_append_iff blank, split]

/-- Options make no difference for the verdict. -/
theorem verdict_iff (options others : Options) (source : Text) :
    (parse options source).problems = [] ↔ (parse others source).problems = [] := by
  rw [problems_eq_nil_iff, problems_eq_nil_iff, flawless_read_iff, flawless_read_iff]

namespace CommandLine

theorem codeOf_eq (parsed : Parsed) : codeOf parsed = if parsed.problems = [] then 0 else 1 := by
  by_cases none : parsed.problems = []
  · rw [if_pos none, codeOf, Parsed.isOk, none]
    rfl
  · have some : parsed.isOk = false := by
      rw [Parsed.isOk, List.isEmpty_eq_false_iff]
      exact none
    rw [if_neg none, codeOf, some]
    rfl

theorem code_answerParse (compact keepTrailing : Bool) (source : Text) :
    (answerParse compact keepTrailing source).code =
      if (parse {} source).problems = [] then 0 else 1 := by
  show codeOf (parse { trimEnd := !keepTrailing } source) = _
  rw [codeOf_eq]
  exact if_congr (verdict_iff _ _ source) rfl rfl

theorem code_answerCheck (path source : Text) :
    (answerCheck path source).code = if (parse {} source).problems = [] then 0 else 1 := by
  rw [← codeOf_eq, answerCheck, codeOf]
  split <;> rfl

/-- The arguments that name a path. One that looks like a flag comes after a double dash. -/
def naming (path : Text) : List Text :=
  if path.head? = some '-' then ["--".toList, path] else [path]

theorem operands?_naming (known flags : List Text) (path : Text) :
    operands? known ⟨none, flags⟩ (naming path) = some ⟨some path, flags⟩ := by
  by_cases dashed : path.head? = some '-'
  · rw [naming, if_pos dashed]
    rfl
  · have other : (path == "--".toList) = false := by
      apply beq_false_of_ne
      intro same
      rw [same] at dashed
      exact dashed rfl
    have plain : (path.head? != some '-') = true := bne_iff_ne.mpr dashed
    rw [naming, if_neg dashed, operands?, other, plain]
    rfl

/-- Whatever a command line asks of a file, the code is that of the file's template. -/
theorem code_answer {request : Request} {path source : Text}
    {textOf : Text → Except ReadFault Text} (needs : request.path? = some path)
    (readable : textOf path = .ok source) :
    (request.answer textOf).code = if (parse {} source).problems = [] then 0 else 1 := by
  cases request with
  | version => contradiction
  | parse file compact keepTrailing =>
    obtain rfl := Option.some.inj needs
    rw [Request.answer, readable]
    exact code_answerParse compact keepTrailing source
  | check file =>
    obtain rfl := Option.some.inj needs
    rw [Request.answer, readable]
    exact code_answerCheck file source

/-- Leaving out the blanks at the end of a source does not change the verdict. So on a file that can
be read all command lines end with the same code, which is zero exactly if nothing is wrong with its
template. For each file there are command lines that check it, and that parse it with any flags. -/
theorem verdict_of_trimming :
    (∀ source : Text, (parse { trimEnd := true } source).problems = [] ↔
      (parse { trimEnd := false } source).problems = []) ∧
    (∀ (arguments : List Text) (request : Request) (path source : Text)
      (textOf : Text → Except ReadFault Text), request? arguments = some request →
      request.path? = some path → textOf path = .ok source →
      (request.answer textOf).code = if (parse {} source).problems = [] then 0 else 1) ∧
    ∀ path : Text, request? ("check".toList :: naming path) = some (.check path) ∧
      ∀ flags ∈ [[], [compactFlag], [keepFlag], [compactFlag, keepFlag], [keepFlag, compactFlag]],
        request? ("parse".toList :: flags ++ naming path) =
          some (.parse path (flags.contains compactFlag) (flags.contains keepFlag)) := by
  refine ⟨verdict_iff _ _, ?_, ?_⟩
  · intro arguments request path source textOf _ needs readable
    exact code_answer needs readable
  · intro path
    constructor
    · show (operands? [] ⟨none, []⟩ (naming path)).bind _ = _
      rw [operands?_naming]
      rfl
    · intro flags member
      simp only [List.mem_cons, List.not_mem_nil, or_false] at member
      rcases member with rfl | rfl | rfl | rfl | rfl
      all_goals
        show (operands? [compactFlag, keepFlag] ⟨none, _⟩ (naming path)).bind _ = _
        rw [operands?_naming]
        rfl

end CommandLine

end Template
