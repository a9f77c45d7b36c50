import Mathlib.Data.List.Chain
import Mathlib.Data.List.Induction
import Template.Proofs.Document.Extents

set_option autoImplicit false

namespace Template

open Concrete (Braced)

/-- The parts of a value by its scripts: the texts before the first script, and each script with the
texts after it. -/
def Concrete.Part.spread {τ : Type} (first : List τ) (rest : List (Braced τ × List τ)) :
    List (Part τ) :=
  first.map .text ++ rest.flatMap fun (script, run) => .braced script :: run.map .text

theorem Concrete.Part.spread_cons {τ : Type} (first : List τ) (entry : Braced τ × List τ)
    (rest : List (Braced τ × List τ)) :
    spread first (entry :: rest) = first.map .text ++ .braced entry.1 :: spread entry.2 rest := rfl

def Concrete.Part.script? {τ : Type} : Part τ → Option (Braced τ)
  | text _ => none
  | braced script => some script

namespace ValuePart

def script? : ValuePart → Option Fragment
  | text _ => none
  | expression fragment => some fragment

/-- The piece that texts in a row become: what they say one after another, from the first of them to
the last. -/
def ofRun : List Token → List ValuePart
  | [] => []
  | token :: more =>
    [.text ⟨Token.images (token :: more), token.start, (more.getLastD token).after⟩]

def gather (first : List Token) (rest : List (Braced Token × List Token)) : List ValuePart :=
  ofRun first ++ rest.flatMap fun (script, run) => .expression (.ofBraced script) :: ofRun run

/-- The pieces with one more part. A text is added to the last piece if that is a text. -/
def absorb (pieces : List ValuePart) : Concrete.Part Token → List ValuePart
  | .braced script => pieces ++ [.expression (.ofBraced script)]
  | .text token =>
    match pieces.getLast? with
    | some (.text before) =>
      pieces.dropLast ++ [.text ⟨before.value ++ token.image, before.span.start, token.after⟩]
    | _ => pieces ++ [.text (.ofToken token)]

/-- Only the last piece matters to what comes next. -/
theorem absorb_append (front : List ValuePart) {back : List ValuePart} (filled : back ≠ [])
    (part : Concrete.Part Token) : absorb (front ++ back) part = front ++ absorb back part := by
  obtain ⟨back, last, rfl⟩ := (List.eq_nil_or_concat' back).resolve_left filled
  cases part with
  | braced script => exact List.append_assoc ..
  | text token =>
    rw [← List.append_assoc]
    simp only [absorb, List.getLast?_concat, List.dropLast_concat]
    cases last <;> simp only [List.append_assoc]

/-- A part at the end is absorbed by the pieces of the parts before it. -/
theorem ofParts_concat (front : List (Concrete.Part Token)) (part : Concrete.Part Token) :
    ofParts (front ++ [part]) = absorb (ofParts front) part := by
  induction front with
  | nil => cases part <;> rfl
  | cons first rest ih =>
    rw [List.cons_append]
    cases first with
    | braced script =>
      rw [ofParts, ofParts, ih]
      cases pieces : ofParts rest with
      | nil => cases part <;> rfl
      | cons piece more => exact (absorb_append [_] (List.cons_ne_nil piece more) part).symm
    | text token =>
      rw [ofParts, ofParts, ih]
      cases pieces : ofParts rest with
      | nil => cases part <;> rfl
      | cons piece more =>
        -- The piece that the text takes in is the last only if it is the only one.
        rcases more with _ | ⟨next, more⟩
        · cases piece <;> cases part <;> simp [absorb, Fragment.ofToken]
        · have further := absorb_append [piece] (List.cons_ne_nil next more) part
          rw [List.singleton_append] at further
          rw [further]
          cases piece with
          | text after => exact (absorb_append [_] (List.cons_ne_nil next more) part).symm
          | expression script => exact (absorb_append [_, _] (List.cons_ne_nil next more) part).symm

/-- The pieces of a value are found by absorbing its parts one after another. -/
theorem ofParts_eq_foldl (parts : List (Concrete.Part Token)) :
    ofParts parts = parts.foldl absorb [] := by
  induction parts using List.reverseRecOn with
  | nil => rfl
  | append_singleton front part ih => rw [ofParts_concat, ih, List.foldl_concat]

/-- A text that comes right after a run belongs to it. -/
theorem absorb_ofRun (run : List Token) (token : Token) :
    absorb (ofRun run) (.text token) = ofRun (run ++ [token]) := by
  cases run with
  | nil => simp [ofRun, absorb, Token.images, Fragment.ofToken, Token.span]
  | cons first more => simp [ofRun, absorb, Token.images]

/-- A script ends the run before it. -/
theorem absorb_expression (script : Fragment) (run : List Token) (token : Token) :
    absorb (.expression script :: ofRun run) (.text token) =
      .expression script :: ofRun (run ++ [token]) := by
  cases run with
  | nil => simp [ofRun, absorb, Token.images, Fragment.ofToken, Token.span]
  | cons first more =>
    rw [← absorb_ofRun]
    exact absorb_append [_] (List.cons_ne_nil _ []) _

theorem gather_cons (first : List Token) (entry : Braced Token × List Token)
    (rest : List (Braced Token × List Token)) :
    gather first (entry :: rest) =
      ofRun first ++ .expression (.ofBraced entry.1) :: gather entry.2 rest := rfl

theorem gather_concat (first run : List Token) (script : Braced Token)
    (rest : List (Braced Token × List Token)) :
    gather first (rest ++ [(script, run)]) =
      gather first rest ++ .expression (.ofBraced script) :: ofRun run := by
  simp [gather]

/-- The parts that were taken are scripts with runs between them, and their pieces are the scripts
with the texts of the runs. -/
theorem exists_gather (parts : List (Concrete.Part Token)) :
    ∃ first rest, parts = Concrete.Part.spread first rest ∧ ofParts parts = gather first rest := by
  induction parts using List.reverseRecOn with
  | nil => exact ⟨[], [], rfl, rfl⟩
  | append_singleton front part ih =>
    obtain ⟨first, rest, rfl, pieces⟩ := ih
    rw [ofParts_concat, pieces]
    cases part with
    | braced script =>
      refine ⟨first, rest ++ [(script, [])], ?_, ?_⟩
      · simp [Concrete.Part.spread]
      · exact (gather_concat first [] script rest).symm
    | text token =>
      rcases List.eq_nil_or_concat' rest with rfl | ⟨rest, ⟨script, run⟩, rfl⟩
      · refine ⟨first ++ [token], [], ?_, ?_⟩
        · simp [Concrete.Part.spread]
        · simpa [gather] using absorb_ofRun first token
      · refine ⟨first, rest ++ [(script, run ++ [token])], ?_, ?_⟩
        · simp [Concrete.Part.spread]
        · rw [gather_concat, gather_concat, absorb_append _ (List.cons_ne_nil _ _),
            absorb_expression]

/-- No two texts are neighbours. -/
theorem isChain_gather (first : List Token) (rest : List (Braced Token × List Token)) :
    (gather first rest).IsChain fun left right => left.script? = none → right.script? ≠ none := by
  induction rest generalizing first with
  | nil => cases first <;> simp [gather, ofRun]
  | cons entry rest ih =>
    obtain ⟨script, run⟩ := entry
    have further : (ValuePart.expression (.ofBraced script) :: gather run rest).IsChain
        fun left right => left.script? = none → right.script? ≠ none :=
      List.isChain_cons.mpr ⟨fun _ _ => nofun, ih run⟩
    rw [gather_cons]
    cases first with
    | nil => exact further
    | cons token more =>
      refine List.isChain_cons.mpr ⟨?_, further⟩
      rintro _ ⟨⟩ -
      exact Option.some_ne_none _

theorem scripts_spread (first : List Token) (rest : List (Braced Token × List Token)) :
    (Concrete.Part.spread first rest).filterMap Concrete.Part.script? = rest.map Prod.fst := by
  have texts : ∀ run : List Token,
      (run.map Concrete.Part.text).filterMap Concrete.Part.script? = [] := by
    intro run
    rw [List.filterMap_map]
    exact List.filterMap_none run
  induction rest generalizing first with
  | nil => exact (congrArg _ (List.append_nil _)).trans (texts first)
  | cons entry rest ih =>
    rw [Concrete.Part.spread_cons, List.filterMap_append, texts, List.nil_append]
    exact congrArg (entry.1 :: ·) (ih entry.2)

theorem scripts_gather (first : List Token) (rest : List (Braced Token × List Token)) :
    (gather first rest).filterMap script? = rest.map fun entry => .ofBraced entry.1 := by
  have texts : ∀ run : List Token, (ofRun run).filterMap script? = [] := by
    intro run
    cases run <;> rfl
  induction rest generalizing first with
  | nil => exact (congrArg _ (List.append_nil _)).trans (texts first)
  | cons entry rest ih =>
    rw [gather_cons, List.filterMap_append, texts, List.nil_append]
    exact congrArg (Fragment.ofBraced entry.1 :: ·) (ih entry.2)

/-- The pieces of a value are in normal form. They are what is left after each part was absorbed by
the pieces before it. No text is beside a text, and the scripts are those of the parts, in order.
Before, between and after the scripts, where there are texts among the parts, there is one piece for
all of them: it says what they say one after another, and it runs from the first to the last. There
are no other pieces. -/
theorem ofParts_normal (parts : List (Concrete.Part Token)) :
    ofParts parts = parts.foldl absorb [] ∧
      (ofParts parts).IsChain (fun left right => left.script? = none → right.script? ≠ none) ∧
      (ofParts parts).filterMap script? =
        (parts.filterMap Concrete.Part.script?).map Fragment.ofBraced ∧
      ∃ first rest, parts = Concrete.Part.spread first rest ∧ ofParts parts = gather first rest := by
  obtain ⟨first, rest, parts_eq, pieces⟩ := exists_gather parts
  refine ⟨ofParts_eq_foldl parts, ?_, ?_, first, rest, parts_eq, pieces⟩
  · rw [pieces]
    exact isChain_gather first rest
  · rw [pieces, parts_eq, scripts_gather, scripts_spread, List.map_map]
    rfl

/-- A slash and a character of two bytes. -/
example : ofParts [.text (.place .slash ['/'] .origin),
    .text (.place .attributeText ['é'] ⟨1, 2, 1⟩)] =
      [.text ⟨['/', 'é'], .origin, ⟨1, 3, 3⟩⟩] := by decide

end ValuePart

end Template
