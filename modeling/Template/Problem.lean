import Template.Concrete.Fault
import Template.Scanner

set_option autoImplicit false

namespace Template

/-- The stages that report problems. -/
inductive Stage where
  | lexer
  | parser
deriving DecidableEq, Repr

def Stage.name : Stage → Text
  | lexer => "Lexer".toList
  | parser => "Parser".toList

/-- Something that is wrong with a template, as it is reported. -/
structure Problem where
  stage : Stage
  name : Text
  message : Text
  span : Span
deriving DecidableEq, Repr

def Text.ofNat (number : Nat) : Text := Nat.toDigits 10 number

def Problem.describe (problem : Problem) : Text :=
  problem.stage.name ++ " error at line ".toList ++ .ofNat problem.span.start.line ++
    ", column ".toList ++ .ofNat problem.span.start.column ++ ": ".toList ++ problem.message

namespace LexicalFault

def message : LexicalFault → Text
  | skipped run =>
    "unexpected character: ->".toList ++ [run.char] ++ "<- at offset: ".toList ++
      .ofNat run.start.offset ++ ", skipped ".toList ++ .ofNat run.count ++ " characters.".toList
  | unfinished mode _ => "unexpected end of input in ".toList ++ mode.name.toList ++ " mode".toList

/-- The first of the skipped characters, or the end of the source. -/
def span : LexicalFault → Span
  | skipped run => ⟨run.start, run.start.next run.char⟩
  | unfinished _ finish => .empty finish

def problem (fault : LexicalFault) : Problem :=
  ⟨.lexer, "LexingError".toList, fault.message, fault.span⟩

end LexicalFault

namespace Concrete

def Expected.describe : Expected → Text
  | .token kind => kind.describe.toList
  | .tagEnd => "'>' or '/>'".toList
  | .content => "tag content".toList

def describeFound : Option Token → Text
  | none => "end of input".toList
  | some token => '\'' :: token.image ++ ['\'']

namespace Cause

variable {τ : Type}

def name : Cause τ → Text
  | mismatch .content _ => "NoViableAlternative".toList
  | mismatch _ _ => "MismatchedToken".toList
  | unexpected _ => "UnexpectedToken".toList
  | missingClose _ _ => "MissingCloseTag".toList
  | strayClose _ _ => "UnexpectedCloseTag".toList
  | missingEnd _ _ => "MissingBlockEnd".toList
  | wrongEnd _ _ => "MismatchedBlockEnd".toList
  | tooDeep => "NestingTooDeep".toList

def message : Cause Token → Text
  | mismatch expected found =>
    "expected ".toList ++ expected.describe ++ " but found ".toList ++ describeFound found
  | unexpected token =>
    "unexpected ".toList ++ token.kind.describe.toList ++ " '".toList ++ token.image ++ ['\'']
  | missingClose name found =>
    "expected </".toList ++ name ++ "> but found ".toList ++ describeFound found
  | strayClose name inside =>
    "unexpected </".toList ++ name ++ "> inside <".toList ++ inside ++ ['>']
  | missingEnd opened found =>
    "expected \x7b/".toList ++ opened ++ "\x7d but found ".toList ++ describeFound found
  | wrongEnd opened closed =>
    "expected \x7b/".toList ++ opened ++ "\x7d but found \x7b/".toList ++ closed ++ ['\x7d']
  | tooDeep =>
    "nesting deeper than ".toList ++ .ofNat maxNesting ++
      " levels; children parsed as siblings".toList

end Cause

/-- The part of the source that a site covers, given where the input ends. -/
def Site.span (finish : Point) : Site Token → Span
  | .across first last => ⟨first.start, last.after⟩
  | .before token => token.span
  | .finish => .empty finish

def Fault.problem (finish : Point) (fault : Fault Token) : Problem :=
  ⟨.parser, fault.cause.name, fault.cause.message, fault.site.span finish⟩

def finishOf (tokens : List Token) : Point := (tokens.getLast?.map Token.after).getD .origin

end Concrete

end Template
