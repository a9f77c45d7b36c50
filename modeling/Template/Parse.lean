import Template.Concrete.Build
import Template.Document.OfConcrete
import Template.Json
import Template.Problem

set_option autoImplicit false

namespace Template

/-- How a source is to be read. -/
structure Options where
  /-- Whether blanks at the end of the source are left out. -/
  trimEnd : Bool := true
deriving DecidableEq, Repr

namespace Options

instance : Inhabited Options := ⟨{}⟩

/-- Reads options from a JSON object. A missing field takes its default, and unknown fields do not
matter. -/
def ofJson? : Json → Option Options
  | .object fields =>
    match (Json.object fields).field? "trimTrailingWhitespace" with
    | none => some {}
    | some (.bool trimEnd) => some { trimEnd }
    | some _ => none
  | _ => none

def read (options : Options) (source : Text) : Text :=
  if options.trimEnd then source.trimEnd else source

end Options

structure Parsed where
  document : Document
  problems : List Problem
deriving Repr

def Parsed.isOk (parsed : Parsed) : Bool := parsed.problems.isEmpty

def parseTokens (tokens : List Token) : Parsed :=
  let built := Concrete.build tokens
  ⟨.ofConcrete built.children, built.faults.map (·.problem (Concrete.finishOf tokens))⟩

/-- The document of a source. The problems of its characters come before those of its grammar. -/
def parse (options : Options) (source : Text) : Parsed :=
  let scanned := scan (options.read source)
  let parsed := parseTokens scanned.tokens
  { parsed with problems := scanned.faults.map (·.problem) ++ parsed.problems }

end Template
