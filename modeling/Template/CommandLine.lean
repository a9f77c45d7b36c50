import Template.Document.Json
import Template.Folder
import Template.Json.Printer

set_option autoImplicit false

namespace Template.CommandLine

inductive Request where
  | version
  /-- Print the document and the problems of a template. -/
  | parse (path : Text) (compact keepTrailing : Bool)
  /-- List the problems of a template. -/
  | check (path : Text)
deriving DecidableEq, Repr

/-- What a run of the program leaves behind. -/
structure Answer where
  code : Nat
  output : Text
  errors : Text
deriving DecidableEq, Repr

/-- Whether an argument asks for more messages. They are not part of an answer. -/
def isVerbose (argument : Text) : Bool :=
  argument == "--verbose".toList ||
    match argument with
    | '-' :: 'v' :: more => more.all (· == 'v')
    | _ => false

def isVersion (argument : Text) : Bool :=
  argument == "--version".toList ||
    match argument with
    | '-' :: letters => (letters.dropWhile (· == 'v')).head? == some 'V'
    | _ => false

/-- The path and the flags among the arguments of a command. -/
structure Operands where
  path : Option Text
  flags : List Text

/-- Takes an argument as the path, of which there can be one. -/
def Operands.withPath? (operands : Operands) (path : Text) : Option Operands :=
  match operands.path with
  | none => some { operands with path := some path }
  | some _ => none

/-- Takes an argument as a flag. Only some flags are known, and each can be given once. -/
def Operands.withFlag? (known : List Text) (operands : Operands) (flag : Text) : Option Operands :=
  if known.contains flag && !operands.flags.contains flag then
    some { operands with flags := flag :: operands.flags }
  else none

/-- Reads the arguments of a command. After a double dash there are no flags. -/
def operands? (known : List Text) : Operands → List Text → Option Operands
  | operands, [] => some operands
  | operands, argument :: rest =>
    if argument == "--".toList then rest.foldlM Operands.withPath? operands
    else if argument.head? != some '-' || argument == ['-'] then
      (operands.withPath? argument).bind fun operands => operands? known operands rest
    else if isVerbose argument then operands? known operands rest
    else (operands.withFlag? known argument).bind fun operands => operands? known operands rest

def compactFlag : Text := "--compact".toList

def keepFlag : Text := "--keep-trailing-whitespace".toList

def command? (name : Text) (arguments : List Text) : Option Request :=
  if name == "parse".toList then do
    let operands ← operands? [compactFlag, keepFlag] ⟨none, []⟩ arguments
    let path ← operands.path
    return .parse path (operands.flags.contains compactFlag) (operands.flags.contains keepFlag)
  else if name == "check".toList then do
    let operands ← operands? [] ⟨none, []⟩ arguments
    let path ← operands.path
    return .check path
  else none

/-- What the arguments ask for, or nothing if they make no sense. -/
def request? : List Text → Option Request
  | [] => none
  | argument :: rest =>
    if isVerbose argument then request? rest
    else if isVersion argument then some .version
    else command? argument rest

def unreadable (path : Text) (fault : ReadFault) : Answer :=
  ⟨1, [], "Error reading ".toList ++ path ++ ": ".toList ++ fault.describe ++ ['\n']⟩

/-- The code of an answer about a template. -/
def codeOf (parsed : Parsed) : Nat := if parsed.isOk then 0 else 1

def diagnostic (path : Text) (problem : Problem) : Text :=
  path ++ ':' :: Text.ofNat problem.span.start.line ++
    ':' :: Text.ofNat problem.span.start.column ++ ": ".toList ++ problem.stage.name ++
    ' ' :: problem.name ++ ": ".toList ++ problem.message

/-- The problems of a template, each on one line. -/
def diagnostics (path : Text) (parsed : Parsed) : List Text :=
  parsed.problems.map (diagnostic path)

def answerParse (compact keepTrailing : Bool) (source : Text) : Answer :=
  let parsed := parse { trimEnd := !keepTrailing } source
  let json := parsed.toJson
  ⟨codeOf parsed, (if compact then json.compact else json.pretty 0) ++ ['\n'], []⟩

def answerCheck (path source : Text) : Answer :=
  let parsed := parse {} source
  if parsed.isOk then ⟨0, [], "OK: ".toList ++ path ++ ['\n']⟩
  else ⟨1, [], (diagnostics path parsed).flatMap (· ++ ['\n'])⟩

def versionLine : Text := "htmlx 0.3.0\n".toList

def Request.answer (textOf : Text → Except ReadFault Text) : Request → Answer
  | version => ⟨0, versionLine, []⟩
  | parse path compact keepTrailing =>
    match textOf path with
    | .error fault => unreadable path fault
    | .ok source => answerParse compact keepTrailing source
  | check path =>
    match textOf path with
    | .error fault => unreadable path fault
    | .ok source => answerCheck path source

/-- The path of the file that a request needs, if it needs one. -/
def Request.path? : Request → Option Text
  | version => none
  | parse path _ _ => some path
  | check path => some path

def misused : Answer := ⟨2, [], []⟩

end Template.CommandLine
