import Template.CommandLine

set_option autoImplicit false

namespace Template.CommandLine

/-- The number that the system gives to a reason. It may come negated. -/
def reasonNumber (code : UInt32) : Nat := min code.toNat (0 - code).toNat

/-- Why a file could not be read. -/
def faultOf : IO.Error → ReadFault
  | .noFileOrDirectory .. => .missing
  | .inappropriateType _ code _ => if reasonNumber code = 20 then .notFolder else .isFolder
  | fault@(.invalidArgument _ code _) =>
    if reasonNumber code = 36 then .tooLong else .other (toString fault).toList
  | fault => .other (toString fault).toList

def readText (path : Text) : IO (Except ReadFault Text) := do
  try
    return Text.ofBytes? (← IO.FS.readBinFile (String.ofList path))
  catch fault =>
    return .error (faultOf fault)

def usage : Text :=
  ("usage: htmlx [-v] parse PATH [--compact] [--keep-trailing-whitespace]\n" ++
    "       htmlx [-v] check PATH\n" ++
    "       htmlx --version\n").toList

def answerTo (arguments : List String) : IO Answer := do
  match request? (arguments.map String.toList) with
  | none => return { misused with errors := usage }
  | some request =>
    match request.path? with
    | none => return request.answer fun _ => .error .missing
    | some path =>
      let text ← readText path
      return request.answer fun _ => text

end Template.CommandLine

open Template.CommandLine in
def main (arguments : List String) : IO UInt32 := do
  let answer ← answerTo arguments
  (← IO.getStdout).putStr (String.ofList answer.output)
  (← IO.getStderr).putStr (String.ofList answer.errors)
  return answer.code.toUInt32
