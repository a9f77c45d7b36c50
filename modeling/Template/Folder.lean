import Template.Text

set_option autoImplicit false

namespace Template

inductive ReadFault where
  | missing
  /-- The path goes on after a file. -/
  | notFolder
  /-- The path ends at a folder. -/
  | isFolder
  | tooLong
  | notText
  | other (reason : Text)
deriving DecidableEq, Repr

def ReadFault.describe : ReadFault → Text
  | missing => "No such file or directory (os error 2)".toList
  | notFolder => "Not a directory (os error 20)".toList
  | isFolder => "Is a directory (os error 21)".toList
  | tooLong => "File name too long (os error 36)".toList
  | notText => "stream did not contain valid UTF-8".toList
  | other reason => reason

def Text.ofBytes? (bytes : ByteArray) : Except ReadFault Text :=
  match String.fromUTF8? bytes with
  | none => .error .notText
  | some text => .ok text.toList

/-- A folder: the names of its files with their bytes. -/
structure Folder where
  files : List (Text × ByteArray)

namespace Folder

inductive Place where
  /-- To the folder in which one stands. -/
  | inside
  /-- To a folder around it. -/
  | outside
  | file (bytes : ByteArray)

def maxName : Nat := 255

def maxPath : Nat := 4095

def names : Text → List Text
  | [] => [[]]
  | char :: rest =>
    if char = '/' then [] :: names rest
    else
      match names rest with
      | [] => [[char]]
      | name :: more => (char :: name) :: more

/-- The file of a name in the folder where one stands, or in a folder around it. -/
def find (folder : Folder) (place : Place) (name : Text) : Except ReadFault Place :=
  if maxName < name.size then .error .tooLong
  else
    match place, folder.files.lookup name with
    | .inside, some bytes => .ok (.file bytes)
    | _, _ => .error .missing

/-- Goes on by one name. An empty name and a single dot stay, and two dots lead out. Nothing leads
on from a file. -/
def follow (folder : Folder) : Place → Text → Except ReadFault Place
  | .file _, _ => .error .notFolder
  | place, [] | place, ['.'] => .ok place
  | _, ['.', '.'] => .ok .outside
  | place, name => folder.find place name

/-- Where a path begins: one that begins with a slash begins outside. -/
def start (path : Text) : Place := if path.head? = some '/' then .outside else .inside

def textOf (folder : Folder) (path : Text) : Except ReadFault Text := do
  if path.isEmpty then throw .missing
  if maxPath < path.size then throw .tooLong
  match ← (names path).foldlM folder.follow (start path) with
  | .file bytes => Text.ofBytes? bytes
  | _ => throw .isFolder

end Folder

end Template
