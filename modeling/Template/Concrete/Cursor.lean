import Template.Concrete.Grammar

set_option autoImplicit false

namespace Template.Concrete

open Terminal (kind)

variable {τ α β : Type}

namespace Cursor

/-- How a rule failed: what it waited for, the token it found instead, and where. -/
structure Failure (τ : Type) where
  expected : Expected
  found : Option τ
  place : Nat
deriving DecidableEq, Repr

abbrev Outcome (τ α : Type) := Except (Failure τ) α

/-- A rule over a cursor: from a position among some tokens to an outcome and a further position.
There is no answer where a loop does not come to an end, or where there is no rule. -/
def Reading (τ α : Type) : Type := List τ → Nat → Option (Outcome τ α × Nat)

instance : Monad (Reading τ) where
  pure item := fun _ place => some (.ok item, place)
  bind reading next := fun tokens place =>
    match reading tokens place with
    | none => none
    | some (.error failure, place) => some (.error failure, place)
    | some (.ok item, place) => next item tokens place

def fail (expected : Expected) : Reading τ α := fun tokens place =>
  some (.error ⟨expected, tokens[place]?, place⟩, place)

/-- Repeats a rule for as long as the next tokens can start it, so many times at most. -/
def repeated (starts : List τ → Nat → Bool) (reading : Reading τ α) : Nat → Reading τ (List α)
  | 0 => fun _ _ => none
  | rounds + 1 => fun tokens place =>
    if starts tokens place then
      (do
        let item ← reading
        let items ← repeated starts reading rounds
        return item :: items : Reading τ (List α)) tokens place
    else some (.ok [], place)

def many (starts : List τ → Nat → Bool) (reading : Reading τ α) : Reading τ (List α) :=
  fun tokens place => repeated starts reading (tokens.length + 1) tokens place

variable [Terminal τ]

def kindAt? (tokens : List τ) (place : Nat) : Option Kind := tokens[place]?.map kind

def peek : Reading τ (Option Kind) := fun tokens place => some (.ok (kindAt? tokens place), place)

def expect (wanted : Kind) : Reading τ τ := fun tokens place =>
  match tokens[place]? with
  | none => some (.error ⟨.token wanted, none, place⟩, place)
  | some token =>
    if kind token = wanted then some (.ok token, place + 1)
    else some (.error ⟨.token wanted, some token, place⟩, place)

def accept (wanted : Kind) : Reading τ (Option τ) := fun tokens place =>
  match tokens[place]? with
  | none => some (.ok none, place)
  | some token =>
    if kind token = wanted then some (.ok (some token), place + 1) else some (.ok none, place)

def braced : Reading τ (Braced τ) := do
  let opening ← expect .braceOpen
  let blank ← accept .blank
  let content ← expect .expression
  let closing ← expect .braceClose
  return ⟨opening, blank, content, closing⟩

def quotedPart (quote : Quote) : Reading τ (Part τ) := do
  match ← peek with
  | some .braceOpen => Part.braced <$> braced
  | _ => Part.text <$> expect (.quoted quote)

def startsQuoted (quote : Quote) (tokens : List τ) (place : Nat) : Bool :=
  kindAt? tokens place = some .braceOpen || kindAt? tokens place = some (.quoted quote)

def barePart : Reading τ (Part τ) := do
  match ← peek with
  | some .attributeText => Part.text <$> expect .attributeText
  | some .slash => Part.text <$> expect .slash
  | _ => Part.braced <$> braced

def startsBare (tokens : List τ) (place : Nat) : Bool :=
  match kindAt? tokens place with
  | some .attributeText | some .braceOpen => true
  | some .slash => kindAt? tokens (place + 1) ≠ some .angle
  | _ => false

def value : Reading τ (Value τ) := do
  match ← peek with
  | some (.quoteOpen quote) =>
    let opening ← expect (.quoteOpen quote)
    let parts ← many (startsQuoted quote) (quotedPart quote)
    let closing ← expect (.quoteClose quote)
    return .quoted quote opening parts closing
  | _ => Value.bare <$> many startsBare barePart

def modifier : Reading τ (Modifier τ) := do
  let pipe ← expect .pipe
  let name ← expect .attributeText
  return ⟨pipe, name⟩

def startsModifier (tokens : List τ) (place : Nat) : Bool := kindAt? tokens place = some .pipe

def assigned? : Reading τ (Option (Assigned τ)) := do
  match ← accept .equal with
  | some equal => (fun value => some ⟨equal, value⟩) <$> value
  | none => return none

def named : Reading τ (Attribute τ) := do
  let name ← expect .attributeText
  let modifiers ← many startsModifier modifier
  let value ← assigned?
  return .named name modifiers value

def entry : Reading τ (Attribute τ) := do
  match ← peek with
  | some .attributeText => named
  | _ => Attribute.braced <$> braced

def item : Reading τ (Item τ) := do
  let blank ← accept .blank
  let entry ← entry
  return ⟨blank, entry⟩

def startsAttribute (tokens : List τ) (place : Nat) : Bool :=
  kindAt? tokens place = some .attributeText || kindAt? tokens place = some .braceOpen

def startsItem (tokens : List τ) (place : Nat) : Bool :=
  startsAttribute tokens place ||
    (kindAt? tokens place = some .blank && startsAttribute tokens (place + 1))

def head (opener : Kind) : Reading τ (Head τ) := do
  let opening ← expect opener
  let items ← many startsItem item
  let blank ← accept .blank
  return ⟨opening, items, blank⟩

def tagEnd (head : Head τ) : Reading τ (Piece τ) := do
  match ← peek with
  | some .slash =>
    let slash ← expect .slash
    let angle ← expect .angle
    return .whole (.selfClosed head slash angle)
  | some .angle => Piece.element head <$> expect .angle
  | _ => fail .tagEnd

def tag : Reading τ (Piece τ) := do
  let head ← head .openTag
  tagEnd head

def rawBody (element : RawElement) : Reading τ (RawBody τ) := do
  match ← peek with
  | some .rawSelfClose => RawBody.selfClosed <$> expect .rawSelfClose
  | some (.rawAngle other) =>
    if other = element then
      let angle ← expect (.rawAngle element)
      let rest ← expect (.rawRest element)
      return .content angle rest
    else fail .tagEnd
  | _ => fail .tagEnd

def rawTag (element : RawElement) : Reading τ (Child τ) := do
  let head ← head (.rawOpen element)
  let body ← rawBody element
  return .raw element head body

def marker (sigil : Sigil) : Reading τ (Marker τ) := do
  let opening ← expect .braceOpen
  let name ← expect (.block sigil)
  let blank ← accept .blank
  let script ← accept .expression
  let closing ← expect .braceClose
  return ⟨opening, name, blank, script, closing⟩

def blockEnd : Reading τ (BlockEnd τ) := do
  let opening ← expect .braceOpen
  let name ← expect (.block .closing)
  let blank ← accept .blank
  let closing ← expect .braceClose
  return ⟨opening, name, blank, closing⟩

def closeTag : Reading τ (CloseTag τ) := do
  let opening ← expect .closeTag
  let blank ← accept .blank
  let angle ← expect .angle
  return ⟨opening, blank, angle⟩

/-- The rule for a child whose first two tokens are of these kinds. There is none for others. -/
def pieceFor (first second : Option Kind) : Reading τ (Piece τ) :=
  match first, second with
  | some .openTag, _ => tag
  | some (.rawOpen element), _ => Piece.whole <$> rawTag element
  | some .comment, _ => (Piece.whole ∘ Child.comment) <$> expect .comment
  | some .text, _ => (Piece.whole ∘ Child.text) <$> expect .text
  | some .braceOpen, some (.block .single) => (Piece.whole ∘ Child.single) <$> marker .single
  | some .braceOpen, some (.block .opening) => Piece.branch <$> marker .opening
  | some .braceOpen, _ => (Piece.whole ∘ Child.braced) <$> braced
  | _, _ => fun _ _ => none

def piece : Reading τ (Piece τ) := fun tokens place =>
  pieceFor (kindAt? tokens place) (kindAt? tokens (place + 1)) tokens place

end Cursor

end Template.Concrete
