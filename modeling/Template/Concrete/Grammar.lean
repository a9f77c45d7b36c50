import Template.Concrete.Rule

set_option autoImplicit false

namespace Template.Concrete

open Terminal (kind)
open Rule

variable {τ : Type} [Terminal τ]

/-- `{ script }` -/
def braced : Rule τ (Braced τ) := do
  let opening ← expect .braceOpen
  let blank ← accept .blank
  let content ← expect .expression
  let closing ← expect .braceClose
  return ⟨opening, blank, content, closing⟩

theorem braced_shrinks : Shrinks (braced : Rule τ (Braced τ)) :=
  (expect_shrinks _).bind fun _ => (accept_shrinks _).bind fun _ => (expect_shrinks _).bind fun _ =>
    (expect_shrinks _).bind fun _ => .pure _

theorem braced_takes : Takes (braced : Rule τ (Braced τ)) :=
  (expect_takes _).bind fun _ => (accept_shrinks _).bind fun _ => (expect_shrinks _).bind fun _ =>
    (expect_shrinks _).bind fun _ => .pure _

/-- String content of a quote, or a braced script. -/
def quotedPart (quote : Quote) : Rule τ (Part τ) := do
  match ← peek with
  | some .braceOpen => Part.braced <$> braced
  | _ => Part.text <$> expect (.quoted quote)

theorem quotedPart_shrinks (quote : Quote) : Shrinks (quotedPart quote : Rule τ (Part τ)) :=
  peek_shrinks.bind fun _ => by
    split
    · exact braced_shrinks.map _
    · exact (expect_shrinks _).map _

theorem quotedPart_takes (quote : Quote) : Takes (quotedPart quote : Rule τ (Part τ)) :=
  Takes.after peek_shrinks fun _ => by
    split
    · exact braced_takes.map _
    · exact (expect_takes _).map _

def startsQuoted (quote : Quote) (tokens : List τ) : Bool :=
  kind? tokens = some .braceOpen || kind? tokens = some (.quoted quote)

/-- Attribute text, a slash, or a braced script. -/
def barePart : Rule τ (Part τ) := do
  match ← peek with
  | some .attributeText => Part.text <$> expect .attributeText
  | some .slash => Part.text <$> expect .slash
  | _ => Part.braced <$> braced

theorem barePart_shrinks : Shrinks (barePart : Rule τ (Part τ)) :=
  peek_shrinks.bind fun _ => by
    split
    · exact (expect_shrinks _).map _
    · exact (expect_shrinks _).map _
    · exact braced_shrinks.map _

theorem barePart_takes : Takes (barePart : Rule τ (Part τ)) :=
  Takes.after peek_shrinks fun _ => by
    split
    · exact (expect_takes _).map _
    · exact (expect_takes _).map _
    · exact braced_takes.map _

/-- Whether a value without quotes goes on. A slash that closes the tag ends it. -/
def startsBare (tokens : List τ) : Bool :=
  match kind? tokens with
  | some .attributeText | some .braceOpen => true
  | some .slash => kind? tokens.tail ≠ some .angle
  | _ => false

def value : Rule τ (Value τ) := do
  match ← peek with
  | some (.quoteOpen quote) =>
    let opening ← expect (.quoteOpen quote)
    let parts ← many (startsQuoted quote) (quotedPart quote) (quotedPart_takes quote)
    let closing ← expect (.quoteClose quote)
    return .quoted quote opening parts closing
  | _ => Value.bare <$> many startsBare barePart barePart_takes

theorem value_shrinks : Shrinks (value : Rule τ (Value τ)) :=
  peek_shrinks.bind fun _ => by
    split
    · exact (expect_shrinks _).bind fun _ =>
        (many_shrinks _ _ (quotedPart_shrinks _)).bind fun _ =>
          (expect_shrinks _).bind fun _ => .pure _
    · exact (many_shrinks _ _ barePart_shrinks).map _

/-- `|name` -/
def modifier : Rule τ (Modifier τ) := do
  let pipe ← expect .pipe
  let name ← expect .attributeText
  return ⟨pipe, name⟩

theorem modifier_shrinks : Shrinks (modifier : Rule τ (Modifier τ)) :=
  (expect_shrinks _).bind fun _ => (expect_shrinks _).bind fun _ => .pure _

theorem modifier_takes : Takes (modifier : Rule τ (Modifier τ)) :=
  (expect_takes _).bind fun _ => (expect_shrinks _).bind fun _ => .pure _

/-- Whether a modifier follows. -/
def startsModifier (tokens : List τ) : Bool := kind? tokens = some .pipe

def assigned? : Rule τ (Option (Assigned τ)) := do
  match ← accept .equal with
  | some equal => (fun value => some ⟨equal, value⟩) <$> value
  | none => return none

theorem assigned?_shrinks : Shrinks (assigned? : Rule τ (Option (Assigned τ))) :=
  (accept_shrinks _).bind fun _ => by
    split
    · exact value_shrinks.map _
    · exact .pure _

/-- `name|modifier=value` -/
def named : Rule τ (Attribute τ) := do
  let name ← expect .attributeText
  let modifiers ← many startsModifier modifier modifier_takes
  let value ← assigned?
  return .named name modifiers value

theorem named_shrinks : Shrinks (named : Rule τ (Attribute τ)) :=
  (expect_shrinks _).bind fun _ => (many_shrinks _ _ modifier_shrinks).bind fun _ =>
    assigned?_shrinks.bind fun _ => .pure _

theorem named_takes : Takes (named : Rule τ (Attribute τ)) :=
  (expect_takes _).bind fun _ => (many_shrinks _ _ modifier_shrinks).bind fun _ =>
    assigned?_shrinks.bind fun _ => .pure _

/-- An attribute with a name, or a braced script in its place. -/
def entry : Rule τ (Attribute τ) := do
  match ← peek with
  | some .attributeText => named
  | _ => Attribute.braced <$> braced

theorem entry_shrinks : Shrinks (entry : Rule τ (Attribute τ)) :=
  peek_shrinks.bind fun _ => by
    split
    · exact named_shrinks
    · exact braced_shrinks.map _

theorem entry_takes : Takes (entry : Rule τ (Attribute τ)) :=
  Takes.after peek_shrinks fun _ => by
    split
    · exact named_takes
    · exact braced_takes.map _

def item : Rule τ (Item τ) := do
  let blank ← accept .blank
  let entry ← entry
  return ⟨blank, entry⟩

theorem item_shrinks : Shrinks (item : Rule τ (Item τ)) :=
  (accept_shrinks _).bind fun _ => entry_shrinks.bind fun _ => .pure _

theorem item_takes : Takes (item : Rule τ (Item τ)) :=
  Takes.after (accept_shrinks _) fun _ => entry_takes.bind fun _ => .pure _

def startsAttribute (tokens : List τ) : Bool :=
  kind? tokens = some .attributeText || kind? tokens = some .braceOpen

/-- Whether an attribute follows, with or without a blank before it. A blank after which no
attribute comes is left for the tag. -/
def startsItem (tokens : List τ) : Bool :=
  startsAttribute tokens || (kind? tokens = some .blank && startsAttribute tokens.tail)

/-- An opening tag up to where it is closed. -/
def head (opener : Kind) : Rule τ (Head τ) := do
  let opening ← expect opener
  let items ← many startsItem item item_takes
  let blank ← accept .blank
  return ⟨opening, items, blank⟩

/-- What a child begins with: all of it, or as much as comes before its content. -/
inductive Piece (τ : Type) where
  | whole (child : Child τ)
  | element (head : Head τ) (angle : τ)
  | branch (marker : Marker τ)

def tagEnd (head : Head τ) : Rule τ (Piece τ) := do
  match ← peek with
  | some .slash =>
    let slash ← expect .slash
    let angle ← expect .angle
    return .whole (.selfClosed head slash angle)
  | some .angle => Piece.element head <$> expect .angle
  | _ => fail .tagEnd

/-- `<name attributes>` or `<name attributes/>` -/
def tag : Rule τ (Piece τ) := do
  let head ← head .openTag
  tagEnd head

def rawBody (element : RawElement) : Rule τ (RawBody τ) := do
  match ← peek with
  | some .rawSelfClose => RawBody.selfClosed <$> expect .rawSelfClose
  | some (.rawAngle other) =>
    if other = element then
      let angle ← expect (.rawAngle element)
      let rest ← expect (.rawRest element)
      return .content angle rest
    else fail .tagEnd
  | _ => fail .tagEnd

def rawTag (element : RawElement) : Rule τ (Child τ) := do
  let head ← head (.rawOpen element)
  let body ← rawBody element
  return .raw element head body

/-- `{sigil name script}` -/
def marker (sigil : Sigil) : Rule τ (Marker τ) := do
  let opening ← expect .braceOpen
  let name ← expect (.block sigil)
  let blank ← accept .blank
  let script ← accept .expression
  let closing ← expect .braceClose
  return ⟨opening, name, blank, script, closing⟩

/-- `{/name }` -/
def blockEnd : Rule τ (BlockEnd τ) := do
  let opening ← expect .braceOpen
  let name ← expect (.block .closing)
  let blank ← accept .blank
  let closing ← expect .braceClose
  return ⟨opening, name, blank, closing⟩

/-- `</name >` -/
def closeTag : Rule τ (CloseTag τ) := do
  let opening ← expect .closeTag
  let blank ← accept .blank
  let angle ← expect .angle
  return ⟨opening, blank, angle⟩

/-- The rule for a child whose first two tokens are of these kinds. -/
def pieceFor (first second : Option Kind) : Rule τ (Piece τ) :=
  match first, second with
  | some .openTag, _ => tag
  | some (.rawOpen element), _ => Piece.whole <$> rawTag element
  | some .comment, _ => (Piece.whole ∘ Child.comment) <$> expect .comment
  | some .text, _ => (Piece.whole ∘ Child.text) <$> expect .text
  | some .braceOpen, some (.block .single) => (Piece.whole ∘ Child.single) <$> marker .single
  | some .braceOpen, some (.block .opening) => Piece.branch <$> marker .opening
  | some .braceOpen, _ => (Piece.whole ∘ Child.braced) <$> braced
  | _, _ => fail .content

def piece : Rule τ (Piece τ) := fun tokens =>
  pieceFor (kind? tokens) (kind? tokens.tail) tokens

theorem tagEnd_shrinks (head : Head τ) : Shrinks (tagEnd head) :=
  peek_shrinks.bind fun _ => by
    split
    · exact (expect_shrinks _).bind fun _ => (expect_shrinks _).bind fun _ => .pure _
    · exact (expect_shrinks _).map _
    · exact fail_shrinks _

theorem rawBody_shrinks (element : RawElement) : Shrinks (rawBody element : Rule τ (RawBody τ)) :=
  peek_shrinks.bind fun _ => by
    split
    · exact (expect_shrinks _).map _
    · split
      · exact (expect_shrinks _).bind fun _ => (expect_shrinks _).bind fun _ => .pure _
      · exact fail_shrinks _
    · exact fail_shrinks _

theorem marker_takes (sigil : Sigil) : Takes (marker sigil : Rule τ (Marker τ)) :=
  (expect_takes _).bind fun _ => (expect_shrinks _).bind fun _ => (accept_shrinks _).bind fun _ =>
    (accept_shrinks _).bind fun _ => (expect_shrinks _).bind fun _ => .pure _

theorem marker_shrinks (sigil : Sigil) : Shrinks (marker sigil : Rule τ (Marker τ)) :=
  (expect_shrinks _).bind fun _ => (expect_shrinks _).bind fun _ => (accept_shrinks _).bind fun _ =>
    (accept_shrinks _).bind fun _ => (expect_shrinks _).bind fun _ => .pure _

theorem blockEnd_shrinks : Shrinks (blockEnd : Rule τ (BlockEnd τ)) :=
  (expect_shrinks _).bind fun _ => (expect_shrinks _).bind fun _ => (accept_shrinks _).bind fun _ =>
    (expect_shrinks _).bind fun _ => .pure _

theorem closeTag_shrinks : Shrinks (closeTag : Rule τ (CloseTag τ)) :=
  (expect_shrinks _).bind fun _ => (accept_shrinks _).bind fun _ => (expect_shrinks _).bind fun _ =>
    .pure _

theorem head_shrinks (opener : Kind) : Shrinks (head opener : Rule τ (Head τ)) :=
  (expect_shrinks _).bind fun _ => (many_shrinks _ _ item_shrinks).bind fun _ =>
    (accept_shrinks _).bind fun _ => .pure _

theorem rawTag_shrinks (element : RawElement) : Shrinks (rawTag element : Rule τ (Child τ)) :=
  (head_shrinks _).bind fun _ => (rawBody_shrinks element).bind fun _ => .pure _

/-- Whatever a child begins with, an end of the tokens is left. -/
theorem piece_shrinks : Shrinks (piece : Rule τ (Piece τ)) := by
  suffices shrinks : ∀ first second, Shrinks (pieceFor first second : Rule τ (Piece τ)) from
    fun tokens => shrinks (kind? tokens) (kind? tokens.tail) tokens
  intro first second
  unfold pieceFor
  split
  · exact (head_shrinks _).bind tagEnd_shrinks
  · exact (rawTag_shrinks _).map _
  · exact (expect_shrinks _).map _
  · exact (expect_shrinks _).map _
  · exact (marker_shrinks _).map _
  · exact (marker_shrinks _).map _
  · exact braced_shrinks.map _
  · exact fail_shrinks _

theorem head_commits {opener : Kind} {token : τ} (same : kind token = opener) :
    Commits (head opener) token :=
  (Commits.expect same).bind fun _ => (many_shrinks _ _ item_shrinks).bind fun _ =>
    (accept_shrinks _).bind fun _ => .pure _

theorem tag_commits {token : τ} (same : kind token = .openTag) : Commits tag token :=
  (head_commits same).bind tagEnd_shrinks

theorem rawTag_commits {element : RawElement} {token : τ} (same : kind token = .rawOpen element) :
    Commits (rawTag element) token :=
  (head_commits same).bind fun _ => (rawBody_shrinks element).bind fun _ => .pure _

theorem marker_commits (sigil : Sigil) {token : τ} (same : kind token = .braceOpen) :
    Commits (marker sigil) token :=
  (Commits.expect same).bind fun _ => (expect_shrinks _).bind fun _ => (accept_shrinks _).bind
    fun _ => (accept_shrinks _).bind fun _ => (expect_shrinks _).bind fun _ => .pure _

theorem closeTag_commits {token : τ} (same : kind token = .closeTag) : Commits closeTag token :=
  (Commits.expect same).bind fun _ => (accept_shrinks _).bind fun _ => (expect_shrinks _).bind
    fun _ => .pure _

theorem braced_commits {token : τ} (same : kind token = .braceOpen) : Commits braced token :=
  (Commits.expect same).bind fun _ => (accept_shrinks _).bind fun _ => (expect_shrinks _).bind
    fun _ => (expect_shrinks _).bind fun _ => .pure _

def beginsChild : Kind → Bool
  | .text | .comment | .openTag | .rawOpen _ | .braceOpen => true
  | _ => false

/-- A child that can begin is begun: even where it then fails, a token is taken. -/
theorem piece_commits {token : τ} (begins : beginsChild (kind token) = true) :
    Commits piece token := by
  suffices committed : ∀ first second, kind token = first → beginsChild first = true →
      Commits (pieceFor (some first) second) token from
    fun rest => committed (kind token) (kind? rest) rfl begins rest
  intro first second same begins
  unfold pieceFor
  split <;> simp only [Option.some.injEq] at *
  · next opener => exact tag_commits (same.trans opener)
  · next opener => exact (rawTag_commits (same.trans opener)).map _
  · next opener => exact (Commits.expect (same.trans opener)).map _
  · next opener => exact (Commits.expect (same.trans opener)).map _
  · next opener => exact (marker_commits _ (same.trans opener)).map _
  · next opener => exact (marker_commits _ (same.trans opener)).map _
  · next _ _ opener => exact (braced_commits (same.trans opener)).map _
  · cases first <;> simp_all [beginsChild]

end Template.Concrete
