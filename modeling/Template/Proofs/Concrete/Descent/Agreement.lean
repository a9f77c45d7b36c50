import Template.Concrete.Cursor
import Template.Proofs.Concrete.Reading.Rules

set_option autoImplicit false

namespace Template.Concrete

open Terminal (kind)
open Rule (Shrinks Takes)

variable {τ α β : Type}

namespace Cursor

/-- The position before the last tokens of all. -/
def placeOf (tokens rest : List τ) : Nat := tokens.length - rest.length

theorem placeOf_le (tokens rest : List τ) : placeOf tokens rest ≤ tokens.length := Nat.sub_le _ _

theorem placeOf_drop {tokens : List τ} {place : Nat} (inside : place ≤ tokens.length) :
    placeOf tokens (tokens.drop place) = place := by
  rw [placeOf, List.length_drop]
  omega

theorem drop_placeOf {tokens rest : List τ} (suffix : rest <:+ tokens) :
    tokens.drop (placeOf tokens rest) = rest :=
  (List.suffix_iff_eq_drop.mp suffix).symm

theorem le_placeOf {tokens rest : List τ} {place : Nat} (suffix : rest <:+ tokens.drop place)
    (inside : place ≤ tokens.length) : place ≤ placeOf tokens rest := by
  have shorter := suffix.length_le
  rw [List.length_drop] at shorter
  unfold placeOf
  omega

/-- What is left is shorter where the position is further. -/
theorem lt_placeOf {tokens rest : List τ} {place : Nat}
    (shorter : rest.length < (tokens.drop place).length) : place < placeOf tokens rest := by
  rw [List.length_drop] at shorter
  unfold placeOf
  omega

theorem getElem?_eq_head? (tokens : List τ) (place : Nat) :
    tokens[place]? = (tokens.drop place).head? := List.head?_drop.symm

/-- A mismatch with a position for the tokens that were left. -/
def failureOf (tokens : List τ) (mismatch : Mismatch τ) : Failure τ :=
  ⟨mismatch.expected, mismatch.rest.head?, placeOf tokens mismatch.rest⟩

def outcome (tokens : List τ) : Except (Mismatch τ) (α × List τ) → Outcome τ α × Nat
  | .ok (item, rest) => (.ok item, placeOf tokens rest)
  | .error mismatch => (.error (failureOf tokens mismatch), placeOf tokens mismatch.rest)

/-- Where a rule fails it waited for something certain, not for just any child. -/
def Definite (rule : Rule τ α) : Prop :=
  ∀ tokens mismatch, rule tokens = .error mismatch → mismatch.expected ≠ .content

theorem Definite.bind {rule : Rule τ α} {next : α → Rule τ β} (front : Definite rule)
    (back : ∀ item, Definite (next item)) : Definite (rule >>= next) := by
  intro tokens mismatch failed
  rcases Rule.bind_eq_error.mp failed with first | ⟨item, middle, read, later⟩
  · exact front tokens mismatch first
  · exact back item middle mismatch later

theorem Definite.many (begins : List τ → Bool) {rule : Rule τ α} (takes : Takes rule)
    (item : Definite rule) : Definite (Rule.many begins rule takes) := by
  intro tokens mismatch failed
  cases go : begins tokens with
  | false =>
    rw [Rule.many_of_stop takes go] at failed
    cases failed
  | true =>
    cases read : rule tokens with
    | error first =>
      rw [Rule.many_of_error takes go read] at failed
      cases failed
      exact item tokens mismatch read
    | ok found =>
      obtain ⟨first, rest⟩ := found
      have shorter := takes tokens first rest read
      rw [Rule.many_of_ok takes go read] at failed
      cases more : Rule.many begins rule takes rest with
      | error other =>
        rw [more] at failed
        cases failed
        exact Definite.many begins takes item rest mismatch more
      | ok found =>
        rw [more] at failed
        cases failed
termination_by tokens => tokens.length

/-- A rule over a cursor does what a rule of the grammar does with the tokens from the cursor on. -/
structure Agrees (reading : Reading τ α) (rule : Rule τ α) : Prop where
  shrinks : Shrinks rule
  definite : Definite rule
  same : ∀ tokens place, place ≤ tokens.length →
    reading tokens place = some (outcome tokens (rule (tokens.drop place)))

theorem bind_of_ok {reading : Reading τ α} {next : α → Reading τ β} {tokens : List τ} {item : α}
    {place further : Nat} (read : reading tokens place = some (.ok item, further)) :
    (reading >>= next) tokens place = next item tokens further := by
  simp only [Bind.bind, read]

theorem bind_of_error {reading : Reading τ α} {next : α → Reading τ β} {tokens : List τ}
    {failure : Failure τ} {place further : Nat}
    (failed : reading tokens place = some (.error failure, further)) :
    (reading >>= next) tokens place = some (.error failure, further) := by
  simp only [Bind.bind, failed]

namespace Agrees

variable {reading : Reading τ α} {rule : Rule τ α}

theorem pure (item : α) : Agrees (Pure.pure item : Reading τ α) (Pure.pure item) where
  shrinks := Shrinks.pure item
  definite := fun _ _ failed => absurd failed Rule.pure_ne_error
  same := by
    intro tokens place inside
    change some (Except.ok item, place) = some (Except.ok item, placeOf tokens (tokens.drop place))
    rw [placeOf_drop inside]

theorem bind {next : α → Reading τ β} {further : α → Rule τ β} (front : Agrees reading rule)
    (back : ∀ item, Agrees (next item) (further item)) :
    Agrees (reading >>= next) (rule >>= further) where
  shrinks := front.shrinks.bind fun item => (back item).shrinks
  definite := front.definite.bind fun item => (back item).definite
  same := by
    intro tokens place inside
    have ahead := front.same tokens place inside
    have suffix := front.shrinks (tokens.drop place)
    cases read : rule (tokens.drop place) with
    | error mismatch =>
      rw [read] at ahead
      rw [bind_of_error ahead, Rule.bind_of_error read]
      rfl
    | ok found =>
      obtain ⟨item, rest⟩ := found
      rw [read] at ahead suffix
      have whole : rest <:+ tokens := suffix.trans (List.drop_suffix place tokens)
      have later := (back item).same tokens (placeOf tokens rest) (placeOf_le tokens rest)
      rw [drop_placeOf whole] at later
      rw [bind_of_ok ahead, Rule.bind_of_ok read, later]

theorem map (f : α → β) (front : Agrees reading rule) : Agrees (f <$> reading) (f <$> rule) := by
  rw [map_eq_pure_bind f rule]
  exact front.bind fun item => pure (f item)

theorem fail {expected : Expected} (certain : expected ≠ .content) :
    Agrees (Cursor.fail expected : Reading τ α) (Rule.fail expected) where
  shrinks := Rule.fail_shrinks expected
  definite := by
    intro tokens mismatch failed
    cases failed
    exact certain
  same := by
    intro tokens place inside
    simp only [Cursor.fail, Rule.fail, outcome, failureOf, placeOf_drop inside, getElem?_eq_head?]

/-- A loop over a cursor goes round no more often than there are tokens. -/
theorem repeated {starts : List τ → Nat → Bool} {begins : List τ → Bool} {takes : Takes rule}
    (item : Agrees reading rule)
    (same : ∀ tokens place, starts tokens place = begins (tokens.drop place)) :
    ∀ rounds tokens place, place ≤ tokens.length → tokens.length - place < rounds →
      Cursor.repeated starts reading rounds tokens place =
        some (outcome tokens (Rule.many begins rule takes (tokens.drop place))) := by
  intro rounds
  induction rounds with
  | zero => exact fun _ _ _ enough => absurd enough (Nat.not_lt_zero _)
  | succ rounds ih =>
    intro tokens place inside enough
    simp only [Cursor.repeated, same]
    cases go : begins (tokens.drop place) with
    | false =>
      rw [Rule.many_of_stop takes go, outcome, placeOf_drop inside]
      rfl
    | true =>
      have ahead := item.same tokens place inside
      have suffix := item.shrinks (tokens.drop place)
      rw [if_pos rfl]
      cases read : rule (tokens.drop place) with
      | error mismatch =>
        rw [read] at ahead
        rw [bind_of_error ahead, Rule.many_of_error takes go read]
        rfl
      | ok found =>
        obtain ⟨first, rest⟩ := found
        rw [read] at ahead suffix
        have whole : rest <:+ tokens := suffix.trans (List.drop_suffix place tokens)
        have further := lt_placeOf (takes _ _ _ read)
        have within := placeOf_le tokens rest
        have later := ih tokens (placeOf tokens rest) within (by omega)
        rw [drop_placeOf whole] at later
        rw [bind_of_ok ahead, Rule.many_of_ok takes go read]
        cases more : Rule.many begins rule takes rest with
        | error mismatch =>
          rw [more] at later
          exact bind_of_error later
        | ok found =>
          rw [more] at later
          exact bind_of_ok later

theorem many {starts : List τ → Nat → Bool} {begins : List τ → Bool} {takes : Takes rule}
    (item : Agrees reading rule)
    (same : ∀ tokens place, starts tokens place = begins (tokens.drop place)) :
    Agrees (Cursor.many starts reading) (Rule.many begins rule takes) where
  shrinks := Rule.many_shrinks begins takes item.shrinks
  definite := Definite.many begins takes item.definite
  same := fun tokens place inside =>
    item.repeated same (tokens.length + 1) tokens place inside (by omega)

end Agrees

variable [Terminal τ]

theorem kindAt?_eq (tokens : List τ) (place : Nat) :
    kindAt? tokens place = Rule.kind? (tokens.drop place) := by
  rw [kindAt?, getElem?_eq_head?, Rule.kind?]

theorem kindAt?_succ (tokens : List τ) (place : Nat) :
    kindAt? tokens (place + 1) = Rule.kind? (tokens.drop place).tail := by
  rw [kindAt?_eq, List.tail_drop]

omit [Terminal τ] in
/-- A cursor among the tokens is at their end or at the token that comes next. -/
theorem cases_drop (tokens : List τ) {place : Nat} (inside : place ≤ tokens.length) :
    (tokens[place]? = none ∧ tokens.drop place = []) ∨
      ∃ token, tokens[place]? = some token ∧
        tokens.drop place = token :: tokens.drop (place + 1) ∧ place + 1 ≤ tokens.length := by
  rcases Nat.lt_or_eq_of_le inside with before | rfl
  · exact .inr ⟨_, List.getElem?_eq_getElem before, List.drop_eq_getElem_cons before, before⟩
  · exact .inl ⟨List.getElem?_eq_none (Nat.le_refl _), List.drop_length⟩

theorem peek_agrees : Agrees (peek : Reading τ _) Rule.peek where
  shrinks := Rule.peek_shrinks
  definite := fun _ _ failed => nomatch failed
  same := by
    intro tokens place inside
    simp only [peek, Rule.peek, outcome, placeOf_drop inside, kindAt?_eq]

theorem expect_agrees (wanted : Kind) :
    Agrees (expect wanted : Reading τ τ) (Rule.expect wanted) where
  shrinks := Rule.expect_shrinks wanted
  definite := by
    intro tokens mismatch failed
    rw [(Rule.expect_eq_error.mp failed).2]
    exact nofun
  same := by
    intro tokens place inside
    have here := placeOf_drop inside
    rcases cases_drop tokens inside with ⟨none, left⟩ | ⟨token, some, left, further⟩
    · rw [left] at here
      simp only [expect, none, Rule.expect, left, outcome, failureOf, here, List.head?_nil]
    · rw [left] at here
      simp only [expect, some, Rule.expect, left]
      split
      · rw [outcome, placeOf_drop further]
      · simp only [outcome, failureOf, here, List.head?_cons]

theorem accept_agrees (wanted : Kind) :
    Agrees (accept wanted : Reading τ (Option τ)) (Rule.accept wanted) where
  shrinks := Rule.accept_shrinks wanted
  definite := fun _ _ failed => absurd failed Rule.accept_ne_error
  same := by
    intro tokens place inside
    have here := placeOf_drop inside
    rcases cases_drop tokens inside with ⟨none, left⟩ | ⟨token, some, left, further⟩
    · rw [left] at here
      simp only [accept, none, Rule.accept, left, outcome, here]
    · rw [left] at here
      simp only [accept, some, Rule.accept, left]
      split
      · rw [outcome, placeOf_drop further]
      · simp only [outcome, here]

theorem braced_agrees : Agrees (braced : Reading τ (Braced τ)) Concrete.braced :=
  (expect_agrees _).bind fun _ => (accept_agrees _).bind fun _ => (expect_agrees _).bind fun _ =>
    (expect_agrees _).bind fun _ => .pure _

theorem quotedPart_agrees (quote : Quote) :
    Agrees (quotedPart quote : Reading τ (Part τ)) (Concrete.quotedPart quote) := by
  have text := (expect_agrees (τ := τ) (.quoted quote)).map Part.text
  refine peek_agrees.bind fun first => ?_
  cases first with
  | none => exact text
  | some first =>
    cases first with
    | braceOpen => exact braced_agrees.map Part.braced
    | _ => exact text

theorem barePart_agrees : Agrees (barePart : Reading τ (Part τ)) Concrete.barePart := by
  have script := (braced_agrees (τ := τ)).map Part.braced
  refine peek_agrees.bind fun first => ?_
  cases first with
  | none => exact script
  | some first =>
    cases first with
    | attributeText => exact (expect_agrees _).map Part.text
    | slash => exact (expect_agrees _).map Part.text
    | _ => exact script

theorem startsQuoted_eq (quote : Quote) (tokens : List τ) (place : Nat) :
    startsQuoted quote tokens place = Concrete.startsQuoted quote (tokens.drop place) := by
  simp only [startsQuoted, Concrete.startsQuoted, kindAt?_eq]

theorem startsBare_eq (tokens : List τ) (place : Nat) :
    startsBare tokens place = Concrete.startsBare (tokens.drop place) := by
  cases first : Rule.kind? (tokens.drop place) with
  | none => simp only [startsBare, Concrete.startsBare, kindAt?_eq, first]
  | some kind =>
    cases kind <;> simp only [startsBare, Concrete.startsBare, kindAt?_eq, first, List.tail_drop]

theorem value_agrees : Agrees (value : Reading τ (Value τ)) Concrete.value := by
  have bare : Agrees (Value.bare <$> many startsBare barePart : Reading τ (Value τ))
      (Value.bare <$> Rule.many Concrete.startsBare Concrete.barePart barePart_takes) :=
    (barePart_agrees.many startsBare_eq).map Value.bare
  refine peek_agrees.bind fun first => ?_
  cases first with
  | none => exact bare
  | some first =>
    cases first with
    | quoteOpen quote =>
      exact (expect_agrees _).bind fun _ =>
        ((quotedPart_agrees quote).many (startsQuoted_eq quote)).bind fun _ =>
          (expect_agrees _).bind fun _ => .pure _
    | _ => exact bare

theorem modifier_agrees : Agrees (modifier : Reading τ (Modifier τ)) Concrete.modifier :=
  (expect_agrees _).bind fun _ => (expect_agrees _).bind fun _ => .pure _

theorem startsModifier_eq (tokens : List τ) (place : Nat) :
    startsModifier tokens place = Concrete.startsModifier (tokens.drop place) := by
  rw [startsModifier, Concrete.startsModifier, kindAt?_eq]

theorem assigned?_agrees :
    Agrees (assigned? : Reading τ (Option (Assigned τ))) Concrete.assigned? := by
  refine (accept_agrees _).bind fun equal => ?_
  cases equal with
  | some equal => exact value_agrees.map fun value => some (Assigned.mk equal value)
  | none => exact .pure _

theorem named_agrees : Agrees (named : Reading τ (Attribute τ)) Concrete.named :=
  (expect_agrees _).bind fun _ => (modifier_agrees.many startsModifier_eq).bind fun _ =>
    assigned?_agrees.bind fun _ => .pure _

theorem entry_agrees : Agrees (entry : Reading τ (Attribute τ)) Concrete.entry := by
  have script := (braced_agrees (τ := τ)).map Attribute.braced
  refine peek_agrees.bind fun first => ?_
  cases first with
  | none => exact script
  | some first =>
    cases first with
    | attributeText => exact named_agrees
    | _ => exact script

theorem item_agrees : Agrees (item : Reading τ (Item τ)) Concrete.item :=
  (accept_agrees _).bind fun _ => entry_agrees.bind fun _ => .pure _

theorem startsItem_eq (tokens : List τ) (place : Nat) :
    startsItem tokens place = Concrete.startsItem (tokens.drop place) := by
  simp only [startsItem, startsAttribute, Concrete.startsItem, Concrete.startsAttribute, kindAt?_eq,
    List.tail_drop]

theorem head_agrees (opener : Kind) :
    Agrees (head opener : Reading τ (Head τ)) (Concrete.head opener) :=
  (expect_agrees _).bind fun _ => (item_agrees.many startsItem_eq).bind fun _ =>
    (accept_agrees _).bind fun _ => .pure _

theorem tagEnd_agrees (head : Head τ) : Agrees (tagEnd head) (Concrete.tagEnd head) := by
  have unended := Agrees.fail (τ := τ) (α := Piece τ) (show Expected.tagEnd ≠ .content by decide)
  refine peek_agrees.bind fun first => ?_
  cases first with
  | none => exact unended
  | some first =>
    cases first with
    | slash => exact (expect_agrees _).bind fun _ => (expect_agrees _).bind fun _ => .pure _
    | angle => exact (expect_agrees _).map (Piece.element head)
    | _ => exact unended

theorem tag_agrees : Agrees (tag : Reading τ (Piece τ)) Concrete.tag :=
  (head_agrees _).bind tagEnd_agrees

theorem rawBody_agrees (element : RawElement) :
    Agrees (rawBody element : Reading τ (RawBody τ)) (Concrete.rawBody element) := by
  have unended := Agrees.fail (τ := τ) (α := RawBody τ) (show Expected.tagEnd ≠ .content by decide)
  refine peek_agrees.bind fun first => ?_
  cases first with
  | none => exact unended
  | some first =>
    cases first with
    | rawSelfClose => exact (expect_agrees _).map RawBody.selfClosed
    | rawAngle other =>
      by_cases same : other = element
      · simp only [same, ↓reduceIte]
        exact (expect_agrees _).bind fun _ => (expect_agrees _).bind fun _ => .pure _
      · simp only [same, ↓reduceIte]
        exact unended
    | _ => exact unended

theorem rawTag_agrees (element : RawElement) :
    Agrees (rawTag element : Reading τ (Child τ)) (Concrete.rawTag element) :=
  (head_agrees _).bind fun _ => (rawBody_agrees element).bind fun _ => .pure _

theorem marker_agrees (sigil : Sigil) :
    Agrees (marker sigil : Reading τ (Marker τ)) (Concrete.marker sigil) :=
  (expect_agrees _).bind fun _ => (expect_agrees _).bind fun _ => (accept_agrees _).bind fun _ =>
    (accept_agrees _).bind fun _ => (expect_agrees _).bind fun _ => .pure _

theorem blockEnd_agrees : Agrees (blockEnd : Reading τ (BlockEnd τ)) Concrete.blockEnd :=
  (expect_agrees _).bind fun _ => (expect_agrees _).bind fun _ => (accept_agrees _).bind fun _ =>
    (expect_agrees _).bind fun _ => .pure _

theorem closeTag_agrees : Agrees (closeTag : Reading τ (CloseTag τ)) Concrete.closeTag :=
  (expect_agrees _).bind fun _ => (accept_agrees _).bind fun _ => (expect_agrees _).bind fun _ =>
    .pure _

/-- There is a rule wherever a child can begin. -/
theorem pieceFor_agrees {first : Kind} (begins : beginsChild first = true) (second : Option Kind) :
    Agrees (pieceFor (some first) second : Reading τ (Piece τ))
      (Concrete.pieceFor (some first) second) := by
  cases first with
  | openTag => exact tag_agrees
  | rawOpen element => exact (rawTag_agrees element).map Piece.whole
  | comment => exact (expect_agrees _).map (Piece.whole ∘ Child.comment)
  | text => exact (expect_agrees _).map (Piece.whole ∘ Child.text)
  | braceOpen =>
    have script := (braced_agrees (τ := τ)).map (Piece.whole ∘ Child.braced)
    cases second with
    | none => exact script
    | some second =>
      cases second with
      | block sigil =>
        cases sigil with
        | single => exact (marker_agrees .single).map (Piece.whole ∘ Child.single)
        | opening => exact (marker_agrees .opening).map Piece.branch
        | continuing => exact script
        | closing => exact script
      | _ => exact script
  | _ => cases begins

/-- Where a child can begin it is read. -/
theorem piece_eq {tokens : List τ} {place : Nat} (inside : place ≤ tokens.length) {token : τ}
    {rest : List τ} (here : tokens.drop place = token :: rest)
    (begins : beginsChild (kind token) = true) :
    piece tokens place = some (outcome tokens (Concrete.piece (tokens.drop place))) := by
  have first : Rule.kind? (tokens.drop place) = some (kind token) := by rw [here]; rfl
  have agrees := pieceFor_agrees (τ := τ) begins (kindAt? tokens (place + 1))
  rw [piece, Concrete.piece, kindAt?_eq, first, agrees.same tokens place inside, kindAt?_succ]

/-- Where a child can begin its rule waits for something certain. -/
theorem piece_definite {token : τ} {rest : List τ} {mismatch : Mismatch τ}
    (begins : beginsChild (kind token) = true)
    (failed : Concrete.piece (token :: rest) = .error mismatch) : mismatch.expected ≠ .content :=
  (pieceFor_agrees begins (Rule.kind? rest)).definite (token :: rest) mismatch failed

end Cursor

end Template.Concrete
