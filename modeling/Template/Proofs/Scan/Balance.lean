import Template.Embedded

set_option autoImplicit false

namespace Template.Embedded

/-- A piece of a literal: a backslash with any character, or a character other than the quote. -/
inductive LiteralPiece (quote : Char) : Text → Prop where
  | escape (char : Char) : LiteralPiece quote ['\\', char]
  | plain (char : Char) (inside : char ≠ quote) (unescaped : char ≠ '\\') :
      LiteralPiece quote [char]

def LiteralBody (quote : Char) (text : Text) : Prop :=
  ∃ pieces : List Text, pieces.flatten = text ∧ ∀ piece ∈ pieces, LiteralPiece quote piece

/-- A text in which braces answer one another and literals are closed. -/
inductive Balanced : Text → Prop where
  | nil : Balanced []
  | plain {char : Char} {rest : Text} (opening : char ≠ '\x7b') (closing : char ≠ '\x7d')
      (unquoted : isQuote char = false) (further : Balanced rest) : Balanced (char :: rest)
  | literal {quote : Char} {body rest : Text} (quotes : isQuote quote = true)
      (inside : LiteralBody quote body) (further : Balanced rest) :
      Balanced (quote :: (body ++ quote :: rest))
  | braces {inner rest : Text} (inside : Balanced inner) (further : Balanced rest) :
      Balanced ('\x7b' :: (inner ++ '\x7d' :: rest))

/-- A script, or the beginning of one: it begins with neither a sigil nor a plain blank, and it
holds no closing brace that answers none of its own. -/
structure Script (part : Text) : Prop where
  filled : part ≠ []
  opens : ∀ char ∈ part.head?, isSigil char = false ∧ Text.isPlainBlank char = false
  answered : ∀ front back, part = front ++ '\x7d' :: back → ¬Balanced front

/-- The state after a text, or nothing if the script ends in it. -/
def State.read? (state : State) (text : Text) : Option State := text.foldlM State.next? state

namespace State

@[simp] theorem read?_nil (state : State) : state.read? [] = some state := rfl

@[simp] theorem read?_cons (state : State) (char : Char) (rest : Text) :
    state.read? (char :: rest) = (state.next? char).bind (read? · rest) := rfl

theorem read?_append (state : State) (front back : Text) :
    state.read? (front ++ back) = (state.read? front).bind (read? · back) := List.foldlM_append ..

/-- Only a closing brace in code in which no brace is open ends a script. -/
theorem next?_eq_none {state : State} {char : Char} :
    state.next? char = none ↔ state = code 0 ∧ char = '\x7d' := by
  cases state with
  | code depth =>
    simp only [next?, code.injEq]
    split
    · next opening =>
      subst opening
      simp
    · split
      · next closing => cases depth <;> simp [closing]
      · next closing => split <;> simp [closing]
  | literal quote depth =>
    simp only [next?]
    split
    · simp
    · split <;> simp
  | escaped quote depth => simp [next?]

theorem next?_plain {depth : Nat} {char : Char} (opening : char ≠ '\x7b') (closing : char ≠ '\x7d')
    (unquoted : isQuote char = false) : (code depth).next? char = some (code depth) := by
  simp only [next?, opening, closing, unquoted, ↓reduceIte, Bool.false_eq_true]

theorem next?_opening (depth : Nat) : (code depth).next? '\x7b' = some (code (depth + 1)) := by
  simp only [next?, ↓reduceIte]

theorem next?_closing (depth : Nat) : (code (depth + 1)).next? '\x7d' = some (code depth) := rfl

theorem next?_quote {depth : Nat} {quote : Char} (quotes : isQuote quote = true) :
    (code depth).next? quote = some (literal quote depth) := by
  have opening : quote ≠ '\x7b' := by
    rintro rfl
    cases quotes
  have closing : quote ≠ '\x7d' := by
    rintro rfl
    cases quotes
  simp only [next?, opening, closing, quotes, ↓reduceIte]

theorem next?_endQuote {depth : Nat} {quote : Char} (quotes : isQuote quote = true) :
    (literal quote depth).next? quote = some (code depth) := by
  have unescaped : quote ≠ '\\' := by
    rintro rfl
    cases quotes
  simp only [next?, unescaped, ↓reduceIte]

end State

open State

theorem read?_literalBody {quote : Char} {body : Text} (inside : LiteralBody quote body)
    (depth : Nat) : (literal quote depth).read? body = some (literal quote depth) := by
  obtain ⟨pieces, rfl, sound⟩ := inside
  induction pieces with
  | nil => rfl
  | cons piece pieces ih =>
    obtain ⟨first, others⟩ := List.forall_mem_cons.mp sound
    have here : (literal quote depth).read? piece = some (literal quote depth) := by
      cases first with
      | escape char => simp [next?]
      | plain char inside unescaped => simp [next?, inside, unescaped]
    rw [List.flatten_cons, read?_append, here, Option.bind_some, ih others]

theorem Balanced.read? {text : Text} (balanced : Balanced text) (depth : Nat) :
    (code depth).read? text = some (code depth) := by
  induction balanced generalizing depth with
  | nil => rfl
  | plain opening closing unquoted _ ih =>
    rw [read?_cons, next?_plain opening closing unquoted, Option.bind_some, ih]
  | literal quotes inside _ ih =>
    rw [read?_cons, next?_quote quotes, Option.bind_some, read?_append,
      read?_literalBody inside, Option.bind_some, read?_cons, next?_endQuote quotes,
      Option.bind_some, ih]
  | braces _ _ inner further =>
    rw [read?_cons, next?_opening, Option.bind_some, read?_append, inner, Option.bind_some,
      read?_cons, next?_closing, Option.bind_some, further]

/-- A literal that is left again was closed. -/
theorem exists_literalBody {quote : Char} {depth last : Nat} :
    ∀ {text : Text}, (literal quote depth).read? text = some (code last) →
      ∃ body rest, text = body ++ quote :: rest ∧ LiteralBody quote body ∧
        (code depth).read? rest = some (code last)
  | [], read => by cases read
  | char :: text, read => by
    by_cases escape : char = '\\'
    · subst escape
      cases text with
      | nil => cases read
      | cons next text =>
        have further : (literal quote depth).read? text = some (code last) := by
          simpa [next?] using read
        obtain ⟨_, rest, rfl, ⟨pieces, rfl, sound⟩, left⟩ := exists_literalBody further
        refine ⟨'\\' :: next :: pieces.flatten, rest, rfl, ⟨['\\', next] :: pieces, rfl, ?_⟩, left⟩
        exact List.forall_mem_cons.mpr ⟨.escape next, sound⟩
    · by_cases close : char = quote
      · subst close
        have further : (code depth).read? text = some (code last) := by
          simpa [next?, escape] using read
        exact ⟨[], text, rfl, ⟨[], rfl, List.forall_mem_nil _⟩, further⟩
      · have further : (literal quote depth).read? text = some (code last) := by
          simpa [next?, escape, close] using read
        obtain ⟨_, rest, rfl, ⟨pieces, rfl, sound⟩, left⟩ := exists_literalBody further
        refine ⟨char :: pieces.flatten, rest, rfl, ⟨[char] :: pieces, rfl, ?_⟩, left⟩
        exact List.forall_mem_cons.mpr ⟨.plain char close escape, sound⟩

theorem length_lt_of_split {text front rest : Text} {char : Char}
    (split : text = front ++ char :: rest) : rest.length < text.length := by
  rw [split, List.length_append, List.length_cons]
  omega

/-- An open brace that is left again was answered. -/
theorem exists_answer {depth : Nat} :
    ∀ {text : Text}, (code (depth + 1)).read? text = some (code 0) →
      ∃ inner rest, text = inner ++ '\x7d' :: rest ∧ Balanced inner ∧
        (code depth).read? rest = some (code 0)
  | [], read => by cases read
  | char :: text, read => by
    by_cases opening : char = '\x7b'
    · subst opening
      have further : (code (depth + 2)).read? text = some (code 0) := by
        simpa [next?_opening] using read
      obtain ⟨inner, middle, split, inside, further⟩ := exists_answer further
      have shorter := length_lt_of_split split
      obtain ⟨more, rest, rfl, after, left⟩ := exists_answer further
      refine ⟨'\x7b' :: (inner ++ '\x7d' :: more), rest, ?_, .braces inside after, left⟩
      simp only [split, List.cons_append, List.append_assoc]
    · by_cases closing : char = '\x7d'
      · subst closing
        have further : (code depth).read? text = some (code 0) := by
          simpa [next?_closing] using read
        exact ⟨[], text, rfl, .nil, further⟩
      · cases quotes : isQuote char with
        | true =>
          have further : (literal char (depth + 1)).read? text = some (code 0) := by
            simpa [next?_quote quotes] using read
          obtain ⟨body, middle, split, inside, further⟩ := exists_literalBody further
          have shorter := length_lt_of_split split
          obtain ⟨more, rest, rfl, after, left⟩ := exists_answer further
          refine ⟨char :: (body ++ char :: more), rest, ?_, .literal quotes inside after, left⟩
          simp only [split, List.cons_append, List.append_assoc]
        | false =>
          have further : (code (depth + 1)).read? text = some (code 0) := by
            simpa [next?_plain opening closing quotes] using read
          obtain ⟨inner, rest, rfl, inside, left⟩ := exists_answer further
          exact ⟨char :: inner, rest, rfl, .plain opening closing quotes inside, left⟩
termination_by text => text.length
decreasing_by all_goals simp only [List.length_cons]; omega

theorem balanced_of_read? : ∀ {text : Text}, (code 0).read? text = some (code 0) → Balanced text
  | [], _ => .nil
  | char :: text, read => by
    by_cases opening : char = '\x7b'
    · subst opening
      have further : (code 1).read? text = some (code 0) := by
        simpa [next?_opening] using read
      obtain ⟨inner, rest, split, inside, left⟩ := exists_answer further
      have shorter := length_lt_of_split split
      rw [split]
      exact .braces inside (balanced_of_read? left)
    · by_cases closing : char = '\x7d'
      · subst closing
        cases read
      · cases quotes : isQuote char with
        | true =>
          have further : (literal char 0).read? text = some (code 0) := by
            simpa [next?_quote quotes] using read
          obtain ⟨body, rest, split, inside, left⟩ := exists_literalBody further
          have shorter := length_lt_of_split split
          rw [split]
          exact .literal quotes inside (balanced_of_read? left)
        | false =>
          have further : (code 0).read? text = some (code 0) := by
            simpa [next?_plain opening closing quotes] using read
          exact .plain opening closing quotes (balanced_of_read? further)
termination_by text => text.length
decreasing_by all_goals simp only [List.length_cons]; omega

/-- Between braces the search is back where it began exactly after the balanced texts. -/
theorem read?_eq_iff {text : Text} : (code 0).read? text = some (code 0) ↔ Balanced text :=
  ⟨balanced_of_read?, fun balanced => balanced.read? 0⟩

/-- The characters before the end of a script are read, and the next one, if there is one, ends
it. -/
theorem runLength_spec (state : State) (text : Text) :
    ∃ front back last, text = front ++ back ∧ front.length = runLength state text ∧
      state.read? front = some last ∧ ∀ char ∈ back.head?, last.next? char = none := by
  induction text generalizing state with
  | nil => exact ⟨[], [], state, rfl, rfl, rfl, fun _ found => nomatch found⟩
  | cons char rest ih =>
    cases read : state.next? char with
    | none =>
      refine ⟨[], char :: rest, state, rfl, ?_, rfl, ?_⟩
      · simp only [runLength, read, List.length_nil]
      · rintro _ ⟨⟩
        exact read
    | some next =>
      obtain ⟨front, back, last, rfl, measured, further, stop⟩ := ih next
      refine ⟨char :: front, back, last, rfl, ?_, ?_, stop⟩
      · simp only [runLength, read, List.length_cons, measured]
      · rw [read?_cons, read, Option.bind_some, further]

/-- The text before the end of a script holds no closing brace with a balanced text before it, and
if the end comes, the text before it is balanced. -/
theorem runLength_balanced (text : Text) :
    ∃ front back, text = front ++ back ∧ front.length = runLength (.code 0) text ∧
      (∀ first more, front = first ++ '\x7d' :: more → ¬Balanced first) ∧
      (back ≠ [] → Balanced front ∧ back.head? = some '\x7d') := by
  obtain ⟨front, back, last, rfl, measured, read, stop⟩ := runLength_spec (code 0) text
  refine ⟨front, back, rfl, measured, ?_, ?_⟩
  · rintro first more rfl balanced
    rw [read?_append, balanced.read? 0, Option.bind_some, read?_cons] at read
    cases read
  · intro further
    obtain ⟨char, rest, rfl⟩ := List.exists_cons_of_ne_nil further
    obtain ⟨rfl, rfl⟩ := next?_eq_none.mp (stop char rfl)
    exact ⟨balanced_of_read? read, rfl⟩

end Template.Embedded
