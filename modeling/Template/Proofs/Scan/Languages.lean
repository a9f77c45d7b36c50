import Template.Munch
import Template.Proofs.Scan.Balance
import Template.Proofs.Scan.Bounds

set_option autoImplicit false

namespace Template

namespace Munch

def Run (allowed : Char → Prop) (part : Text) : Prop := part ≠ [] ∧ ∀ char ∈ part, allowed char

def Headed (word : Text) (allowed : Char → Prop) (part : Text) : Prop :=
  ∃ run, part = word ++ run ∧ Run allowed run

/-- A text that ends with the first ending that it holds. -/
structure EndsAtFirst (ending : Text → Prop) (part : Text) : Prop where
  ends : ∃ front word, part = front ++ word ∧ ending word
  first : ∀ front word back, part = front ++ word ++ back → ending word → back = []

/-- The opening of a raw element: its first letter as it is, the others in any case. -/
def RawOpening (name part : Text) : Prop :=
  ∃ first more letters, name = first :: more ∧ part = '<' :: first :: letters ∧
    Text.lower letters = more

/-- A piece of a quoted text: a backslash with the quote, or a character that is neither the quote
nor an opening brace. -/
inductive QuotedPiece (quote : Char) : Text → Prop where
  | escape : QuotedPiece quote ['\\', quote]
  | plain (char : Char) (inside : char ≠ quote) (literal : char ≠ '\x7b') : QuotedPiece quote [char]

def QuotedText (quote : Char) (part : Text) : Prop :=
  part ≠ [] ∧ ∃ pieces : List Text, pieces.flatten = part ∧
    ∀ piece ∈ pieces, QuotedPiece quote piece

/-- Letters and digits of ASCII, colons and hyphens. -/
def TagNameChar (char : Char) : Prop :=
  ('A' ≤ char ∧ char ≤ 'Z') ∨ ('a' ≤ char ∧ char ≤ 'z') ∨ ('0' ≤ char ∧ char ≤ '9') ∨ char = ':' ∨
    char = '-'

/-- Everything but blanks and the characters that mean something among attributes. -/
def AttributeChar (char : Char) : Prop :=
  Text.isBlank char = false ∧
    char ∉ ['"', '\'', '=', '<', '>', '\u0060', '\x7b', '|', '/']

/-- The texts of the tokens of a kind. -/
def Language : Kind → Text → Prop
  | .blank => Run fun char => Text.isBlank char = true
  | .text => Run fun char => char ≠ '<' ∧ char ≠ '\x7b'
  | .comment => fun part =>
    ∃ body, part = ['<', '!', '-', '-'] ++ body ∧ EndsAtFirst (· = ['-', '-', '>']) body
  | .openTag => Headed ['<'] TagNameChar
  | .closeTag => Headed ['<', '/'] TagNameChar
  | .rawOpen element => RawOpening element.name.toList
  | .rawRest element => EndsAtFirst fun word => Text.lower word = element.endTag.toList
  | .rawAngle _ | .angle => (· = ['>'])
  | .rawSelfClose => (· = ['/', '>'])
  | .slash => (· = ['/'])
  | .colon => (· = [':'])
  | .equal => (· = ['='])
  | .pipe => (· = ['|'])
  | .attributeText => Run AttributeChar
  | .quoteOpen quote | .quoteClose quote => (· = [quote.char])
  | .quoted quote => QuotedText quote.char
  | .braceOpen => (· = ['\x7b'])
  | .braceClose => (· = ['\x7d'])
  | .expression => Embedded.Script
  | .block sigil => Headed [sigil.char] fun char => Text.isBlank char = false ∧ char ≠ '\x7d'

/-- A length that is that of the longest start of a text in a language, or zero if no start is. -/
structure Measures (language : Text → Prop) (length : Text → Nat) : Prop where
  filled : ¬language []
  sound : ∀ text, 0 < length text → language (text.take (length text))
  longest : ∀ part rest, language part → part.length ≤ length (part ++ rest)

theorem measures_word {word : Text} (some : word ≠ []) : Measures (· = word) (wordLength word) where
  filled := fun empty => some empty.symm
  sound := by
    intro text positive
    unfold wordLength at positive ⊢
    split at positive
    · next starts =>
      rw [if_pos starts]
      exact (List.prefix_iff_eq_take.mp (List.isPrefixOf_iff_prefix.mp starts)).symm
    · exact absurd positive (Nat.lt_irrefl 0)
  longest := by
    rintro part rest rfl
    have starts : part.isPrefixOf (part ++ rest) = true :=
      List.isPrefixOf_iff_prefix.mpr (List.prefix_append part rest)
    refine Nat.le_of_eq ?_
    rw [wordLength, if_pos starts]

theorem take_runLength (test : Char → Bool) (text : Text) :
    text.take (runLength test text) = text.takeWhile test :=
  (List.prefix_iff_eq_take.mp (List.takeWhile_prefix test)).symm

theorem length_le_runLength {test : Char → Bool} {part : Text} (all : ∀ char ∈ part, test char)
    (rest : Text) : part.length ≤ runLength test (part ++ rest) := by
  rw [runLength, List.takeWhile_append_of_pos all, List.length_append]
  exact Nat.le_add_right _ _

section Run

variable {allowed : Char → Prop} {test : Char → Bool} (agree : ∀ char, test char = true ↔ allowed char)

include agree

theorem run_take_runLength {text : Text} (positive : 0 < runLength test text) :
    Run allowed (text.take (runLength test text)) := by
  rw [take_runLength]
  refine ⟨List.ne_nil_of_length_pos positive, fun char member => (agree char).mp ?_⟩
  exact List.all_eq_true.mp List.all_takeWhile char member

theorem measures_run : Measures (Run allowed) (runLength test) where
  filled := fun empty => empty.1 rfl
  sound := fun _ positive => run_take_runLength agree positive
  longest := fun _ rest run =>
    length_le_runLength (fun char member => (agree char).mpr (run.2 char member)) rest

theorem measures_headed (word : Text) : Measures (Headed word allowed) (headedLength word test) where
  filled := by
    rintro ⟨run, empty, filled, -⟩
    exact filled (List.append_eq_nil_iff.mp empty.symm).2
  sound := by
    intro text positive
    simp only [headedLength] at positive ⊢
    split at positive
    · next starts =>
      rw [if_pos starts]
      obtain ⟨starts, filled⟩ := Bool.and_eq_true_iff.mp starts
      obtain ⟨rest, rfl⟩ := List.isPrefixOf_iff_prefix.mp starts
      rw [List.drop_left] at filled ⊢
      rw [List.take_length_add_append]
      exact ⟨_, rfl, run_take_runLength agree (Nat.pos_of_ne_zero (bne_iff_ne.mp filled))⟩
    · exact absurd positive (Nat.lt_irrefl 0)
  longest := by
    rintro _ rest ⟨run, rfl, filled, inside⟩
    have reach := length_le_runLength (fun char member => (agree char).mpr (inside char member)) rest
    have positive := List.length_pos_iff.mpr filled
    have starts : word.isPrefixOf (word ++ (run ++ rest)) = true :=
      List.isPrefixOf_iff_prefix.mpr (List.prefix_append _ _)
    have more : (runLength test (run ++ rest) != 0) = true := bne_iff_ne.mpr (by omega)
    simp only [headedLength, List.append_assoc, starts, List.drop_left, more, Bool.and_self,
      ↓reduceIte, List.length_append]
    omega

end Run

/-- A search for the first place where an ending of a certain size stands: the length through it. -/
structure Searches (ending : Text → Prop) (size : Nat) (length : Text → Nat) : Prop where
  positive : 0 < size
  sized : ∀ word, ending word → word.length = size
  empty : length [] = 0
  here : ∀ word rest, ending word → length (word ++ rest) = size
  /-- Where no ending stands the search goes on after the next character. -/
  later : ∀ char rest, (∀ word back, char :: rest = word ++ back → ¬ending word) →
    length (char :: rest) =
      match length rest with
      | 0 => 0
      | count + 1 => count + 2

section Search

variable {ending : Text → Prop} {size : Nat} {length : Text → Nat}
  (searches : Searches ending size length)

include searches

theorem Searches.sound {text : Text} (positive : 0 < length text) :
    EndsAtFirst ending (text.take (length text)) := by
  induction text with
  | nil =>
    rw [searches.empty] at positive
    exact absurd positive (Nat.lt_irrefl 0)
  | cons char rest ih =>
    by_cases stands : ∃ word back, char :: rest = word ++ back ∧ ending word
    · obtain ⟨word, back, same, ends⟩ := stands
      have long := searches.sized word ends
      rw [same, searches.here word back ends, ← long, List.take_left]
      refine ⟨⟨[], word, rfl, ends⟩, fun front other more split others => ?_⟩
      -- There is room for one ending only.
      have room := congrArg List.length split
      have other_long := searches.sized other others
      simp only [List.length_append] at room
      exact List.length_eq_zero_iff.mp (by omega)
    · have nowhere : ∀ word back, char :: rest = word ++ back → ¬ending word :=
        fun word back same ends => stands ⟨word, back, same, ends⟩
      have further := searches.later char rest nowhere
      split at further
      · omega
      · next count found =>
        have found_pos : 0 < length rest := by omega
        obtain ⟨⟨front, word, split, ends⟩, first⟩ := ih found_pos
        have through : (char :: rest).take (length (char :: rest)) =
            char :: rest.take (length rest) := by rw [further, found, List.take_succ_cons]
        rw [through]
        refine ⟨⟨char :: front, word, by rw [split, List.cons_append], ends⟩, ?_⟩
        rintro (_ | ⟨other, before⟩) ending' back same others
        · refine absurd others (nowhere ending' (back ++ rest.drop (length rest)) ?_)
          rw [← List.append_assoc, ← List.nil_append ending', ← same, List.cons_append,
            List.take_append_drop]
        · exact first before ending' back (List.cons.inj same).2 others

omit searches in
/-- Where no ending stands at the first character, the rest ends with the same first ending. -/
theorem EndsAtFirst.tail {char : Char} {part : Text} (ends : EndsAtFirst ending (char :: part))
    (nowhere : ∀ word back, char :: part = word ++ back → ¬ending word) :
    EndsAtFirst ending part := by
  obtain ⟨⟨front, word, split, final⟩, first⟩ := ends
  cases front with
  | nil =>
    refine absurd final (nowhere word [] ?_)
    rw [split, List.nil_append, List.append_nil]
  | cons _ front =>
    obtain ⟨rfl, rest_split⟩ := List.cons.inj split
    refine ⟨⟨front, word, rest_split, final⟩, fun before other back same others => ?_⟩
    exact first (char :: before) other back (by rw [same]; rfl) others

theorem Searches.size_le {part : Text} (ends : EndsAtFirst ending part) : size ≤ part.length := by
  obtain ⟨⟨front, word, rfl, final⟩, -⟩ := ends
  rw [List.length_append, searches.sized word final]
  exact Nat.le_add_left size _

theorem Searches.longest {part : Text} (ends : EndsAtFirst ending part) (rest : Text) :
    part.length ≤ length (part ++ rest) := by
  induction part with
  | nil => exact Nat.zero_le _
  | cons char part ih =>
    by_cases stands : ∃ word back, char :: (part ++ rest) = word ++ back ∧ ending word
    · obtain ⟨word, back, same, others⟩ := stands
      have long := searches.sized word others
      -- The ending that stands here lies within the part, so it is the first.
      obtain ⟨more, within⟩ : word <+: char :: part :=
        List.prefix_of_prefix_length_le ⟨back, same.symm⟩
          (List.prefix_append (char :: part) rest) (long ▸ searches.size_le ends)
      have none := ends.first [] word more within.symm others
      rw [none, List.append_nil] at within
      refine Nat.le_of_eq ?_
      rw [List.cons_append, same, searches.here word back others, ← within, long]
    · have nowhere : ∀ word back, char :: (part ++ rest) = word ++ back → ¬ending word :=
        fun word back same others => stands ⟨word, back, same, others⟩
      have tail : EndsAtFirst ending part := ends.tail fun word back same =>
        nowhere word (back ++ rest) (by rw [← List.append_assoc, ← same, List.cons_append])
      have reach := ih tail
      have filled := Nat.lt_of_lt_of_le searches.positive (searches.size_le tail)
      rw [List.cons_append, searches.later char (part ++ rest) nowhere, List.length_cons]
      cases found : length (part ++ rest) with
      | zero => omega
      | succ count =>
        simp only
        omega

theorem Searches.measures : Measures (EndsAtFirst ending) length where
  filled := by
    rintro ⟨⟨front, word, empty, ends⟩, -⟩
    have long := searches.sized word ends
    have positive := searches.positive
    rw [(List.append_eq_nil_iff.mp empty.symm).2] at long
    exact absurd positive (by rw [← long]; exact Nat.lt_irrefl 0)
  sound := fun _ => searches.sound
  longest := fun _ rest ends => searches.longest ends rest

end Search

theorem startsLike_iff {word text : Text} :
    startsLike word text = true ↔ ∃ part rest, text = part ++ rest ∧ Text.lower part = word := by
  rw [startsLike, beq_iff_eq]
  constructor
  · intro same
    exact ⟨_, _, (List.take_append_drop word.length text).symm, same⟩
  · rintro ⟨part, rest, rfl, rfl⟩
    have long : (Text.lower part).length = part.length := List.length_map _
    rw [long, List.take_left]

theorem searches_throughLike {word : Text} (some : word ≠ []) :
    Searches (fun part => Text.lower part = word) word.length (throughLike word) where
  positive := List.length_pos_iff.mpr some
  sized := by
    rintro part rfl
    exact (List.length_map _).symm
  empty := rfl
  here := by
    rintro part rest rfl
    obtain ⟨char, more, rfl⟩ := List.exists_cons_of_ne_nil (fun empty => some (congrArg _ empty))
    exact if_pos (startsLike_iff.mpr ⟨char :: more, rest, rfl, rfl⟩)
  later := by
    intro char rest nowhere
    refine if_neg fun starts => ?_
    obtain ⟨part, back, same, like⟩ := startsLike_iff.mp starts
    exact nowhere part back same like

theorem searches_commentEnd : Searches (· = ['-', '-', '>']) 3 commentEndLength where
  positive := by decide
  sized := by
    rintro _ rfl
    rfl
  empty := rfl
  here := by
    rintro _ rest rfl
    exact if_pos (List.isPrefixOf_iff_prefix.mpr (List.prefix_append _ rest))
  later := by
    intro char rest nowhere
    refine if_neg fun starts => ?_
    obtain ⟨back, same⟩ := List.isPrefixOf_iff_prefix.mp starts
    exact nowhere _ back same.symm rfl

theorem measures_comment : Measures (Language .comment) commentLength where
  filled := by
    rintro ⟨body, empty, -⟩
    cases empty
  sound := by
    intro text positive
    cases opened : commentBody? text with
    | none =>
      simp only [commentLength, opened] at positive
      exact absurd positive (Nat.lt_irrefl 0)
    | some body =>
      cases found : commentEndLength body with
      | zero =>
        simp only [commentLength, opened, found] at positive
        exact absurd positive (Nat.lt_irrefl 0)
      | succ count =>
        simp only [commentLength, opened, found]
        refine ⟨body.take (count + 1), ?_, ?_⟩
        · rw [eq_of_commentBody? opened]
          rfl
        · rw [← found]
          exact searches_commentEnd.sound (by omega)
  longest := by
    rintro _ rest ⟨body, rfl, ends⟩
    have reach := searches_commentEnd.longest ends rest
    obtain ⟨⟨front, word, rfl, rfl⟩, -⟩ := ends
    have opened : commentBody? (['<', '!', '-', '-'] ++ (front ++ ['-', '-', '>']) ++ rest) =
        some (front ++ ['-', '-', '>'] ++ rest) := rfl
    rw [commentLength, opened]
    simp only [List.length_append, List.length_cons, List.length_nil] at reach ⊢
    split
    · omega
    · omega

theorem measures_rawOpen {name : Text} (small : Text.lower name = name) (filled : name ≠ []) :
    Measures (RawOpening name) (rawOpenLength name) where
  filled := by
    rintro ⟨first, more, letters, -, empty, -⟩
    cases empty
  sound := by
    intro text positive
    unfold rawOpenLength at positive ⊢
    split at positive
    · next starts =>
      rw [if_pos starts]
      obtain ⟨begins, like⟩ := Bool.and_eq_true_iff.mp starts
      obtain ⟨first, more, rfl⟩ := List.exists_cons_of_ne_nil filled
      obtain ⟨rest, rfl⟩ := List.isPrefixOf_iff_prefix.mp begins
      refine ⟨first, more, rest.take more.length, rfl, rfl, ?_⟩
      exact (List.cons.inj (beq_iff_eq.mp like)).2
    · exact absurd positive (Nat.lt_irrefl 0)
  longest := by
    rintro _ rest ⟨first, _, letters, rfl, rfl, rfl⟩
    have letter : first.toLower = first := (List.cons.inj small).1
    have begins : ('<' :: (first :: Text.lower letters).take 1).isPrefixOf
        ('<' :: first :: letters ++ rest) = true :=
      List.isPrefixOf_iff_prefix.mpr ⟨letters ++ rest, rfl⟩
    have like : startsLike (first :: Text.lower letters) (first :: letters ++ rest) = true :=
      startsLike_iff.mpr ⟨first :: letters, rest, rfl, congrArg (· :: _) letter⟩
    have long : (Text.lower letters).length = letters.length := List.length_map _
    refine Nat.le_of_eq ?_
    rw [rawOpenLength, begins, Bool.true_and, List.cons_append, List.tail_cons, if_pos like,
      List.length_cons, List.length_cons, List.length_cons, long]

/-- What is taken of a quoted text consists of its pieces. -/
theorem exists_quotedPieces (quote : Char) (text : Text) :
    ∃ pieces : List Text, pieces.flatten = text.take (quotedLength quote text) ∧
      ∀ piece ∈ pieces, QuotedPiece quote piece := by
  fun_induction quotedLength quote text with
  | case1 => exact ⟨[], rfl, List.forall_mem_nil _⟩
  | case2 => exact ⟨[], rfl, List.forall_mem_nil _⟩
  | case3 char plain =>
    obtain ⟨inside, literal⟩ := not_or.mp plain
    exact ⟨[[char]], rfl, List.forall_mem_singleton.mpr (.plain char inside literal)⟩
  | case4 char next rest escape ih =>
    obtain ⟨pieces, taken, sound⟩ := ih
    refine ⟨[char, next] :: pieces, ?_, List.forall_mem_cons.mpr ⟨?_, sound⟩⟩
    · rw [List.flatten_cons, taken]
      rfl
    · rw [escape.1, escape.2]
      exact .escape
  | case5 => exact ⟨[], rfl, List.forall_mem_nil _⟩
  | case6 char next rest _ plain ih =>
    obtain ⟨inside, literal⟩ := not_or.mp plain
    obtain ⟨pieces, taken, sound⟩ := ih
    refine ⟨[char] :: pieces, ?_, List.forall_mem_cons.mpr ⟨.plain char inside literal, sound⟩⟩
    rw [List.flatten_cons, taken]
    rfl

/-- Pieces of a quoted text do not begin with the quote. -/
theorem flatten_eq_nil_of_quote {quote : Char} (unescaped : quote ≠ '\\') {pieces : List Text}
    (sound : ∀ piece ∈ pieces, QuotedPiece quote piece) {rest after : Text}
    (ahead : pieces.flatten ++ rest = quote :: after) : pieces.flatten = [] := by
  cases pieces with
  | nil => rfl
  | cons piece pieces =>
    cases sound piece List.mem_cons_self with
    | escape => exact absurd (List.cons.inj ahead).1.symm unescaped
    | plain char inside => exact absurd (List.cons.inj ahead).1 inside

theorem length_le_quotedLength {quote : Char} (unescaped : quote ≠ '\\') {pieces : List Text}
    (sound : ∀ piece ∈ pieces, QuotedPiece quote piece) (rest : Text) :
    pieces.flatten.length ≤ quotedLength quote (pieces.flatten ++ rest) := by
  induction pieces with
  | nil => exact Nat.zero_le _
  | cons piece pieces ih =>
    obtain ⟨first, others⟩ := List.forall_mem_cons.mp sound
    have reach := ih others
    rw [List.flatten_cons, List.append_assoc]
    cases first with
    | escape =>
      simp only [List.cons_append, List.nil_append, quotedLength, and_self, ↓reduceIte,
        List.length_cons]
      omega
    | plain char inside literal =>
      rw [List.singleton_append, List.singleton_append, List.length_cons]
      cases ahead : pieces.flatten ++ rest with
      | nil =>
        have none := (List.append_eq_nil_iff.mp ahead).1
        simp only [quotedLength, inside, literal, or_self, ↓reduceIte, none, List.length_nil]
        omega
      | cons next after =>
        rw [ahead] at reach
        by_cases escape : char = '\\' ∧ next = quote
        · -- A quote that stands here escaped begins no piece, so the pieces end before it.
          have none := flatten_eq_nil_of_quote unescaped others (escape.2 ▸ ahead)
          simp only [quotedLength, escape, and_self, ↓reduceIte, none, List.length_nil]
          omega
        · simp only [quotedLength, escape, inside, literal, or_self, ↓reduceIte]
          omega

theorem measures_quoted {quote : Char} (unescaped : quote ≠ '\\') :
    Measures (QuotedText quote) (quotedLength quote) where
  filled := fun empty => empty.1 rfl
  sound := by
    intro text positive
    refine ⟨fun empty => ?_, exists_quotedPieces quote text⟩
    rcases List.take_eq_nil_iff.mp empty with none | rfl
    · omega
    · exact absurd positive (Nat.lt_irrefl 0)
  longest := by
    rintro _ rest ⟨-, pieces, rfl, sound⟩
    exact length_le_quotedLength unescaped sound rest

end Munch

namespace Embedded

theorem opens_iff {char : Char} :
    opens char = true ↔ isSigil char = false ∧ Text.isPlainBlank char = false := by
  simp only [opens, Bool.not_eq_true', Bool.or_eq_false_iff]

theorem measures_script : Munch.Measures Script length where
  filled := fun empty => empty.filled rfl
  sound := by
    intro text positive
    cases text with
    | nil => exact absurd positive (Nat.lt_irrefl 0)
    | cons char rest =>
      simp only [length] at positive ⊢
      split at positive
      · next begins =>
        rw [if_pos begins]
        obtain ⟨front, back, split, measured, answered, -⟩ := runLength_balanced (char :: rest)
        rw [← measured, split, List.take_left]
        rw [← measured] at positive
        refine ⟨List.ne_nil_of_length_pos positive, fun first here => ?_, answered⟩
        obtain ⟨other, front, rfl⟩ := List.exists_cons_of_length_pos positive
        cases here
        rw [← (List.cons.inj split).1]
        exact opens_iff.mp begins
      · exact absurd positive (Nat.lt_irrefl 0)
  longest := by
    intro part rest script
    obtain ⟨char, more, rfl⟩ := List.exists_cons_of_ne_nil script.filled
    have begins := opens_iff.mpr (script.opens char rfl)
    rw [List.cons_append, length, if_pos begins, ← List.cons_append]
    obtain ⟨front, back, split, measured, -, ended⟩ := runLength_balanced (char :: more ++ rest)
    rw [← measured]
    refine Nat.le_of_not_lt fun shorter => ?_
    -- The script would go on past its end.
    have begins : front <+: char :: more :=
      List.prefix_of_prefix_length_le ⟨back, split.symm⟩ (List.prefix_append _ rest)
        (Nat.le_of_lt shorter)
    obtain ⟨after, whole⟩ := begins
    rw [← whole, List.append_assoc] at split
    have left := List.append_cancel_left split
    have further : after ≠ [] := by
      rintro rfl
      rw [← whole, List.append_nil] at shorter
      exact Nat.lt_irrefl _ shorter
    obtain ⟨next, after, rfl⟩ := List.exists_cons_of_ne_nil further
    obtain ⟨balanced, closing⟩ := ended (by rw [← left]; exact List.cons_ne_nil _ _)
    rw [← left] at closing
    cases closing
    exact script.answered front after whole.symm balanced

end Embedded

namespace Munch

theorem isTagNameChar_iff (char : Char) : isTagNameChar char = true ↔ TagNameChar char := by
  have alphanumeric : char.isAlphanum =
      ((decide ('A' ≤ char ∧ char ≤ 'Z') || decide ('a' ≤ char) && decide (char ≤ 'z')) ||
        decide ('0' ≤ char) && decide (char ≤ '9')) := rfl
  simp only [isTagNameChar, TagNameChar, alphanumeric, Bool.or_eq_true, Bool.and_eq_true,
    decide_eq_true_eq, beq_iff_eq, or_assoc]

theorem isAttributeChar_iff (char : Char) : isAttributeChar char = true ↔ AttributeChar char := by
  simp only [isAttributeChar, AttributeChar, attributeStops, Bool.and_eq_true, Bool.not_eq_true',
    List.contains_eq_mem, decide_eq_false_iff_not]

/-- The length of a kind is that of the longest start in its language. -/
theorem measures (kind : Kind) : Measures (Language kind) (length kind) := by
  cases kind with
  | blank => exact measures_run fun _ => Iff.rfl
  | text => exact measures_run fun char => by simp
  | comment => exact measures_comment
  | openTag => exact measures_headed isTagNameChar_iff _
  | closeTag => exact measures_headed isTagNameChar_iff _
  | rawOpen element =>
    exact measures_rawOpen (by cases element <;> decide) (by cases element <;> decide)
  | rawRest element => exact (searches_throughLike (by cases element <;> decide)).measures
  | attributeText => exact measures_run isAttributeChar_iff
  | quoted quote => exact measures_quoted (by cases quote <;> decide)
  | expression => exact Embedded.measures_script
  | block sigil => exact measures_headed (fun char => by simp) _
  | _ => exact measures_word (List.cons_ne_nil _ _)

end Munch

end Template
