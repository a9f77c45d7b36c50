import Template.Proofs.Scan.Trimming

set_option autoImplicit false

namespace Template

namespace Embedded

open Text (isBlank isPlainBlank)

/-- A blank means nothing in a script. -/
theorem inert_of_isBlank {char : Char} (blank : isBlank char = true) :
    char ≠ '\x7b' ∧ char ≠ '\x7d' ∧ isQuote char = false ∧ isSigil char = false := by
  have outside := Text.toNat_of_isBlank blank
  have differs : ∀ known : Char, 33 ≤ known.toNat → known.toNat ≤ 126 → char ≠ known := by
    rintro known low high rfl
    omega
  refine ⟨differs _ (by decide) (by decide), differs _ (by decide) (by decide), ?_, ?_⟩
  · simp only [isQuote, Bool.or_eq_false_iff, beq_eq_false_iff_ne]
    exact ⟨⟨differs _ (by decide) (by decide), differs _ (by decide) (by decide)⟩,
      differs _ (by decide) (by decide)⟩
  · simp only [isSigil, Bool.or_eq_false_iff, beq_eq_false_iff_ne]
    exact ⟨⟨⟨differs _ (by decide) (by decide), differs _ (by decide) (by decide)⟩,
      differs _ (by decide) (by decide)⟩, differs _ (by decide) (by decide)⟩

theorem balanced_of_blanks {blanks : Text} (blank : ∀ char ∈ blanks, isBlank char = true) :
    Balanced blanks := by
  induction blanks with
  | nil => exact .nil
  | cons char rest ih =>
    obtain ⟨here, others⟩ := List.forall_mem_cons.mp blank
    obtain ⟨opening, closing, unquoted, -⟩ := inert_of_isBlank here
    exact .plain opening closing unquoted (ih others)

/-- Where a blank stands, the search finds a script exactly if the blank is none of the plain
ones. -/
theorem endIn?_blank {char : Char} (blank : isBlank char = true) (front rest : Text) :
    endIn? (front ++ char :: rest) front.size = none ↔ isPlainBlank char = true := by
  obtain ⟨opening, closing, unquoted, sigil⟩ := inert_of_isBlank blank
  have step : State.next? (.code 0) char = some (.code 0) :=
    State.next?_plain opening closing unquoted
  rw [endIn?_append, length]
  cases plain : isPlainBlank char with
  | true => simp only [opens, sigil, plain, Bool.or_true, Bool.not_true, Bool.false_eq_true,
      ↓reduceIte]
  | false => simp only [opens, sigil, plain, Bool.or_self, Bool.not_false, ↓reduceIte, runLength,
      step, Nat.succ_ne_zero, Bool.false_eq_true, reduceCtorEq]

end Embedded

namespace Munch

open Embedded (Script)
open Text (isBlank isPlainBlank)

/-- A start of a text that is longer than a part of it goes on with what follows the part. -/
theorem exists_next {start front back : Text} (starts : start <+: front ++ back)
    (longer : front.length < start.length) :
    ∃ char more, start = front ++ char :: more ∧ back.head? = some char := by
  have ahead : front <+: start :=
    List.prefix_of_prefix_length_le (List.prefix_append front back) starts (Nat.le_of_lt longer)
  obtain ⟨further, rfl⟩ := ahead
  have left : further <+: back := (List.prefix_append_right_inj front).mp starts
  cases further with
  | nil =>
    rw [List.append_nil] at longer
    exact absurd longer (Nat.lt_irrefl _)
  | cons char more =>
    obtain ⟨rest, rfl⟩ := left
    exact ⟨char, more, rfl, rfl⟩

/-- All the blanks at the start of a text, and what follows them. -/
structure Leading (blanks back : Text) : Prop where
  filled : blanks ≠ []
  blank : ∀ char ∈ blanks, isBlank char = true
  whole : ∀ char ∈ back.head?, isBlank char = false

/-- Whether blanks become part of the script that follows them: the first is not a plain one, and
the script does not end at once. -/
def Swallowed (blanks back : Text) : Prop :=
  (∀ char ∈ blanks.head?, isPlainBlank char = false) ∧ ∃ char ∈ back.head?, char ≠ '\x7d'

variable {blanks back : Text}

theorem Leading.exists_first (leading : Leading blanks back) :
    ∃ char more, blanks = char :: more ∧ isBlank char = true := by
  obtain ⟨char, more, rfl⟩ := List.exists_cons_of_ne_nil leading.filled
  exact ⟨char, more, rfl, leading.blank char List.mem_cons_self⟩

/-- Between braces, only blanks and scripts begin with a blank. -/
theorem Leading.blank_or_script (leading : Leading blanks back) {kind : Kind}
    (member : kind ∈ Mode.expression.candidates) {start : Text} (starts : start <+: blanks ++ back)
    (belongs : Language kind start) : kind = .blank ∨ kind = .expression := by
  obtain ⟨char, more, rfl, blank⟩ := leading.exists_first
  obtain ⟨-, closing, -, sigil⟩ := Embedded.inert_of_isBlank blank
  simp only [Embedded.isSigil, Bool.or_eq_false_iff, beq_eq_false_iff_ne] at sigil
  have head : ∀ first rest, start = first :: rest → char = first := by
    rintro first rest rfl
    obtain ⟨after, same⟩ := starts
    exact (List.cons.inj same).1.symm
  have block : ∀ known, Language (.block known) start → char = known.char := by
    rintro known ⟨run, same, -⟩
    exact head known.char run same
  simp only [Mode.candidates, List.mem_cons, List.not_mem_nil, or_false] at member
  rcases member with rfl | rfl | rfl | rfl | rfl | rfl | rfl
  · exact .inl rfl
  · exact absurd (block _ belongs) sigil.1.1.1
  · exact absurd (block _ belongs) sigil.2
  · exact absurd (block _ belongs) sigil.1.1.2
  · exact absurd (block _ belongs) sigil.1.2
  · exact .inr rfl
  · exact absurd (head _ _ belongs) closing

/-- No token of blanks is longer than the blanks. -/
theorem Leading.length_le_of_blank (leading : Leading blanks back) {start : Text}
    (starts : start <+: blanks ++ back) (belongs : Language .blank start) :
    start.length ≤ blanks.length := by
  apply Nat.le_of_not_lt
  intro longer
  obtain ⟨char, more, rfl, next⟩ := exists_next starts longer
  have blank : isBlank char = true :=
    belongs.2 char (List.mem_append_right _ List.mem_cons_self)
  rw [leading.whole char next] at blank
  cases blank

/-- Blanks that are not swallowed are at least as long as every script that begins with them. -/
theorem Leading.length_le_of_script (leading : Leading blanks back)
    (kept : ¬Swallowed blanks back) {start : Text} (starts : start <+: blanks ++ back)
    (belongs : Language .expression start) : start.length ≤ blanks.length := by
  have script : Script start := belongs
  apply Nat.le_of_not_lt
  intro longer
  obtain ⟨char, more, rfl, next⟩ := exists_next starts longer
  have opens : ∀ first ∈ blanks.head?, isPlainBlank first = false := by
    intro first here
    apply (script.opens first _).2
    rw [List.head?_append_of_ne_nil _ leading.filled]
    exact here
  -- What follows the blanks could only be the brace that ends the script.
  have closing : char = '\x7d' := Decidable.byContradiction fun other =>
    kept ⟨opens, char, next, other⟩
  rw [closing] at script
  exact script.answered blanks more rfl (Embedded.balanced_of_blanks leading.blank)

/-- Blanks that are not swallowed are a token. -/
theorem Leading.takes_blank (leading : Leading blanks back) (kept : ¬Swallowed blanks back) :
    Takes Mode.expression.candidates (blanks ++ back) .blank blanks := by
  refine ⟨⟨leading.filled, leading.blank⟩, List.prefix_append _ _, ?_, [], _, rfl, ?_⟩
  · intro kind member start starts belongs
    rcases leading.blank_or_script member starts belongs with rfl | rfl
    · exact leading.length_le_of_blank starts belongs
    · exact leading.length_le_of_script kept starts belongs
  · exact fun _ none => nomatch none

/-- Blanks that are swallowed are the beginning of a script, and there is more of it. -/
theorem Leading.takes_script (leading : Leading blanks back) (gone : Swallowed blanks back) :
    ∃ more, more ≠ [] ∧
      Takes Mode.expression.candidates (blanks ++ back) .expression (blanks ++ more) := by
  obtain ⟨opens, next, here, other⟩ := gone
  obtain ⟨rest, rfl⟩ : ∃ rest, back = next :: rest := by
    cases back with
    | nil => cases here
    | cons char rest =>
      cases here
      exact ⟨rest, rfl⟩
  have noBrace : '\x7d' ∉ blanks ++ [next] := by
    intro member
    rcases List.mem_append.mp member with inside | last
    · exact (Embedded.inert_of_isBlank (leading.blank _ inside)).2.1 rfl
    · exact other (List.mem_singleton.mp last).symm
  have script : Script (blanks ++ [next]) := by
    refine ⟨List.append_ne_nil_of_left_ne_nil leading.filled _, ?_, ?_⟩
    · intro char here
      rw [List.head?_append_of_ne_nil _ leading.filled] at here
      have sigil := Embedded.inert_of_isBlank (leading.blank char (List.mem_of_mem_head? here))
      exact ⟨sigil.2.2.2, opens char here⟩
    · intro front after same
      exact absurd (same ▸ List.mem_append_right front List.mem_cons_self) noBrace
  have starts : blanks ++ [next] <+: blanks ++ next :: rest := ⟨rest, by
    rw [List.append_assoc, List.singleton_append]⟩
  have candidate : Kind.expression ∈ Mode.expression.candidates := by decide
  obtain ⟨kind, image, takes⟩ := exists_takes fun stuck => stuck _ candidate _ starts script
  have reach := takes.longest _ candidate _ starts script
  rw [List.length_append, List.length_singleton] at reach
  obtain ⟨before, after, split, -⟩ := takes.earliest
  have member : kind ∈ Mode.expression.candidates := by
    rw [split]
    exact List.mem_append_right _ List.mem_cons_self
  rcases leading.blank_or_script member takes.starts takes.belongs with rfl | rfl
  · have short := leading.length_le_of_blank takes.starts takes.belongs
    omega
  · obtain ⟨char, more, rfl, -⟩ := exists_next takes.starts (by omega)
    exact ⟨char :: more, List.cons_ne_nil _ _, takes⟩

end Munch

/-- No script begins with a plain blank. But where a scan comes to blanks between braces of which
the first is another one, they are a token of their own only if nothing else is left of the script;
otherwise they are the beginning of the token of the script. The search for scripts answers at every
blank that is not plain. -/
theorem scan_leadingBlanks (source : Text) :
    (∀ token ∈ (scan source).tokens, token.kind = .expression →
      ∀ char ∈ token.image.head?, Text.isPlainBlank char = false) ∧
    (∀ (front : Text) char rest, source = front ++ char :: rest → Text.isBlank char = true →
      (Embedded.endIn? source front.size = none ↔ Text.isPlainBlank char = true)) ∧
    ∀ scanner, Scanner.Course source scanner → scanner.modes.top = .expression →
      ∀ blanks back, scanner.rest = blanks ++ back → Munch.Leading blanks back →
        (Munch.Swallowed blanks back → ∃ more, more ≠ [] ∧
          scanner.tokens.reverse ++ [.place .expression (blanks ++ more) scanner.point] <+:
            (scan source).tokens) ∧
        (¬Munch.Swallowed blanks back →
          scanner.tokens.reverse ++ [.place .blank blanks scanner.point] <+:
            (scan source).tokens) := by
  refine ⟨?_, ?_, ?_⟩
  · intro token member script char first
    have belongs := language_of_scan member
    rw [script] at belongs
    exact (Embedded.Script.opens belongs char first).2
  · rintro front char rest rfl blank
    exact Embedded.endIn?_blank blank front rest
  · intro scanner course between blanks back here leading
    have taken : ∀ kind image,
        Munch.Takes Mode.expression.candidates (blanks ++ back) kind image →
          scanner.tokens.reverse ++ [.place kind image scanner.point] <+: (scan source).tokens := by
      intro kind image takes
      rw [← between, ← here] at takes
      have further : Scanner.Course source (scanner.emit kind image.length) :=
        course.tail (.take takes)
      simpa only [Scanner.emit, List.reverse_cons, takes.image_eq] using further.tokens_prefix
    constructor
    · intro gone
      obtain ⟨more, filled, takes⟩ := leading.takes_script gone
      exact ⟨more, filled, taken _ _ takes⟩
    · exact fun kept => taken _ _ (leading.takes_blank kept)

/-- A vertical tab, which is a blank but no plain one, at the start of a script. -/
example : (scan ['\x7b', '\x0b', 'x', '\x7d']).tokens.map (fun token => (token.kind, token.image)) =
    [(.braceOpen, ['\x7b']), (.expression, ['\x0b', 'x']), (.braceClose, ['\x7d'])] := by
  decide +kernel

end Template
