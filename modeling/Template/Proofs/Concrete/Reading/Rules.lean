import Template.Concrete.Formed

set_option autoImplicit false

namespace Template.Concrete

open Terminal (kind)
open Rule

variable {τ : Type} {α β : Type}

namespace Rule

theorem bind_eq_ok {rule : Rule τ α} {next : α → Rule τ β} {tokens rest : List τ} {result : β} :
    (rule >>= next) tokens = .ok (result, rest) ↔
      ∃ item middle, rule tokens = .ok (item, middle) ∧ next item middle = .ok (result, rest) := by
  cases read : rule tokens with
  | error mismatch =>
    rw [bind_of_error read]
    simp only [reduceCtorEq, false_and, exists_false]
  | ok found =>
    obtain ⟨item, middle⟩ := found
    rw [bind_of_ok read]
    simp only [Except.ok.injEq, Prod.mk.injEq, and_assoc, exists_and_left, exists_eq_left']

theorem bind_eq_error {rule : Rule τ α} {next : α → Rule τ β} {tokens : List τ}
    {mismatch : Mismatch τ} :
    (rule >>= next) tokens = .error mismatch ↔
      rule tokens = .error mismatch ∨
        ∃ item middle, rule tokens = .ok (item, middle) ∧ next item middle = .error mismatch := by
  cases read : rule tokens with
  | error other =>
    rw [bind_of_error read]
    simp only [Except.error.injEq, reduceCtorEq, false_and, exists_false, or_false]
  | ok found =>
    obtain ⟨item, middle⟩ := found
    rw [bind_of_ok read]
    simp only [reduceCtorEq, Except.ok.injEq, Prod.mk.injEq, and_assoc, exists_and_left,
      exists_eq_left', false_or]

theorem pure_eq_ok {item result : α} {tokens rest : List τ} :
    (Pure.pure item : Rule τ α) tokens = .ok (result, rest) ↔ item = result ∧ tokens = rest := by
  change Except.ok (item, tokens) = .ok (result, rest) ↔ _
  simp only [Except.ok.injEq, Prod.mk.injEq]

theorem pure_ne_error {item : α} {tokens : List τ} {mismatch : Mismatch τ} :
    (Pure.pure item : Rule τ α) tokens ≠ .error mismatch := fun failed => nomatch failed

theorem map_eq_ok {rule : Rule τ α} {f : α → β} {tokens rest : List τ} {result : β} :
    (f <$> rule) tokens = .ok (result, rest) ↔
      ∃ item, rule tokens = .ok (item, rest) ∧ f item = result := by
  rw [map_eq_pure_bind, bind_eq_ok]
  simp only [pure_eq_ok]
  constructor
  · rintro ⟨item, _, read, same, rfl⟩
    exact ⟨item, read, same⟩
  · rintro ⟨item, read, same⟩
    exact ⟨item, rest, read, same, rfl⟩

/-- A loop reads nothing where it stops at once. -/
theorem many_eq_nil {starts : List τ → Bool} {rule : Rule τ α} {takes : Takes rule}
    {tokens rest : List τ} :
    many starts rule takes tokens = .ok ([], rest) ↔ starts tokens = false ∧ tokens = rest := by
  cases go : starts tokens with
  | false => simp only [many_of_stop takes go, Except.ok.injEq, Prod.mk.injEq, true_and]
  | true =>
    simp only [reduceCtorEq, false_and, iff_false]
    intro read
    cases first : rule tokens with
    | error mismatch => rw [many_of_error takes go first] at read; cases read
    | ok found =>
      rw [many_of_ok takes go first] at read
      split at read <;> cases read

/-- A loop reads a first item, and then the others. -/
theorem many_eq_cons {starts : List τ → Bool} {rule : Rule τ α} {takes : Takes rule}
    {tokens rest : List τ} {item : α} {items : List α} :
    many starts rule takes tokens = .ok (item :: items, rest) ↔
      starts tokens = true ∧ ∃ middle, rule tokens = .ok (item, middle) ∧
        many starts rule takes middle = .ok (items, rest) := by
  cases go : starts tokens with
  | false => simp only [many_of_stop takes go, Except.ok.injEq, Prod.mk.injEq, reduceCtorEq,
      false_and]
  | true =>
    cases first : rule tokens with
    | error mismatch => simp only [many_of_error takes go first, reduceCtorEq, false_and,
        exists_false, and_false]
    | ok found =>
      obtain ⟨other, middle⟩ := found
      rw [many_of_ok takes go first]
      simp only [Except.ok.injEq, Prod.mk.injEq, true_and]
      constructor
      · intro read
        split at read
        · cases read
        · next others left later =>
          cases read
          exact ⟨middle, ⟨rfl, rfl⟩, later⟩
      · rintro ⟨_, ⟨rfl, rfl⟩, later⟩
        simp only [later]

variable [Terminal τ]

theorem peek_bind (next : Option Kind → Rule τ α) (tokens : List τ) :
    (peek >>= next) tokens = next (kind? tokens) tokens := rfl

theorem expect_eq_ok {wanted : Kind} {tokens rest : List τ} {token : τ} :
    expect wanted tokens = .ok (token, rest) ↔ tokens = token :: rest ∧ kind token = wanted := by
  constructor
  · intro read
    unfold expect at read
    split at read
    · cases read
    · split at read
      · next same =>
        cases read
        exact ⟨rfl, same⟩
      · cases read
  · rintro ⟨rfl, same⟩
    exact expect_of_kind rest same

@[simp] theorem kind?_cons (token : τ) (rest : List τ) :
    kind? (token :: rest) = some (kind token) := rfl

theorem expect_eq_error {wanted : Kind} {tokens : List τ} {mismatch : Mismatch τ} :
    expect wanted tokens = .error mismatch ↔
      kind? tokens ≠ some wanted ∧ mismatch = ⟨.token wanted, tokens⟩ := by
  cases tokens with
  | nil => simp only [expect, kind?, List.head?_nil, Option.map_none, ne_eq, reduceCtorEq,
      not_false_eq_true, true_and, Except.error.injEq, eq_comm]
  | cons token rest =>
    by_cases same : kind token = wanted
    · simp only [expect, same, ↓reduceIte, reduceCtorEq, kind?_cons, ne_eq, not_true_eq_false,
        false_and]
    · simp only [expect, same, ↓reduceIte, Except.error.injEq, kind?_cons, ne_eq,
        Option.some.injEq, not_false_eq_true, true_and]
      exact eq_comm

theorem accept_eq_ok {wanted : Kind} {tokens rest : List τ} {token : Option τ} :
    accept wanted tokens = .ok (token, rest) ↔
      tokens = token.toList ++ rest ∧ IfAny wanted token ∧
        (token = none → kind? rest ≠ some wanted) := by
  cases tokens with
  | nil =>
    cases token with
    | none =>
      simp only [accept, Except.ok.injEq, Prod.mk.injEq, true_and, Option.toList_none,
        List.nil_append, ifAny_none, forall_const]
      constructor
      · rintro rfl
        exact ⟨rfl, (Option.some_ne_none wanted).symm⟩
      · rintro ⟨rfl, -⟩
        rfl
    | some token =>
      simp only [accept, Except.ok.injEq, Prod.mk.injEq, reduceCtorEq, false_and,
        Option.toList_some, List.singleton_append]
  | cons first others =>
    by_cases same : kind first = wanted
    · cases token with
      | none =>
        simp only [accept, same, ↓reduceIte, Except.ok.injEq, Prod.mk.injEq, reduceCtorEq,
          false_and, Option.toList_none, List.nil_append, false_iff]
        rintro ⟨rfl, -, other⟩
        exact other trivial (congrArg some same)
      | some token =>
        simp only [accept, same, ↓reduceIte, Except.ok.injEq, Prod.mk.injEq, Option.some.injEq,
          Option.toList_some, List.singleton_append, List.cons.injEq, ifAny_some, reduceCtorEq,
          false_implies, and_true]
        constructor
        · rintro ⟨rfl, rfl⟩
          exact ⟨⟨rfl, rfl⟩, same⟩
        · rintro ⟨⟨rfl, rfl⟩, -⟩
          exact ⟨rfl, rfl⟩
    · cases token with
      | none =>
        simp only [accept, same, ↓reduceIte, Except.ok.injEq, Prod.mk.injEq, true_and,
          Option.toList_none, List.nil_append, ifAny_none, forall_const]
        constructor
        · rintro rfl
          exact ⟨rfl, fun other => same (Option.some.inj other)⟩
        · rintro ⟨rfl, -⟩
          rfl
      | some token =>
        simp only [accept, same, ↓reduceIte, Except.ok.injEq, Prod.mk.injEq, reduceCtorEq,
          false_and, Option.toList_some, List.singleton_append, List.cons.injEq, ifAny_some,
          false_iff]
        rintro ⟨⟨rfl, -⟩, here, -⟩
        exact same here

/-- Where the next token is of another kind there is no token to accept. -/
theorem kind?_ne_of_kind {token : τ} {first second : Kind} (rest : List τ)
    (same : kind token = first) (other : first ≠ second) :
    kind? (token :: rest) ≠ some second := by
  rw [kind?_cons, same]
  exact fun equal => other (Option.some.inj equal)

theorem accept_ne_error {wanted : Kind} {tokens : List τ} {mismatch : Mismatch τ} :
    accept wanted tokens ≠ .error mismatch := by
  unfold accept
  split
  · exact fun failed => nomatch failed
  · split <;> exact fun failed => nomatch failed

end Rule

variable [Terminal τ]

theorem braced_eq_ok {tokens rest : List τ} {script : Braced τ} :
    braced tokens = .ok (script, rest) ↔ tokens = script.yield ++ rest ∧ script.Formed := by
  simp only [braced, bind_eq_ok, expect_eq_ok, accept_eq_ok, pure_eq_ok, Braced.yield_append]
  constructor
  · rintro ⟨opening, _, ⟨rfl, first⟩, blank, _, ⟨rfl, second, -⟩, content, _, ⟨rfl, third⟩,
      closing, _, ⟨rfl, last⟩, rfl, rfl⟩
    exact ⟨rfl, first, second, third, last⟩
  · rintro ⟨rfl, formed⟩
    refine ⟨_, _, ⟨rfl, formed.opening⟩, _, _, ⟨rfl, formed.blank, fun _ => ?_⟩, _, _,
      ⟨rfl, formed.content⟩, _, _, ⟨rfl, formed.closing⟩, rfl, rfl⟩
    exact kind?_ne_of_kind _ formed.content (by decide)

/-- What comes after the blank of a marker is neither a blank nor, where there is no script, a
script. -/
theorem marker_eq_ok {sigil : Sigil} {tokens rest : List τ} {marker : Marker τ} :
    Concrete.marker sigil tokens = .ok (marker, rest) ↔
      tokens = marker.yield ++ rest ∧ marker.Formed sigil := by
  simp only [Concrete.marker, bind_eq_ok, expect_eq_ok, accept_eq_ok, pure_eq_ok,
    Marker.yield_append]
  constructor
  · rintro ⟨opening, _, ⟨rfl, first⟩, name, _, ⟨rfl, second⟩, blank, _, ⟨rfl, third, -⟩, script, _,
      ⟨rfl, fourth, -⟩, closing, _, ⟨rfl, last⟩, rfl, rfl⟩
    exact ⟨rfl, first, second, third, fourth, last⟩
  · rintro ⟨rfl, formed⟩
    refine ⟨_, _, ⟨rfl, formed.opening⟩, _, _, ⟨rfl, formed.name⟩, _, _,
      ⟨rfl, formed.blank, fun _ => ?_⟩, _, _, ⟨rfl, formed.script, fun _ => ?_⟩, _, _,
      ⟨rfl, formed.closing⟩, rfl, rfl⟩
    · cases found : marker.script with
      | none => exact kind?_ne_of_kind _ formed.closing (by decide)
      | some script => exact kind?_ne_of_kind _ (formed.script script found) (by decide)
    · exact kind?_ne_of_kind _ formed.closing (by decide)

theorem blockEnd_eq_ok {tokens rest : List τ} {finish : BlockEnd τ} :
    blockEnd tokens = .ok (finish, rest) ↔ tokens = finish.yield ++ rest ∧ finish.Formed := by
  simp only [blockEnd, bind_eq_ok, expect_eq_ok, accept_eq_ok, pure_eq_ok, BlockEnd.yield_append]
  constructor
  · rintro ⟨opening, _, ⟨rfl, first⟩, name, _, ⟨rfl, second⟩, blank, _, ⟨rfl, third, -⟩, closing, _,
      ⟨rfl, last⟩, rfl, rfl⟩
    exact ⟨rfl, first, second, third, last⟩
  · rintro ⟨rfl, formed⟩
    refine ⟨_, _, ⟨rfl, formed.opening⟩, _, _, ⟨rfl, formed.name⟩, _, _,
      ⟨rfl, formed.blank, fun _ => ?_⟩, _, _, ⟨rfl, formed.closing⟩, rfl, rfl⟩
    exact kind?_ne_of_kind _ formed.closing (by decide)

theorem closeTag_eq_ok {tokens rest : List τ} {close : CloseTag τ} :
    closeTag tokens = .ok (close, rest) ↔ tokens = close.yield ++ rest ∧ close.Formed := by
  simp only [closeTag, bind_eq_ok, expect_eq_ok, accept_eq_ok, pure_eq_ok, CloseTag.yield_append]
  constructor
  · rintro ⟨opening, _, ⟨rfl, first⟩, blank, _, ⟨rfl, second, -⟩, angle, _, ⟨rfl, last⟩, rfl, rfl⟩
    exact ⟨rfl, first, second, last⟩
  · rintro ⟨rfl, formed⟩
    refine ⟨_, _, ⟨rfl, formed.opening⟩, _, _, ⟨rfl, formed.blank, fun _ => ?_⟩, _, _,
      ⟨rfl, formed.angle⟩, rfl, rfl⟩
    exact kind?_ne_of_kind _ formed.angle (by decide)

/-- A closing tag that was begun fails where its angle bracket should be. -/
theorem eq_of_closeTag_error {opening : τ} {rest : List τ} {mismatch : Mismatch τ}
    (closer : kind opening = .closeTag) (failed : closeTag (opening :: rest) = .error mismatch) :
    ∃ blank : Option τ, IfAny .blank blank ∧ rest = blank.toList ++ mismatch.rest ∧
      kind? mismatch.rest ≠ some .angle ∧ mismatch.expected = .token .angle := by
  rw [closeTag, bind_of_ok (expect_of_kind _ closer)] at failed
  simp only [bind_eq_error, expect_eq_error, accept_eq_ok,
    accept_ne_error, pure_ne_error, false_or, and_false, exists_false, or_false] at failed
  obtain ⟨blank, _, ⟨rfl, blanks, -⟩, other, rfl⟩ := failed
  exact ⟨blank, blanks, rfl, other, rfl⟩

/-- The end of a block that was begun fails where its brace should be. -/
theorem eq_of_blockEnd_error {opening name : τ} {rest : List τ} {mismatch : Mismatch τ}
    (brace : kind opening = .braceOpen) (closer : kind name = .block .closing)
    (failed : blockEnd (opening :: name :: rest) = .error mismatch) :
    ∃ blank : Option τ, IfAny .blank blank ∧ rest = blank.toList ++ mismatch.rest ∧
      kind? mismatch.rest ≠ some .braceClose ∧
      mismatch.expected = .token .braceClose := by
  rw [blockEnd, bind_of_ok (expect_of_kind _ brace), bind_of_ok (expect_of_kind _ closer)] at failed
  simp only [bind_eq_error, expect_eq_error, accept_eq_ok,
    accept_ne_error, pure_ne_error, false_or, and_false, exists_false, or_false] at failed
  obtain ⟨blank, _, ⟨rfl, blanks, -⟩, other, rfl⟩ := failed
  exact ⟨blank, blanks, rfl, other, rfl⟩

/-- A marker that was begun fails where its brace should be. -/
theorem eq_of_marker_error {sigil : Sigil} {opening name : τ} {rest : List τ}
    {mismatch : Mismatch τ} (brace : kind opening = .braceOpen) (named : kind name = .block sigil)
    (failed : Concrete.marker sigil (opening :: name :: rest) = .error mismatch) :
    ∃ blank script : Option τ, IfAny .blank blank ∧ IfAny .expression script ∧
      rest = blank.toList ++ (script.toList ++ mismatch.rest) ∧
      kind? mismatch.rest ≠ some .braceClose ∧
      mismatch.expected = .token .braceClose := by
  rw [Concrete.marker, bind_of_ok (expect_of_kind _ brace), bind_of_ok (expect_of_kind _ named)]
    at failed
  simp only [bind_eq_error, expect_eq_error, accept_eq_ok,
    accept_ne_error, pure_ne_error, false_or, and_false, exists_false, or_false] at failed
  obtain ⟨blank, _, ⟨rfl, blanks, -⟩, script, _, ⟨rfl, scripts, -⟩, other, rfl⟩ := failed
  exact ⟨blank, script, blanks, scripts, rfl, other, rfl⟩

theorem modifier_eq_ok {tokens rest : List τ} {modifier : Modifier τ} :
    Concrete.modifier tokens = .ok (modifier, rest) ↔
      tokens = modifier.yield ++ rest ∧ modifier.Formed := by
  simp only [Concrete.modifier, bind_eq_ok, expect_eq_ok, pure_eq_ok]
  constructor
  · rintro ⟨pipe, _, ⟨rfl, first⟩, name, _, ⟨rfl, last⟩, rfl, rfl⟩
    exact ⟨rfl, first, last⟩
  · rintro ⟨rfl, formed⟩
    exact ⟨_, _, ⟨rfl, formed.pipe⟩, _, _, ⟨rfl, formed.name⟩, rfl, rfl⟩

end Template.Concrete
