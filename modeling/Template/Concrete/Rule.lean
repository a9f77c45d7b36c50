import Template.Concrete
import Template.Token

set_option autoImplicit false

namespace Template

/-- What the grammar sees of a token: its kind, the element name of a tag in small letters, and the
name of a block. -/
class Terminal (τ : Type) where
  kind : τ → Kind
  tagName : τ → Text
  blockName : τ → Text

instance : Terminal Token where
  kind := Token.kind
  tagName token := token.tagName.lower
  blockName := Token.blockName

namespace Concrete

open Terminal (kind)

variable {τ : Type} {α β : Type}

/-- What a rule waits for. -/
inductive Expected where
  | token (kind : Kind)
  /-- The end of an opening tag. -/
  | tagEnd
  /-- The start of any child. -/
  | content
deriving DecidableEq, Repr

/-- How a rule failed: what it waited for, and the tokens that were left. -/
structure Mismatch (τ : Type) where
  expected : Expected
  rest : List τ
deriving DecidableEq, Repr

abbrev Rule (τ α : Type) := StateT (List τ) (Except (Mismatch τ)) α

namespace Rule

/-- The tokens that are left after a rule, whether it succeeded or failed. -/
def left : Except (Mismatch τ) (α × List τ) → List τ
  | .ok (_, rest) => rest
  | .error mismatch => mismatch.rest

/-- A rule leaves an end of the tokens it was given, also where it fails. -/
def Shrinks (rule : Rule τ α) : Prop := ∀ tokens, left (rule tokens) <:+ tokens

theorem Shrinks.length_le {rule : Rule τ α} (shrinks : Shrinks rule) (tokens : List τ) :
    (left (rule tokens)).length ≤ tokens.length := (shrinks tokens).length_le

/-- A rule that succeeds takes at least one token. -/
def Takes (rule : Rule τ α) : Prop :=
  ∀ tokens item rest, rule tokens = .ok (item, rest) → rest.length < tokens.length

theorem bind_of_ok {rule : Rule τ α} {next : α → Rule τ β} {tokens : List τ} {item : α}
    {rest : List τ} (read : rule tokens = .ok (item, rest)) :
    (rule >>= next) tokens = next item rest := by
  simp only [Bind.bind, StateT.bind, read, Except.bind]

theorem bind_of_error {rule : Rule τ α} {next : α → Rule τ β} {tokens : List τ}
    {mismatch : Mismatch τ} (failed : rule tokens = .error mismatch) :
    (rule >>= next) tokens = .error mismatch := by
  simp only [Bind.bind, StateT.bind, failed, Except.bind]

theorem Shrinks.pure (item : α) : Shrinks (Pure.pure item : Rule τ α) :=
  fun _ => List.suffix_refl _

theorem Shrinks.bind {rule : Rule τ α} {next : α → Rule τ β} (front : Shrinks rule)
    (back : ∀ item, Shrinks (next item)) : Shrinks (rule >>= next) := by
  intro tokens
  have ahead := front tokens
  cases read : rule tokens with
  | error mismatch => simpa only [bind_of_error read, read, left] using ahead
  | ok found =>
    rw [read] at ahead
    rw [bind_of_ok read]
    exact (back found.1 found.2).trans ahead

theorem Shrinks.map {rule : Rule τ α} (f : α → β) (front : Shrinks rule) :
    Shrinks (f <$> rule) := by
  rw [map_eq_pure_bind]
  exact front.bind fun item => .pure (f item)

theorem Takes.bind {rule : Rule τ α} {next : α → Rule τ β} (front : Takes rule)
    (back : ∀ item, Shrinks (next item)) : Takes (rule >>= next) := by
  intro tokens item rest read
  cases first : rule tokens with
  | error mismatch => rw [bind_of_error first] at read; cases read
  | ok found =>
    rw [bind_of_ok first] at read
    have behind := (back found.1).length_le found.2
    rw [read] at behind
    exact Nat.lt_of_le_of_lt behind (front tokens found.1 found.2 first)

theorem Takes.after {rule : Rule τ α} {next : α → Rule τ β} (front : Shrinks rule)
    (back : ∀ item, Takes (next item)) : Takes (rule >>= next) := by
  intro tokens item rest read
  cases first : rule tokens with
  | error mismatch => rw [bind_of_error first] at read; cases read
  | ok found =>
    rw [bind_of_ok first] at read
    have ahead := front.length_le tokens
    rw [first] at ahead
    exact Nat.lt_of_lt_of_le (back found.1 found.2 item rest read) ahead

theorem Takes.map {rule : Rule τ α} (f : α → β) (front : Takes rule) : Takes (f <$> rule) := by
  rw [map_eq_pure_bind]
  exact front.bind fun item => .pure (f item)

/-- Given a certain first token a rule leaves fewer tokens than it was given, even if it fails. -/
def Commits (rule : Rule τ α) (token : τ) : Prop :=
  ∀ rest, (left (rule (token :: rest))).length < (token :: rest).length

theorem Commits.bind {rule : Rule τ α} {next : α → Rule τ β} {token : τ}
    (front : Commits rule token) (back : ∀ item, Shrinks (next item)) :
    Commits (rule >>= next) token := by
  intro rest
  have ahead := front rest
  cases read : rule (token :: rest) with
  | error mismatch => simpa only [bind_of_error read, read, left] using ahead
  | ok found =>
    rw [read] at ahead
    rw [bind_of_ok read]
    exact Nat.lt_of_le_of_lt ((back found.1).length_le found.2) ahead

theorem Commits.map {rule : Rule τ α} {token : τ} (f : α → β) (front : Commits rule token) :
    Commits (f <$> rule) token := by
  rw [map_eq_pure_bind]
  exact front.bind fun item => .pure (f item)

def fail (expected : Expected) : Rule τ α := fun tokens => .error ⟨expected, tokens⟩

theorem fail_shrinks (expected : Expected) : Shrinks (fail expected : Rule τ α) :=
  fun _ => List.suffix_refl _

section Terminal

variable [Terminal τ]

def kind? (tokens : List τ) : Option Kind := tokens.head?.map kind

def peek : Rule τ (Option Kind) := fun tokens => .ok (kind? tokens, tokens)

def expect (wanted : Kind) : Rule τ τ := fun tokens =>
  match tokens with
  | [] => .error ⟨.token wanted, []⟩
  | token :: rest =>
    if kind token = wanted then .ok (token, rest) else .error ⟨.token wanted, token :: rest⟩

def accept (wanted : Kind) : Rule τ (Option τ) := fun tokens =>
  match tokens with
  | [] => .ok (none, [])
  | token :: rest =>
    if kind token = wanted then .ok (some token, rest) else .ok (none, token :: rest)

theorem peek_shrinks : Shrinks (peek : Rule τ _) := fun _ => List.suffix_refl _

theorem expect_shrinks (wanted : Kind) : Shrinks (expect wanted : Rule τ τ) := by
  intro tokens
  unfold expect
  split
  · exact List.suffix_refl _
  · split
    · exact List.suffix_cons _ _
    · exact List.suffix_refl _

theorem expect_takes (wanted : Kind) : Takes (expect wanted : Rule τ τ) := by
  intro tokens item rest read
  unfold expect at read
  split at read
  · cases read
  · split at read
    · cases read
      exact Nat.lt_succ_self _
    · cases read

theorem accept_shrinks (wanted : Kind) : Shrinks (accept wanted : Rule τ (Option τ)) := by
  intro tokens
  unfold accept
  split
  · exact List.suffix_refl _
  · split
    · exact List.suffix_cons _ _
    · exact List.suffix_refl _

theorem expect_of_kind {wanted : Kind} {token : τ} (rest : List τ) (same : kind token = wanted) :
    expect wanted (token :: rest) = .ok (token, rest) := by
  simp only [expect, same, ↓reduceIte]

theorem Commits.expect {wanted : Kind} {token : τ} (same : kind token = wanted) :
    Commits (expect wanted) token := by
  intro rest
  rw [expect_of_kind rest same]
  exact Nat.lt_succ_self _

end Terminal

section Many

/-- Repeats a rule for as long as the next tokens can start it. -/
def many (starts : List τ → Bool) (rule : Rule τ α) (takes : Takes rule) (tokens : List τ) :
    Except (Mismatch τ) (List α × List τ) :=
  if starts tokens then
    match read : rule tokens with
    | .error mismatch => .error mismatch
    | .ok (item, rest) =>
      have := takes tokens item rest read
      match many starts rule takes rest with
      | .error mismatch => .error mismatch
      | .ok (items, rest) => .ok (item :: items, rest)
  else .ok ([], tokens)
termination_by tokens.length

theorem many_of_stop {starts : List τ → Bool} {rule : Rule τ α} (takes : Takes rule)
    {tokens : List τ} (stop : starts tokens = false) :
    many starts rule takes tokens = .ok ([], tokens) := by
  rw [many]
  simp only [stop, Bool.false_eq_true, ↓reduceIte]

theorem many_of_error {starts : List τ → Bool} {rule : Rule τ α} (takes : Takes rule)
    {tokens : List τ} {mismatch : Mismatch τ} (go : starts tokens = true)
    (failed : rule tokens = .error mismatch) :
    many starts rule takes tokens = .error mismatch := by
  rw [many]
  simp only [go, ↓reduceIte]
  split
  · next other => rw [failed] at other; cases other; rfl
  · next other => rw [failed] at other; cases other

theorem many_of_ok {starts : List τ → Bool} {rule : Rule τ α} (takes : Takes rule)
    {tokens rest : List τ} {item : α} (go : starts tokens = true)
    (read : rule tokens = .ok (item, rest)) :
    many starts rule takes tokens =
      match many starts rule takes rest with
      | .error mismatch => .error mismatch
      | .ok (items, rest) => .ok (item :: items, rest) := by
  rw [many]
  simp only [go, ↓reduceIte]
  split
  · next other => rw [read] at other; cases other
  · next other => rw [read] at other; cases other; rfl

theorem many_shrinks (starts : List τ → Bool) {rule : Rule τ α} (takes : Takes rule)
    (shrinks : Shrinks rule) : Shrinks (many starts rule takes) := by
  intro tokens
  cases go : starts tokens with
  | false => rw [many_of_stop takes go]; exact List.suffix_refl _
  | true =>
    have ahead := shrinks tokens
    cases read : rule tokens with
    | error mismatch =>
      rw [read] at ahead
      rw [many_of_error takes go read]
      exact ahead
    | ok found =>
      have shorter := takes tokens found.1 found.2 read
      have behind := many_shrinks starts takes shrinks found.2
      rw [read] at ahead
      rw [many_of_ok takes go read]
      revert behind
      cases many starts rule takes found.2 <;>
        exact fun behind => behind.trans ahead
termination_by tokens => tokens.length

end Many

end Rule

end Concrete

end Template
