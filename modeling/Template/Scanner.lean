import Template.Machine
import Template.Munch
import Template.Token

set_option autoImplicit false

/-!
Scanning: from a source to its tokens. At each place the longest token that the current mode allows
is taken. Characters that begin no token are passed over, and each run of them is one fault. Two
searches that would fail at every later place are not repeated: one for the end of a comment and
one for the end tag of a raw element.
-/

namespace Template

/-- A run of characters that begin no token. -/
structure Skipped where
  start : Point
  char : Char
  count : Nat
deriving DecidableEq, Repr

/-- What can be wrong with a source before any grammar. -/
inductive LexicalFault where
  /-- Characters that begin no token. -/
  | skipped (run : Skipped)
  /-- The source ends inside something. -/
  | unfinished (mode : Mode) (finish : Point)
deriving DecidableEq, Repr

/-- Where a scan stands. Tokens and faults are kept the latest first. -/
structure Scanner where
  rest : Text
  point : Point
  modes : ModeStack
  tokens : List Token
  faults : List LexicalFault
  /-- The run of characters just passed over. -/
  skipped : Option Skipped
  /-- An offset after which no end of a comment comes, once one is known. -/
  noCommentEnd : Option Nat
deriving DecidableEq, Repr

structure Scanned where
  tokens : List Token
  faults : List LexicalFault
deriving DecidableEq, Repr

namespace Scanner

/-- A scan of a whole source, at its start. -/
def start (source : Text) : Scanner := ⟨source, .origin, .initial, [], [], none, none⟩

/-- The offset at which the body of a comment would begin that is opened here. -/
def commentBody (scanner : Scanner) : Nat := scanner.point.offset + 4

/-- Whether it is known that no end follows for a comment that is opened here. -/
def endless (scanner : Scanner) : Bool :=
  match scanner.noCommentEnd with
  | none => false
  | some offset => offset ≤ scanner.commentBody

def lengthOf (scanner : Scanner) (kind : Kind) : Nat :=
  if kind = .comment ∧ scanner.endless = true then 0 else Munch.length kind scanner.rest

def longest? (scanner : Scanner) : Option (Kind × Nat) :=
  Munch.longest? scanner.lengthOf scanner.modes.top.candidates

/-- What is known of comment ends after this place was looked at. -/
def learn (scanner : Scanner) : Option Nat :=
  if scanner.modes.top = .content ∧ scanner.endless = false ∧
      (Munch.commentBody? scanner.rest).isSome = true ∧ Munch.commentLength scanner.rest = 0 then
    some scanner.commentBody
  else scanner.noCommentEnd

/-- The faults with the run just passed over, if there is one. -/
def settled (scanner : Scanner) : List LexicalFault :=
  match scanner.skipped with
  | none => scanner.faults
  | some run => .skipped run :: scanner.faults

def emit (scanner : Scanner) (kind : Kind) (count : Nat) : Scanner :=
  let image := scanner.rest.take count
  { scanner with
    rest := scanner.rest.drop count
    point := scanner.point.walk image
    modes := scanner.modes.apply kind.transition
    tokens := .place kind image scanner.point :: scanner.tokens
    faults := scanner.settled
    skipped := none }

/-- The run just passed over with more characters, or a new run at this place. -/
def extend (scanner : Scanner) (char : Char) (count : Nat) : Skipped :=
  match scanner.skipped with
  | none => ⟨scanner.point, char, count⟩
  | some run => { run with count := run.count + count }

/-- Passes over a character and over more text that follows it. -/
def skip (scanner : Scanner) (char : Char) (more rest : Text) : Scanner :=
  { scanner with
    rest
    point := (scanner.point.next char).walk more
    skipped := some (scanner.extend char (more.length + 1)) }

/-- One step of a scan. In the content of a raw element whose end tag does not come, the rest of
the source is passed over at once. -/
def step (scanner : Scanner) : Option Scanner :=
  match scanner.rest with
  | [] => none
  | char :: rest =>
    let known := { scanner with noCommentEnd := scanner.learn }
    match scanner.longest? with
    | some (kind, count) => some (known.emit kind count)
    | none =>
      if scanner.modes.top.isRaw then some (known.skip char rest [])
      else some (known.skip char [] rest)

/-- Each step takes at least one character. -/
theorem step_shorter (before after : Scanner) (taken : before.step = some after) :
    after.rest.length < before.rest.length := by
  unfold step at taken
  split at taken
  · cases taken
  · next char rest here =>
    split at taken
    · next kind count chosen =>
      cases taken
      have := (Munch.longest?_pos _ _ _ _ chosen).2
      simp only [emit, here, List.length_drop, List.length_cons]
      omega
    · split at taken
      · cases taken
        simp only [skip, here, List.length_nil, List.length_cons]
        omega
      · cases taken
        simp only [skip, here, List.length_cons]
        omega

def machine : Machine Scanner := ⟨step, fun scanner => scanner.rest.length, step_shorter⟩

/-- What was found, in the order of the source, at the end of a scan. A source that ends inside
something has one more fault. -/
def result (scanner : Scanner) : Scanned where
  tokens := scanner.tokens.reverse
  faults :=
    match scanner.modes.below with
    | [] => scanner.settled.reverse
    | _ :: _ => (.unfinished scanner.modes.top scanner.point :: scanner.settled).reverse

end Scanner

/-- The tokens of a source and what is wrong with it. -/
def scan (source : Text) : Scanned := (Scanner.machine.exhaust (.start source)).result

end Template
