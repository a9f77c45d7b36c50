import Template.Proofs.Scan.Arrangement

set_option autoImplicit false

namespace Template

/-- Of some kinds no two neighbours are the same, and a given kind comes first. -/
structure Kind.Alternate (first : Kind) (kinds : List Kind) : Prop where
  starts : ∀ kind ∈ kinds.head?, kind = first
  turns : kinds.IsChain (· ≠ ·)

theorem Kind.Alternate.concat {first next : Kind} {kinds : List Kind}
    (alternate : Alternate first kinds) (begins : kinds = [] → next = first)
    (other : kinds.getLast? ≠ some next) : Alternate first (kinds ++ [next]) where
  starts := by
    cases kinds with
    | nil =>
      rintro _ ⟨⟩
      exact begins rfl
    | cons => exact alternate.starts
  turns := by
    refine List.isChain_append.mpr ⟨alternate.turns, .singleton _, ?_⟩
    rintro last here _ ⟨⟩ rfl
    exact other here

/-- What stands between two tokens of its own: a script in braces or a value in quotes. -/
inductive Bracket where
  | braces
  | quotes (quote : Quote)

namespace Bracket

open ModeStack

def opener : Bracket → Kind
  | braces => .braceOpen
  | quotes quote => .quoteOpen quote

def closer : Bracket → Kind
  | braces => .braceClose
  | quotes quote => .quoteClose quote

def mode : Bracket → Mode
  | braces => .expression
  | quotes quote => .quoted quote

def marks (bracket : Bracket) (kinds : List Kind) : List Kind :=
  kinds.filter fun kind => kind = bracket.opener ∨ kind = bracket.closer

variable (bracket : Bracket) {stack : ModeStack} {kind : Kind}

theorem entered_iff : bracket.mode ∈ kind.transition.entered? ↔ kind = bracket.opener := by
  cases bracket <;> cases kind <;> simp [mode, opener, Kind.transition, Transition.entered?, eq_comm]

theorem endedBy_iff : bracket.mode.EndedBy kind ↔ kind = bracket.closer := by
  constructor
  · intro ended
    cases bracket <;> cases ended <;> rfl
  · rintro rfl
    cases bracket <;> constructor

theorem eq_mode_of_closer {top : Mode} (admits : top.Admits bracket.closer) :
    top = bracket.mode := by
  have leaves : bracket.closer.transition.leaves = true := by cases bracket <;> rfl
  have ended := admits.leaves_iff.mp leaves
  cases bracket <;> cases ended <;> rfl

/-- A bracket is open after its opening token and until its closing token. -/
theorem mem_apply (arranged : stack.Arranged) (admits : stack.top.Admits kind) :
    bracket.mode ∈ (stack.apply kind.transition).modes ↔
      kind = bracket.opener ∨ bracket.mode ∈ stack.modes ∧ kind ≠ bracket.closer := by
  have closes : stack.top = bracket.mode ∧ kind.transition.leaves = true ↔ kind = bracket.closer := by
    constructor
    · rintro ⟨top, leaves⟩
      exact bracket.endedBy_iff.mp (top ▸ admits.leaves_iff.mp leaves)
    · rintro rfl
      have top := bracket.eq_mode_of_closer admits
      refine ⟨top, admits.leaves_iff.mpr ?_⟩
      exact top ▸ bracket.endedBy_iff.mpr rfl
  rw [arranged.mem_apply admits, entered_iff, closes]

/-- A bracket that is opened was not open. -/
theorem not_mem_of_opener (arranged : stack.Arranged) (admits : stack.top.Admits bracket.opener) :
    bracket.mode ∉ stack.modes := by
  have opened := (arranged.apply admits).nodup
  have shape : stack.apply bracket.opener.transition = stack.push bracket.mode := by
    cases bracket <;> rfl
  rw [shape] at opened
  exact (List.nodup_cons.mp opened).1

theorem marks_concat (kinds : List Kind) :
    bracket.marks (kinds ++ [kind]) =
      bracket.marks kinds ++ if kind = bracket.opener ∨ kind = bracket.closer then [kind] else [] := by
  rw [marks, List.filter_append]
  split <;> simp [marks, *]

/-- Along the tokens of a scan the two tokens of a bracket take turns, and it is open where the
opening one came last. -/
theorem alternate {kinds : List Kind} (admitted : Kind.Admitted kinds) :
    Kind.Alternate bracket.opener (bracket.marks kinds) ∧
      (bracket.mode ∈ (initial.through kinds).modes ↔
        (bracket.marks kinds).getLast? = some bracket.opener) := by
  induction kinds using List.reverseRecOn with
  | nil =>
    refine ⟨⟨fun _ => nofun, .nil⟩, ?_⟩
    cases bracket <;> simp [mode, modes, initial, marks]
  | append_singleton kinds kind ih =>
    obtain ⟨turns, opened⟩ := ih admitted.front
    have arranged := admitted.front.arranged
    have admits := admitted kinds kind [] rfl
    rw [Kind.Admitted.through_concat, bracket.mem_apply arranged admits, marks_concat]
    by_cases opens : kind = bracket.opener
    · subst opens
      have closed := bracket.not_mem_of_opener arranged admits
      rw [if_pos (.inl rfl)]
      exact ⟨turns.concat (fun _ => rfl) (closed ∘ opened.mpr), by simp⟩
    by_cases closes : kind = bracket.closer
    · subst closes
      have last := opened.mp (bracket.eq_mode_of_closer admits ▸ List.mem_cons_self)
      rw [if_pos (.inr rfl)]
      refine ⟨turns.concat (fun empty => ?_) (fun closed => ?_), by simp [opens]⟩
      · rw [empty] at last
        cases last
      · exact opens (Option.some.inj (closed.symm.trans last))
    · rw [if_neg (not_or.mpr ⟨opens, closes⟩), List.append_nil]
      exact ⟨turns, by simp [opens, closes, opened]⟩

end Bracket

/-- Whether tokens of this kind stand between tags, or open one. -/
def Kind.outer : Kind → Bool
  | text | comment | openTag | closeTag | rawOpen _ => true
  | _ => false

/-- The mode from the opening of a tag to its end. -/
def Kind.tagMode? : Kind → Option Mode
  | openTag | closeTag => some .tag
  | rawOpen element => some (.rawTag element)
  | _ => none

/-- After the opening of a tag and before a token that ends it comes nothing that stands between
tags, and the first token that ends a tag ends this one. -/
def Kind.TagsApart (kinds : List Kind) : Prop :=
  ∀ front opener middle next back mode, kinds = front ++ opener :: (middle ++ next :: back) →
    opener.tagMode? = some mode → (∀ kind ∈ middle, ¬mode.EndedBy kind) →
      next.outer = false ∧ ∀ other : Mode, other.InTag → other.EndedBy next → mode.EndedBy next

namespace Kind

open ModeStack

variable {kind : Kind} {mode : Mode}

theorem inTag_of_tagMode? (opens : kind.tagMode? = some mode) :
    mode.InTag ∧ kind.transition = .push mode := by
  cases kind <;> cases opens
  case openTag => exact ⟨.tag, rfl⟩
  case closeTag => exact ⟨.tag, rfl⟩
  case rawOpen element => exact ⟨.rawTag element, rfl⟩

/-- A mode that is open stays open along tokens that do not end it. -/
theorem Admitted.mem_through {front : List Kind} (middle : List Kind)
    (admitted : Admitted (front ++ middle)) (inside : mode ∈ (initial.through front).modes)
    (kept : ∀ kind ∈ middle, ¬mode.EndedBy kind) :
    mode ∈ (initial.through (front ++ middle)).modes := by
  induction middle using List.reverseRecOn with
  | nil => rwa [List.append_nil]
  | append_singleton middle kind ih =>
    rw [← List.append_assoc] at admitted ⊢
    obtain ⟨others, last⟩ := List.forall_mem_append.mp kept
    have admits := admitted (front ++ middle) kind [] rfl
    rw [through_concat]
    refine (admitted.front.arranged.mem_apply admits mode).mpr (.inr ⟨ih admitted.front others, ?_⟩)
    rintro ⟨rfl, leaves⟩
    exact List.forall_mem_singleton.mp last (admits.leaves_iff.mp leaves)

/-- Between tags is where the mode is that of content. -/
theorem eq_content_of_outer (admits : mode.Admits kind) (outer : kind.outer = true) :
    mode = .content := by
  cases admits with
  | text | comment | openTag | closeTag | rawOpen => rfl
  | entry inTag part =>
    have inner := (show ∀ kind ∈ [Kind.blank, .attributeText, .equal, .pipe, .slash, .colon],
      kind.outer = false by decide) kind part
    rw [inner] at outer
    cases outer
  | _ => cases outer

/-- In an open tag comes nothing that stands between tags, and no end of another tag. -/
theorem apart_of_mem {stack : ModeStack} (arranged : stack.Arranged)
    (admits : stack.top.Admits kind) (inTag : mode.InTag) (inside : mode ∈ stack.modes) :
    kind.outer = false ∧ ∀ other : Mode, other.InTag → other.EndedBy kind → mode.EndedBy kind := by
  constructor
  · refine Bool.eq_false_iff.mpr fun outer => ?_
    rw [arranged.eq_initial (eq_content_of_outer admits outer)] at inside
    cases List.mem_singleton.mp inside
    cases inTag
  · intro other otherTag ended
    have leaves : kind.transition.leaves = true := by cases ended <;> rfl
    have current := admits.leaves_iff.mp leaves
    have top : stack.top.InTag := by
      generalize stack.top = top at current
      cases otherTag <;> cases ended <;> cases current <;> constructor
    rw [arranged.eq_tag top] at inside
    rcases List.mem_cons.mp inside with same | below
    · exact same ▸ current
    · cases List.mem_singleton.mp below
      cases inTag

theorem Admitted.tagsApart {kinds : List Kind} (admitted : Admitted kinds) : TagsApart kinds := by
  rintro front opener middle next back mode rfl opens kept
  obtain ⟨inTag, effect⟩ := inTag_of_tagMode? opens
  rw [List.append_cons, ← List.append_assoc] at admitted
  have opened : mode ∈ (initial.through (front ++ [opener])).modes := by
    rw [through_concat, effect]
    exact List.mem_cons_self
  have inside := admitted.front.mem_through middle opened kept
  exact apart_of_mem admitted.front.arranged (admitted _ next back rfl) inTag inside

end Kind

/-- The one kind that can come after a kind, where there is only one. -/
def Kind.successor? : Kind → Option Kind
  | expression => some .braceClose
  | rawAngle element => some (.rawRest element)
  | _ => none

/-- Nothing comes after a token but its one successor, and this directly. -/
def Token.Precedes (first next : Token) : Prop :=
  ∀ kind ∈ first.kind.successor?, next.kind = kind ∧ next.start = first.after

namespace Munch

/-- A script goes on to the brace that ends it. -/
theorem Takes.closing {text image : Text}
    (takes : Takes Mode.expression.candidates text .expression image) {char : Char} {rest : Text}
    (split : text = image ++ char :: rest) : char = '\x7d' := by
  refine Decidable.byContradiction fun other => ?_
  have script : Embedded.Script image := takes.belongs
  have further : Embedded.Script (image ++ [char]) := by
    refine ⟨List.append_ne_nil_of_left_ne_nil script.filled _, ?_, ?_⟩
    · rw [List.head?_append_of_ne_nil _ script.filled]
      exact script.opens
    · intro front back same
      rcases List.eq_nil_or_concat back with rfl | ⟨back, last, rfl⟩
      · exact absurd (List.singleton_inj.mp (List.append_inj' same rfl).2) other
      · rw [List.concat_eq_append, ← List.cons_append, ← List.append_assoc] at same
        exact script.answered front back (List.append_inj' same rfl).1
  have starts : image ++ [char] <+: text := ⟨rest, by rw [split, ← List.append_cons]⟩
  have longer := takes.longest .expression (by decide) _ starts further
  rw [List.length_append, List.length_singleton] at longer
  omega

/-- Between braces, a closing brace is taken where it stands first. -/
theorem Takes.eq_braceClose {rest image : Text} {kind : Kind}
    (takes : Takes Mode.expression.candidates ('\x7d' :: rest) kind image) :
    kind = .braceClose := by
  have filled : image ≠ [] := fun empty => (measures kind).filled (empty ▸ takes.belongs)
  obtain ⟨char, more, rfl⟩ := List.exists_cons_of_ne_nil filled
  obtain rfl : char = '\x7d' := (List.cons_prefix_cons.mp takes.starts).1
  have belongs := takes.belongs
  have admits := Mode.admits_of_candidate takes.candidate
  cases admits with
  | braceClose => rfl
  | blank => exact absurd (belongs.2 _ List.mem_cons_self) (by decide)
  | block sigil =>
    obtain ⟨run, same, -⟩ := belongs
    have first := (List.cons.inj same).1
    cases sigil <;> cases first
  | expression => exact absurd .nil (belongs.answered [] more rfl)
  | entry inTag => cases inTag
  | quoteOpen inTag => cases inTag
  | braceOpen scripted =>
    cases scripted with
    | tag inTag => cases inTag

theorem not_stuck_of_brace (rest : Text) :
    ¬Stuck Mode.expression.candidates ('\x7d' :: rest) :=
  fun stuck => stuck .braceClose (by decide) ['\x7d'] ⟨rest, rfl⟩ rfl

end Munch

namespace Scanner

/-- A scan in which the next token is of a kind and begins at a place, or does not come. -/
inductive Awaits (scanner : Scanner) : Kind → Point → Prop where
  | brace (script : scanner.modes.top = .expression)
      (closing : ∀ char ∈ scanner.rest.head?, char = '\x7d') :
      Awaits scanner .braceClose scanner.point
  | rest {element : RawElement} (raw : scanner.modes.top = .rawContent element) :
      Awaits scanner (.rawRest element) scanner.point
  | never {kind : Kind} {place : Point} (raw : scanner.modes.top.isRaw = true)
      (stuck : Munch.Stuck scanner.modes.top.candidates scanner.rest) : Awaits scanner kind place

variable {source : Text} {scanner : Scanner}

theorem Awaits.take {kind other : Kind} {place : Point} {image : Text}
    (awaits : scanner.Awaits kind place)
    (takes : Munch.Takes scanner.modes.top.candidates scanner.rest other image) :
    other = kind ∧ scanner.point = place := by
  cases awaits with
  | brace script closing =>
    obtain ⟨char, rest, here⟩ := List.exists_cons_of_ne_nil (Bites.take takes).rest_ne_nil
    rw [here] at closing
    obtain rfl := closing char rfl
    rw [script, here] at takes
    exact ⟨takes.eq_braceClose, rfl⟩
  | rest raw =>
    rw [raw] at takes
    exact ⟨List.mem_singleton.mp takes.candidate, rfl⟩
  | never raw stuck => exact absurd stuck takes.not_stuck

theorem Awaits.skip {kind : Kind} {place : Point} {char : Char} {rest : Text}
    (awaits : scanner.Awaits kind place) (here : scanner.rest = char :: rest)
    (stuck : Munch.Stuck scanner.modes.top.candidates scanner.rest) :
    (scanner.skip char [] rest).Awaits kind place := by
  have later : scanner.modes.top.isRaw = true → (scanner.skip char [] rest).Awaits kind place :=
    fun raw => .never raw (stuck_of_isRaw raw stuck [char] rest here)
  cases awaits with
  | brace script closing =>
    rw [here] at closing
    obtain rfl := closing char rfl
    rw [script, here] at stuck
    exact absurd stuck (Munch.not_stuck_of_brace rest)
  | rest raw => exact later (raw ▸ rfl)
  | never raw => exact later raw

/-- After a token its one successor is awaited. -/
theorem awaits_emit {kind : Kind} {image : Text}
    (takes : Munch.Takes scanner.modes.top.candidates scanner.rest kind image) :
    ∀ next ∈ kind.successor?, (scanner.emit kind image.length).Awaits next
      (Token.place kind image scanner.point).after := by
  intro next follows
  have point : (Token.place kind image scanner.point).after =
      (scanner.emit kind image.length).point := by
    rw [Token.after_place]
    simp only [emit, takes.image_eq]
  have admits := Mode.admits_of_candidate takes.candidate
  rw [point]
  cases kind <;> cases follows
  case rawAngle element => exact .rest rfl
  case expression =>
    generalize top : scanner.modes.top = mode at admits takes
    cases admits with
    | entry inTag part => simp at part
    | expression =>
      refine .brace top fun char here => ?_
      obtain ⟨rest, split⟩ := takes.starts
      simp only [emit, ← split, List.drop_left] at here
      obtain ⟨rest, rfl⟩ := List.head?_eq_some_iff.mp here
      exact takes.closing split.symm

/-- Along the course of a scan each token is followed by its one successor. -/
theorem Course.precedes (course : Course source scanner) :
    scanner.tokens.IsChain (fun next first => first.Precedes next) ∧
      ∀ token ∈ scanner.tokens.head?, ∀ kind ∈ token.kind.successor?,
        scanner.Awaits kind token.after := by
  induction course with
  | refl => exact ⟨.nil, fun _ => nofun⟩
  | tail _ bite ih =>
    obtain ⟨chain, awaited⟩ := ih
    cases bite with
    | skip here stuck =>
      exact ⟨chain, fun token last kind follows => (awaited token last kind follows).skip here stuck⟩
    | @take kind image takes =>
      have follows := awaits_emit takes
      simp only [emit, takes.image_eq] at follows ⊢
      refine ⟨List.isChain_cons.mpr ⟨fun first last next awaiting => ?_, chain⟩, ?_⟩
      · obtain ⟨same, here⟩ := (awaited first last next awaiting).take takes
        exact ⟨same, here⟩
      · rintro _ ⟨⟩
        exact follows

end Scanner

structure Token.Bracketed (tokens : List Token) : Prop where
  alternate : ∀ bracket : Bracket,
    Kind.Alternate bracket.opener (bracket.marks (tokens.map Token.kind))
  tagsApart : Kind.TagsApart (tokens.map Token.kind)
  precedes : tokens.IsChain Token.Precedes

theorem bracketed_scan (source : Text) : Token.Bracketed (scan source).tokens := by
  obtain ⟨last, course, -, found⟩ := Scanner.exists_course source
  rw [← found]
  have admitted := course.admitted
  refine ⟨fun bracket => (bracket.alternate admitted).1, admitted.tagsApart, ?_⟩
  exact List.isChain_reverse.mpr course.precedes.1

/-- At every moment of a scan the stack of modes has one of a few shapes, so that no more than four
modes are open and content is only at the bottom, and a token that leaves a mode leaves another to
return to. In the tokens that are found the opening and the closing ones of braces take turns, and so
do those of each quote; a tag holds nothing that stands between tags; and after a script and after
the angle of a raw element comes, at the very place where it ends, the brace or the content with its
end tag, or no token at all. -/
theorem scan_brackets (source : Text) :
    (∀ scanner, Scanner.machine.Reaches (.start source) scanner →
      scanner.modes.Arranged ∧ scanner.modes.modes.length ≤ 4 ∧
      (∀ front back, scanner.modes.modes = front ++ .content :: back → back = []) ∧
      ∀ kind count, scanner.longest? = some (kind, count) → kind.transition.leaves = true →
        scanner.modes.below ≠ []) ∧
    Token.Bracketed (scan source).tokens := by
  refine ⟨fun scanner reached => ?_, bracketed_scan source⟩
  have course := Scanner.course_of_reaches reached
  have arranged : scanner.modes.Arranged := by
    have modes_eq : scanner.modes = _ := course.modes_eq
    rw [modes_eq, ModeStack.after_eq_through]
    exact course.admitted.arranged
  refine ⟨arranged, arranged.length_le, fun front back split => arranged.eq_nil_of_content split,
    fun kind count chosen leaves => ?_⟩
  have best := Munch.best_longest? scanner.lengthOf scanner.modes.top.candidates
  have chosen : Munch.longest? scanner.lengthOf scanner.modes.top.candidates = _ := chosen
  rw [chosen] at best
  obtain ⟨-, -, -, before, after, split, -⟩ := best
  have candidate : kind ∈ scanner.modes.top.candidates := by
    rw [split]
    exact List.mem_append_right _ List.mem_cons_self
  exact arranged.below_ne_nil_of_leaves (Mode.admits_of_candidate candidate) leaves

end Template
