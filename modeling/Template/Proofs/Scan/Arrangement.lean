import Template.Proofs.Scan.Reading

set_option autoImplicit false

namespace Template

namespace Mode

inductive InTag : Mode → Prop where
  | tag : InTag .tag
  | rawTag (element : RawElement) : InTag (.rawTag element)

/-- The modes in which a brace begins a script or a block. -/
inductive Scripted : Mode → Prop where
  | content : Scripted .content
  | tag {mode : Mode} (inTag : mode.InTag) : Scripted mode
  | quoted (quote : Quote) : Scripted (.quoted quote)

/-- The kinds of the tokens that are read in a mode. -/
inductive Admits : Mode → Kind → Prop where
  | text : Admits .content .text
  | comment : Admits .content .comment
  | openTag : Admits .content .openTag
  | closeTag : Admits .content .closeTag
  | rawOpen (element : RawElement) : Admits .content (.rawOpen element)
  | entry {mode : Mode} {kind : Kind} (inTag : mode.InTag)
      (part : kind ∈ [.blank, .attributeText, .equal, .pipe, .slash, .colon]) : Admits mode kind
  | quoteOpen {mode : Mode} (inTag : mode.InTag) (quote : Quote) : Admits mode (.quoteOpen quote)
  | angle : Admits .tag .angle
  | rawAngle (element : RawElement) : Admits (.rawTag element) (.rawAngle element)
  | rawSelfClose (element : RawElement) : Admits (.rawTag element) .rawSelfClose
  | rawRest (element : RawElement) : Admits (.rawContent element) (.rawRest element)
  | quoted (quote : Quote) : Admits (.quoted quote) (.quoted quote)
  | quoteClose (quote : Quote) : Admits (.quoted quote) (.quoteClose quote)
  | braceOpen {mode : Mode} (scripted : mode.Scripted) : Admits mode .braceOpen
  | blank : Admits .expression .blank
  | block (sigil : Sigil) : Admits .expression (.block sigil)
  | expression : Admits .expression .expression
  | braceClose : Admits .expression .braceClose

theorem InTag.admits_entry {mode : Mode} {kind : Kind} (inTag : mode.InTag)
    (member : kind ∈ attributeKinds) : mode.Admits kind := by
  simp only [attributeKinds, List.mem_cons, List.not_mem_nil, or_false] at member
  rcases member with rfl | rfl | rfl | rfl | rfl | rfl | rfl
  case inr.inr.inl => exact .braceOpen (.tag inTag)
  case inr.inr.inr.inl => exact .quoteOpen inTag _
  case inr.inr.inr.inr.inl => exact .quoteOpen inTag _
  all_goals exact .entry inTag (by decide)

theorem transition_of_entry {kind : Kind}
    (part : kind ∈ [.blank, .attributeText, .equal, .pipe, .slash, .colon]) :
    kind.transition = .stay :=
  (show ∀ kind ∈ [Kind.blank, .attributeText, .equal, .pipe, .slash, .colon],
    kind.transition = .stay by decide) kind part

/-- The candidates of a mode are read in it. -/
theorem admits_of_candidate {mode : Mode} {kind : Kind} (candidate : kind ∈ mode.candidates) :
    mode.Admits kind := by
  cases mode with
  | content =>
    simp only [candidates, List.mem_cons, List.not_mem_nil, or_false] at candidate
    rcases candidate with rfl | rfl | rfl | rfl | rfl | rfl | rfl | rfl
    case inr.inl => exact .braceOpen .content
    all_goals constructor
  | tag =>
    rcases List.mem_append.mp candidate with member | member
    · simp only [List.mem_cons, List.not_mem_nil, or_false] at member
      rcases member with rfl | rfl | rfl
      · exact .entry .tag (by decide)
      · exact .entry .tag (by decide)
      · exact .angle
    · exact InTag.tag.admits_entry member
  | rawTag element =>
    rcases List.mem_append.mp candidate with member | member
    · exact (InTag.rawTag element).admits_entry member
    · simp only [List.mem_cons, List.not_mem_nil, or_false] at member
      rcases member with rfl | rfl | rfl
      · exact .rawSelfClose element
      · exact .entry (.rawTag element) (by decide)
      · exact .rawAngle element
  | rawContent element =>
    cases List.mem_singleton.mp candidate
    exact .rawRest element
  | quoted quote =>
    simp only [candidates, List.mem_cons, List.not_mem_nil, or_false] at candidate
    rcases candidate with rfl | rfl | rfl
    · exact .braceOpen (.quoted quote)
    · exact .quoted quote
    · exact .quoteClose quote
  | expression =>
    simp only [candidates, List.mem_cons, List.not_mem_nil, or_false] at candidate
    rcases candidate with rfl | rfl | rfl | rfl | rfl | rfl | rfl
    case inl => exact .blank
    case inr.inr.inr.inr.inr.inl => exact .expression
    case inr.inr.inr.inr.inr.inr => exact .braceClose
    all_goals exact .block _

/-- The tokens that end what a mode was entered for. -/
inductive EndedBy : Mode → Kind → Prop where
  | angle : EndedBy .tag .angle
  | rawAngle (element : RawElement) : EndedBy (.rawTag element) (.rawAngle element)
  | rawSelfClose (element : RawElement) : EndedBy (.rawTag element) .rawSelfClose
  | rawRest (element : RawElement) : EndedBy (.rawContent element) (.rawRest element)
  | quoteClose (quote : Quote) : EndedBy (.quoted quote) (.quoteClose quote)
  | braceClose : EndedBy .expression .braceClose

end Mode

namespace Transition

def leaves : Transition → Bool
  | .stay | .push _ => false
  | .pop | .replace _ => true

def entered? : Transition → Option Mode
  | .stay | .pop => none
  | .push mode | .replace mode => some mode

end Transition

/-- A mode is left by the tokens that end what it was entered for. -/
theorem Mode.Admits.leaves_iff {mode : Mode} {kind : Kind} (admits : mode.Admits kind) :
    kind.transition.leaves = true ↔ mode.EndedBy kind := by
  constructor
  · intro leaves
    cases admits with
    | entry inTag part =>
      rw [transition_of_entry part] at leaves
      cases leaves
    | angle => exact .angle
    | rawAngle element => exact .rawAngle element
    | rawSelfClose element => exact .rawSelfClose element
    | rawRest element => exact .rawRest element
    | quoteClose quote => exact .quoteClose quote
    | braceClose => exact .braceClose
    | _ => cases leaves
  · intro ended
    cases ended <;> rfl

namespace ModeStack

def modes (stack : ModeStack) : List Mode := stack.top :: stack.below

theorem modes_pop {stack : ModeStack} (more : stack.below ≠ []) : stack.pop.modes = stack.below := by
  obtain ⟨top, below⟩ := stack
  cases below with
  | nil => exact absurd rfl more
  | cons mode below => rfl

/-- The shapes of the stack, told from the first mode up. -/
inductive Arranged : ModeStack → Prop where
  | content : Arranged .initial
  | script : Arranged (initial.push .expression)
  | rawContent (element : RawElement) : Arranged (initial.push (.rawContent element))
  | tag {mode : Mode} (inTag : mode.InTag) : Arranged (initial.push mode)
  | tagScript {mode : Mode} (inTag : mode.InTag) :
      Arranged ((initial.push mode).push .expression)
  | quoted {mode : Mode} (inTag : mode.InTag) (quote : Quote) :
      Arranged ((initial.push mode).push (.quoted quote))
  | quotedScript {mode : Mode} (inTag : mode.InTag) (quote : Quote) :
      Arranged (((initial.push mode).push (.quoted quote)).push .expression)

namespace Arranged

variable {stack : ModeStack}

theorem length_le (arranged : stack.Arranged) : stack.modes.length ≤ 4 := by
  cases arranged <;> simp [modes, push, initial]

/-- No mode is entered twice. -/
theorem nodup (arranged : stack.Arranged) : stack.modes.Nodup := by
  cases arranged with
  | tag inTag | tagScript inTag | quoted inTag | quotedScript inTag =>
    cases inTag <;> simp [modes, push, initial]
  | _ => simp [modes, push, initial]

/-- The first mode is that of content. -/
theorem last (arranged : stack.Arranged) : stack.modes.getLast? = some .content := by
  cases arranged <;> rfl

/-- Content is nowhere else. -/
theorem eq_nil_of_content {front back : List Mode} (arranged : stack.Arranged)
    (split : stack.modes = front ++ .content :: back) : back = [] := by
  have distinct := arranged.nodup
  have last := arranged.last
  rw [split] at distinct last
  refine Decidable.byContradiction fun more => ?_
  rw [List.append_cons, List.getLast?_append_of_ne_nil _ more] at last
  have fresh := (List.nodup_cons.mp (List.nodup_append.mp distinct).2.1).1
  exact fresh (List.mem_of_getLast? last)

theorem eq_initial (arranged : stack.Arranged) (content : stack.top = .content) :
    stack = initial := by
  cases arranged with
  | content => rfl
  | tag inTag => cases content; cases inTag
  | _ => cases content

theorem eq_tag (arranged : stack.Arranged) (inTag : stack.top.InTag) :
    stack = initial.push stack.top := by
  cases arranged with
  | tag => rfl
  | _ => cases inTag

theorem pop (arranged : stack.Arranged) : stack.pop.Arranged := by
  cases arranged with
  | content => exact .content
  | script => exact .content
  | rawContent => exact .content
  | tag => exact .content
  | tagScript inTag => exact .tag inTag
  | quoted inTag => exact .tag inTag
  | quotedScript inTag quote => exact .quoted inTag quote

theorem pushScript (arranged : stack.Arranged) (scripted : stack.top.Scripted) :
    (stack.push .expression).Arranged := by
  cases arranged with
  | content => exact .script
  | tag inTag => exact .tagScript inTag
  | quoted inTag quote => exact .quotedScript inTag quote
  | _ =>
    cases scripted with
    | tag inTag => cases inTag

/-- A token that is read in the current mode keeps the stack in shape. -/
theorem apply {kind : Kind} (arranged : stack.Arranged) (admits : stack.top.Admits kind) :
    (stack.apply kind.transition).Arranged := by
  generalize top : stack.top = mode at admits
  cases admits with
  | text | comment | blank | block | expression | quoted => exact arranged
  | entry inTag part =>
    rw [Mode.transition_of_entry part]
    exact arranged
  | openTag | closeTag =>
    rw [arranged.eq_initial top]
    exact .tag .tag
  | rawOpen element =>
    rw [arranged.eq_initial top]
    exact .tag (.rawTag element)
  | quoteOpen inTag quote =>
    subst top
    rw [arranged.eq_tag inTag]
    exact .quoted inTag quote
  | rawAngle element =>
    rw [arranged.eq_tag (top ▸ .rawTag element)]
    exact .rawContent element
  | braceOpen scripted =>
    subst top
    exact arranged.pushScript scripted
  | angle | rawSelfClose | rawRest | quoteClose | braceClose => exact arranged.pop

/-- Only content has no mode below it. -/
theorem below_ne_nil (arranged : stack.Arranged) (inner : stack.top ≠ .content) :
    stack.below ≠ [] := by
  cases arranged with
  | content => exact absurd rfl inner
  | _ => exact List.cons_ne_nil _ _

/-- A token that leaves a mode finds one to return to. -/
theorem below_ne_nil_of_leaves {kind : Kind} (arranged : stack.Arranged)
    (admits : stack.top.Admits kind) (leaves : kind.transition.leaves = true) :
    stack.below ≠ [] := by
  apply arranged.below_ne_nil
  intro content
  have ended := admits.leaves_iff.mp leaves
  rw [content] at ended
  cases ended

/-- Open after a token are the mode that it enters and those that were open before, without the
current one if the token leaves it. -/
theorem mem_apply {kind : Kind} (arranged : stack.Arranged) (admits : stack.top.Admits kind)
    (mode : Mode) :
    mode ∈ (stack.apply kind.transition).modes ↔
      mode ∈ kind.transition.entered? ∨
        mode ∈ stack.modes ∧ ¬(stack.top = mode ∧ kind.transition.leaves = true) := by
  have popped : kind.transition.leaves = true →
      (mode ∈ stack.pop.modes ↔ mode ∈ stack.modes ∧ stack.top ≠ mode) := by
    intro leaves
    rw [modes_pop (arranged.below_ne_nil_of_leaves admits leaves)]
    have distinct : stack.top ∉ stack.below := (List.nodup_cons.mp arranged.nodup).1
    constructor
    · intro member
      exact ⟨List.mem_cons_of_mem _ member, fun same => distinct (same ▸ member)⟩
    · rintro ⟨member, other⟩
      exact (List.mem_cons.mp member).resolve_left fun same => other same.symm
  cases effect : kind.transition with
  | stay => simp [ModeStack.apply, Transition.entered?, Transition.leaves]
  | push entered =>
    simp [ModeStack.apply, push, modes, Transition.entered?, Transition.leaves, eq_comm]
  | pop =>
    rw [effect] at popped
    simp [ModeStack.apply, Transition.entered?, Transition.leaves, popped rfl]
  | replace entered =>
    rw [effect] at popped
    have shape : (stack.pop.push entered).modes = entered :: stack.pop.modes := rfl
    simp [ModeStack.apply, Transition.entered?, Transition.leaves, shape, popped rfl, eq_comm]

end Arranged

end ModeStack

/-- Each of some kinds is read in the mode to which the kinds before it lead from the start of a
source. -/
def Kind.Admitted (kinds : List Kind) : Prop :=
  ∀ front kind back, kinds = front ++ kind :: back →
    (ModeStack.initial.through front).top.Admits kind

namespace Kind.Admitted

open ModeStack

variable {kinds : List Kind} {kind : Kind}

theorem front {first rest : List Kind} (admitted : Admitted (first ++ rest)) : Admitted first := by
  rintro front kind back rfl
  apply admitted front kind (back ++ rest)
  rw [List.append_assoc, List.cons_append]

theorem concat (admitted : Admitted kinds)
    (admits : (initial.through kinds).top.Admits kind) : Admitted (kinds ++ [kind]) := by
  intro first next back split
  rcases List.eq_nil_or_concat back with rfl | ⟨back, last, rfl⟩
  · obtain ⟨rfl, same⟩ := List.append_inj' split rfl
    cases same
    exact admits
  · rw [← List.concat_cons, List.concat_eq_append, ← List.append_assoc] at split
    exact admitted first next back (List.append_inj' split rfl).1

theorem through_concat (stack : ModeStack) (kinds : List Kind) (kind : Kind) :
    stack.through (kinds ++ [kind]) = (stack.through kinds).apply kind.transition := by
  rw [through_append, through_cons, through_nil]

/-- The stack of modes is always in shape. -/
theorem arranged (admitted : Admitted kinds) : (initial.through kinds).Arranged := by
  induction kinds using List.reverseRecOn with
  | nil => exact .content
  | append_singleton kinds kind ih =>
    rw [through_concat]
    exact (ih admitted.front).apply (admitted kinds kind [] rfl)

end Kind.Admitted

namespace Scanner

variable {source : Text} {scanner : Scanner}

/-- Each token of a scan is read in the mode to which the tokens before it lead. -/
theorem Course.admitted (course : Course source scanner) :
    Kind.Admitted (scanner.tokens.reverse.map Token.kind) := by
  induction course with
  | refl =>
    intro front kind back split
    cases (List.append_eq_nil_iff.mp split.symm).2
  | tail course bite ih =>
    cases bite with
    | skip => exact ih
    | take takes =>
      simp only [emit, List.reverse_cons, List.map_append, List.map_cons, List.map_nil]
      apply ih.concat
      rw [← ModeStack.after_eq_through, ← Course.modes_eq course]
      exact Mode.admits_of_candidate takes.candidate

end Scanner

end Template
