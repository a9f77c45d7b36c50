import Template.Proofs.Scan.Munching

set_option autoImplicit false

namespace Template

def ModeStack.through (stack : ModeStack) (kinds : List Kind) : ModeStack :=
  kinds.foldl (fun stack kind => stack.apply kind.transition) stack

namespace ModeStack

@[simp] theorem through_nil (stack : ModeStack) : stack.through [] = stack := rfl

@[simp] theorem through_cons (stack : ModeStack) (kind : Kind) (rest : List Kind) :
    stack.through (kind :: rest) = (stack.apply kind.transition).through rest := rfl

theorem through_append (stack : ModeStack) (front back : List Kind) :
    stack.through (front ++ back) = (stack.through front).through back := List.foldl_append

theorem after_eq_through (tokens : List Token) :
    after tokens = initial.through (tokens.map Token.kind) := by
  rw [through, List.foldl_map]
  rfl

end ModeStack

/-- The tokens of a text that is read from a point on, without a gap. -/
inductive Reads : ModeStack → Point → Text → List Token → Prop where
  | nil (modes : ModeStack) (point : Point) : Reads modes point [] []
  | cons {modes : ModeStack} {point : Point} {kind : Kind} {image rest : Text}
      {tokens : List Token} (takes : Munch.Takes modes.top.candidates (image ++ rest) kind image)
      (further : Reads (modes.apply kind.transition) (point.walk image) rest tokens) :
      Reads modes point (image ++ rest) (.place kind image point :: tokens)

/-- What comes after a token does not matter. -/
theorem Munch.Takes.truncate {kinds : List Kind} {image rest more : Text} {kind : Kind}
    (takes : Takes kinds (image ++ (rest ++ more)) kind image) :
    Takes kinds (image ++ rest) kind image := by
  have longer : ∀ {start}, start <+: image ++ rest → start <+: image ++ (rest ++ more) := by
    intro start starts
    rw [← List.append_assoc]
    exact starts.trans (List.prefix_append _ more)
  obtain ⟨before, after, split, earlier⟩ := takes.earliest
  exact ⟨takes.belongs, List.prefix_append image rest,
    fun other member start starts => takes.longest other member start (longer starts),
    before, after, split, fun other member start starts => earlier other member start (longer starts)⟩

namespace Reads

variable {modes : ModeStack} {point : Point} {text : Text}

/-- What is read as two runs of tokens consists of two texts, each of which can be read alone. -/
theorem split {front back : List Token} (reads : Reads modes point text (front ++ back)) :
    ∃ first second, text = first ++ second ∧ Reads modes point first front ∧
      Reads (modes.through (front.map Token.kind)) (point.walk first) second back := by
  induction front generalizing modes point text with
  | nil => exact ⟨[], text, rfl, .nil modes point, reads⟩
  | cons token front ih =>
    cases reads with
    | cons takes further =>
      obtain ⟨first, second, rfl, here, there⟩ := ih further
      refine ⟨_ ++ first, second, (List.append_assoc ..).symm, .cons takes.truncate here, ?_⟩
      rw [Point.walk_append]
      exact there

/-- The text of each token belongs to its kind. -/
theorem belongs {tokens : List Token} (reads : Reads modes point text tokens) :
    ∀ token ∈ tokens, Munch.Language token.kind token.image := by
  induction reads with
  | nil => exact List.forall_mem_nil _
  | cons takes _ ih => exact List.forall_mem_cons.mpr ⟨takes.belongs, ih⟩

end Reads

namespace Scanner

/-- Along a course on which nothing is passed over, the rest is read. -/
theorem reads_of_bites {before last : Scanner} (bites : Relation.ReflTransGen Bites before last)
    (finished : last.rest = []) (clean : last.settled = []) :
    before.settled = [] ∧ ∃ more, last.tokens.reverse = before.tokens.reverse ++ more ∧
      Reads before.modes before.point before.rest more := by
  induction bites using Relation.ReflTransGen.head_induction_on with
  | refl =>
    refine ⟨clean, [], (List.append_nil _).symm, ?_⟩
    rw [finished]
    exact .nil _ _
  | @head before middle bite _ ih =>
    obtain ⟨settled, more, tokens_eq, reads⟩ := ih
    cases bite with
    | @take kind image takes =>
      obtain ⟨rest, here⟩ := takes.starts
      refine ⟨settled, .place kind image before.point :: more, ?_, ?_⟩
      · rw [tokens_eq]
        simp only [emit, List.reverse_cons, takes.image_eq, List.append_assoc,
          List.singleton_append]
      · simp only [emit, ← here, List.take_left, List.drop_left] at reads
        rw [← here] at takes ⊢
        exact .cons takes reads
    | skip => cases settled

/-- What can be read is read on a course on which nothing is passed over. -/
theorem bites_of_reads {modes : ModeStack} {point : Point} {text : Text} {more : List Token}
    (reads : Reads modes point text more) {before : Scanner} (modes_eq : before.modes = modes)
    (point_eq : before.point = point) (rest_eq : before.rest = text) :
    ∃ last, Relation.ReflTransGen Bites before last ∧ last.rest = [] ∧
      last.tokens.reverse = before.tokens.reverse ++ more ∧ last.settled = before.settled := by
  induction reads generalizing before with
  | nil => exact ⟨before, .refl, rest_eq, (List.append_nil _).symm, rfl⟩
  | @cons modes point kind image rest tokens takes further ih =>
    subst modes_eq point_eq
    rw [← rest_eq] at takes
    have image_eq := takes.image_eq
    obtain ⟨last, bites, finished, tokens_eq, settled_eq⟩ := ih
      (show (before.emit kind image.length).modes = _ from rfl) (by simp only [emit, image_eq])
      (by simp only [emit, rest_eq, List.drop_left])
    refine ⟨last, .head (.take takes) bites, finished, ?_, settled_eq⟩
    rw [tokens_eq]
    simp only [emit, List.reverse_cons, image_eq, List.append_assoc, List.singleton_append]

end Scanner

/-- Nothing is wrong with a source where it can be read and ends in the mode it began in. -/
theorem scan_eq_iff {source : Text} {tokens : List Token} :
    scan source = ⟨tokens, []⟩ ↔
      Reads .initial .origin source tokens ∧ (ModeStack.after tokens).below = [] := by
  constructor
  · intro scanned
    obtain ⟨last, course, finished, found⟩ := Scanner.exists_course source
    have modes_eq := course.modes_eq
    rw [scanned] at found
    obtain ⟨tokens_eq, faults_eq⟩ := Scanned.mk.inj found
    have clean : last.modes.below = [] ∧ last.settled = [] := by
      split at faults_eq
      · next below => exact ⟨below, List.reverse_eq_nil_iff.mp faults_eq⟩
      · cases List.reverse_eq_nil_iff.mp faults_eq
    obtain ⟨-, more, split, reads⟩ := Scanner.reads_of_bites course finished clean.2
    have same : more = tokens := split.symm.trans tokens_eq
    rw [modes_eq, tokens_eq] at clean
    exact ⟨same ▸ reads, clean.1⟩
  · rintro ⟨reads, ended⟩
    obtain ⟨last, course, finished, tokens_eq, settled_eq⟩ := Scanner.bites_of_reads reads
      (show (Scanner.start source).modes = _ from rfl) rfl rfl
    have tokens_eq : last.tokens.reverse = tokens := tokens_eq
    have settled_eq : last.settled = [] := settled_eq
    have below : last.modes.below = [] := by
      rw [Scanner.Course.modes_eq course, tokens_eq, ended]
    rw [← Scanner.Course.result_eq course finished]
    simp only [Scanner.result, tokens_eq, settled_eq, below, List.reverse_nil]

namespace Point

/-- The place as it is counted from another, as if a source began there. -/
def rebase (base point : Point) : Point where
  line := point.line - base.line + 1
  column := if point.line = base.line then point.column - base.column + 1 else point.column
  offset := point.offset - base.offset

/-- A place that is not before another: on a later line, or on the same one not before it. -/
structure Follows (base point : Point) : Prop where
  line : base.line ≤ point.line
  column : point.line = base.line → base.column ≤ point.column
  offset : base.offset ≤ point.offset

theorem Follows.next {base point : Point} (follows : base.Follows point) (char : Char) :
    base.Follows (point.next char) := by
  obtain ⟨line, column, offset⟩ := follows
  unfold Point.next
  split
  · refine ⟨line.trans (Nat.le_succ _), fun same => ?_, offset.trans (Nat.le_succ _)⟩
    have later : point.line + 1 = base.line := same
    omega
  · exact ⟨line, fun same => (column same).trans (Nat.le_succ _),
      offset.trans (Nat.le_add_right _ _)⟩

theorem Follows.rebase_next {base point : Point} (follows : base.Follows point) (char : Char) :
    base.rebase (point.next char) = (base.rebase point).next char := by
  obtain ⟨line, column, offset⟩ := follows
  unfold Point.next rebase
  split
  · have later : point.line + 1 ≠ base.line := by omega
    simp only [later, ↓reduceIte, mk.injEq, true_and]
    omega
  · simp only [mk.injEq, true_and]
    refine ⟨?_, by omega⟩
    split
    · next same =>
      have := column same
      omega
    · rfl

theorem Follows.walk {base point : Point} (follows : base.Follows point) (text : Text) :
    base.Follows (point.walk text) ∧
      base.rebase (point.walk text) = (base.rebase point).walk text := by
  induction text generalizing point with
  | nil => exact ⟨follows, rfl⟩
  | cons char rest ih =>
    obtain ⟨later, same⟩ := ih (follows.next char)
    exact ⟨later, by rw [walk_cons, same, follows.rebase_next, walk_cons]⟩

theorem follows_refl (base : Point) : base.Follows base :=
  ⟨Nat.le_refl _, fun _ => Nat.le_refl _, Nat.le_refl _⟩

/-- Counted from where a walk begins, the walk begins at the origin. -/
theorem rebase_walk (base : Point) (text : Text) :
    base.rebase (base.walk text) = origin.walk text := by
  rw [(follows_refl base).walk text |>.2]
  simp only [rebase, Nat.sub_self, ↓reduceIte, Nat.zero_add]
  rfl

end Point

def Token.move (move : Point → Point) (token : Token) : Token :=
  { token with start := move token.start, last := move token.last }

theorem Token.move_place {base point : Point} (follows : base.Follows point) (kind : Kind)
    (image : Text) :
    move base.rebase (place kind image point) = place kind image (base.rebase point) := by
  simp only [move, place, (follows.walk image.dropLast).2]

/-- A text that is read at one place is read the same way at the origin. -/
theorem Reads.rebase {modes : ModeStack} {base point : Point} {text : Text} {tokens : List Token}
    (reads : Reads modes point text tokens) (follows : base.Follows point) :
    Reads modes (base.rebase point) text (tokens.map (Token.move base.rebase)) := by
  induction reads with
  | nil => exact .nil _ _
  | @cons modes point kind image rest tokens takes _ ih =>
    obtain ⟨later, same⟩ := follows.walk image
    rw [List.map_cons, Token.move_place follows]
    exact .cons takes (same ▸ ih later)

end Template
