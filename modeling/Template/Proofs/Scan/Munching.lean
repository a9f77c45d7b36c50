import Mathlib.Data.List.Induction
import Mathlib.Logic.Relation
import Template.Proofs.Scan.Languages
import Template.Proofs.Scan.Placement

set_option autoImplicit false

namespace Template

namespace Munch

/-- What is taken from the start of a text: the longest start in a language of the kinds, as the
earliest kind that has a start of this length. -/
structure Takes (kinds : List Kind) (text : Text) (kind : Kind) (image : Text) : Prop where
  belongs : Language kind image
  starts : image <+: text
  longest : ∀ other ∈ kinds, ∀ start, start <+: text → Language other start →
    start.length ≤ image.length
  earliest : ∃ before after, kinds = before ++ kind :: after ∧
    ∀ other ∈ before, ∀ start, start <+: text → Language other start →
      start.length < image.length

/-- No start of a text belongs to one of the kinds. -/
def Stuck (kinds : List Kind) (text : Text) : Prop :=
  ∀ kind ∈ kinds, ∀ start, start <+: text → ¬Language kind start

theorem length_of_start {kind : Kind} {start text : Text} (starts : start <+: text)
    (belongs : Language kind start) : start.length ≤ length kind text := by
  obtain ⟨rest, rfl⟩ := starts
  exact (measures kind).longest start rest belongs

theorem exists_start {kind : Kind} {text : Text} (positive : 0 < length kind text) :
    ∃ start, start <+: text ∧ Language kind start ∧ start.length = length kind text :=
  ⟨_, List.take_prefix _ _, (measures kind).sound text positive,
    List.length_take_of_le (length_le kind text)⟩

theorem length_eq_zero_iff {kind : Kind} {text : Text} :
    length kind text = 0 ↔ ∀ start, start <+: text → ¬Language kind start := by
  constructor
  · intro none start starts belongs
    have reach := length_of_start starts belongs
    rw [none, Nat.le_zero, List.length_eq_zero_iff] at reach
    exact (measures kind).filled (reach ▸ belongs)
  · intro nothing
    refine Nat.eq_zero_of_not_pos fun positive => ?_
    obtain ⟨start, starts, belongs, -⟩ := exists_start positive
    exact nothing start starts belongs

def Best (lengthOf : Kind → Nat) (kinds : List Kind) : Option (Kind × Nat) → Prop
  | none => ∀ kind ∈ kinds, lengthOf kind = 0
  | some (kind, count) => lengthOf kind = count ∧ 0 < count ∧
    (∀ other ∈ kinds, lengthOf other ≤ count) ∧
    ∃ before after, kinds = before ++ kind :: after ∧ ∀ other ∈ before, lengthOf other < count

/-- One more kind is chosen only if it is longer than all before it. -/
theorem Best.better {lengthOf : Kind → Nat} {kinds : List Kind} {best : Option (Kind × Nat)}
    (chosen : Best lengthOf kinds best) (kind : Kind) :
    Best lengthOf (kinds ++ [kind]) (Munch.better lengthOf best kind) := by
  match best, chosen with
  | none, nothing =>
    simp only [Munch.better]
    split
    · next zero => exact List.forall_mem_append.mpr ⟨nothing, List.forall_mem_singleton.mpr zero⟩
    · next some =>
      have positive := Nat.pos_of_ne_zero some
      have shorter : ∀ other ∈ kinds, lengthOf other < lengthOf kind :=
        fun other member => nothing other member ▸ positive
      refine ⟨rfl, positive, List.forall_mem_append.mpr
        ⟨fun other member => (shorter other member).le, ?_⟩, kinds, [], rfl, shorter⟩
      exact List.forall_mem_singleton.mpr (Nat.le_refl _)
  | some (first, count), ⟨measured, positive, longest, before, after, split_eq, earlier⟩ =>
    simp only [Munch.better]
    split
    · next shorter =>
      refine ⟨measured, positive, List.forall_mem_append.mpr
        ⟨longest, List.forall_mem_singleton.mpr shorter⟩, before, after ++ [kind], ?_, earlier⟩
      rw [split_eq, List.append_assoc, List.cons_append]
    · next longer =>
      have longer := Nat.lt_of_not_le longer
      have shorter : ∀ other ∈ kinds, lengthOf other < lengthOf kind :=
        fun other member => (longest other member).trans_lt longer
      refine ⟨rfl, positive.trans longer, List.forall_mem_append.mpr
        ⟨fun other member => (shorter other member).le, ?_⟩, kinds, [], rfl, shorter⟩
      exact List.forall_mem_singleton.mpr (Nat.le_refl _)

theorem best_longest? (lengthOf : Kind → Nat) (kinds : List Kind) :
    Best lengthOf kinds (longest? lengthOf kinds) := by
  induction kinds using List.reverseRecOn with
  | nil => exact fun _ member => nomatch member
  | append_singleton kinds kind ih =>
    rw [longest?, List.foldl_concat]
    exact ih.better kind

/-- There is only one best choice. -/
theorem Best.eq {lengthOf : Kind → Nat} {kinds : List Kind} {left right : Option (Kind × Nat)}
    (first : Best lengthOf kinds left) (second : Best lengthOf kinds right) : left = right := by
  have nothing : ∀ {kind count}, Best lengthOf kinds none →
      ¬Best lengthOf kinds (some (kind, count)) := by
    rintro kind count none ⟨measured, positive, -, before, after, split, -⟩
    have zero := none kind (by rw [split]; simp)
    omega
  match left, right with
  | none, none => rfl
  | none, some _ => exact absurd second (nothing first)
  | some _, none => exact absurd first (nothing second)
  | some (kind, count), some (other, more) =>
    obtain ⟨measured, -, longest, before, after, split, earlier⟩ := first
    obtain ⟨measured', -, longest', before', after', split', earlier'⟩ := second
    have reach := longest' kind (by rw [split]; simp)
    have reach' := longest other (by rw [split']; simp)
    obtain rfl : count = more := by omega
    rw [split] at split'
    -- Neither kind stands before the other.
    rcases List.append_eq_append_iff.mp split' with ⟨between, after_eq, here⟩ |
      ⟨between, before_eq, here⟩
    · cases between with
      | nil => rw [(List.cons.inj here).1]
      | cons next between =>
        have shorter := earlier' kind (by rw [after_eq, (List.cons.inj here).1]; simp)
        omega
    · cases between with
      | nil => rw [(List.cons.inj here).1]
      | cons next between =>
        have shorter := earlier other (by rw [before_eq, (List.cons.inj here).1]; simp)
        omega

theorem best_iff_takes {kinds : List Kind} {text : Text} {kind : Kind} {count : Nat} :
    Best (length · text) kinds (some (kind, count)) ↔
      ∃ image, image.length = count ∧ Takes kinds text kind image := by
  constructor
  · rintro ⟨rfl, positive, longest, before, after, split, earlier⟩
    obtain ⟨image, starts, belongs, long⟩ := exists_start positive
    refine ⟨image, long, belongs, starts, fun other member start here there => ?_, before, after,
      split, fun other member start here there => ?_⟩
    · exact long ▸ (length_of_start here there).trans (longest other member)
    · exact long ▸ (length_of_start here there).trans_lt (earlier other member)
  · rintro ⟨image, rfl, belongs, starts, longest, before, after, split, earlier⟩
    have filled : 0 < image.length := by
      refine List.length_pos_iff.mpr fun empty => (measures kind).filled (empty ▸ belongs)
    have below : ∀ other ∈ kinds, length other text ≤ image.length := by
      intro other member
      rcases Nat.eq_zero_or_pos (length other text) with zero | positive
      · omega
      · obtain ⟨start, here, there, long⟩ := exists_start positive
        exact long ▸ longest other member start here there
    have beneath : ∀ other ∈ before, length other text < image.length := by
      intro other member
      rcases Nat.eq_zero_or_pos (length other text) with zero | positive
      · omega
      · obtain ⟨start, here, there, long⟩ := exists_start positive
        exact long ▸ earlier other member start here there
    exact ⟨Nat.le_antisymm (below kind (by rw [split]; simp)) (length_of_start starts belongs),
      filled, below, before, after, split, beneath⟩

/-- The choice by lengths is the choice by languages. -/
theorem longest?_eq_some_iff {kinds : List Kind} {text : Text} {kind : Kind} {count : Nat} :
    longest? (length · text) kinds = some (kind, count) ↔
      ∃ image, image.length = count ∧ Takes kinds text kind image := by
  rw [← best_iff_takes]
  constructor
  · intro chosen
    exact chosen ▸ best_longest? _ kinds
  · exact fun best => (best_longest? _ kinds).eq best

theorem longest?_eq_none_iff {kinds : List Kind} {text : Text} :
    longest? (length · text) kinds = none ↔ Stuck kinds text := by
  have best := best_longest? (length · text) kinds
  constructor
  · intro none kind member
    rw [none] at best
    exact length_eq_zero_iff.mp (best kind member)
  · intro stuck
    have nothing : Best (length · text) kinds none :=
      fun kind member => length_eq_zero_iff.mpr (stuck kind member)
    exact best.eq nothing

theorem Takes.image_eq {kinds : List Kind} {text image : Text} {kind : Kind}
    (takes : Takes kinds text kind image) : text.take image.length = image :=
  (List.prefix_iff_eq_take.mp takes.starts).symm

theorem Takes.candidate {kinds : List Kind} {text image : Text} {kind : Kind}
    (takes : Takes kinds text kind image) : kind ∈ kinds := by
  obtain ⟨before, after, split, -⟩ := takes.earliest
  rw [split]
  exact List.mem_append_right _ List.mem_cons_self

/-- From a text only one token can be taken. -/
theorem Takes.unique {kinds : List Kind} {text image other : Text} {kind rival : Kind}
    (first : Takes kinds text kind image) (second : Takes kinds text rival other) :
    kind = rival ∧ image = other := by
  have same := (longest?_eq_some_iff.mpr ⟨image, rfl, first⟩).symm.trans
    (longest?_eq_some_iff.mpr ⟨other, rfl, second⟩)
  simp only [Option.some.injEq, Prod.mk.injEq] at same
  refine ⟨same.1, ?_⟩
  rw [← first.image_eq, same.2, second.image_eq]

/-- From a text either a token can be taken or none. -/
theorem Takes.not_stuck {kinds : List Kind} {text image : Text} {kind : Kind}
    (takes : Takes kinds text kind image) : ¬Stuck kinds text := by
  intro stuck
  obtain ⟨before, after, split, -⟩ := takes.earliest
  exact stuck kind (by rw [split]; simp) image takes.starts takes.belongs

theorem exists_takes {kinds : List Kind} {text : Text} (unstuck : ¬Stuck kinds text) :
    ∃ kind image, Takes kinds text kind image := by
  cases chosen : longest? (length · text) kinds with
  | none => exact absurd (longest?_eq_none_iff.mp chosen) unstuck
  | some best =>
    obtain ⟨image, -, takes⟩ := longest?_eq_some_iff.mp chosen
    exact ⟨best.1, image, takes⟩

end Munch

namespace Scanner

/-- Where no end of a comment comes, none comes later. -/
theorem commentEndLength_suffix (front : Text) {back : Text}
    (none : Munch.commentEndLength (front ++ back) = 0) : Munch.commentEndLength back = 0 := by
  induction front with
  | nil => exact none
  | cons char front ih =>
    rw [List.cons_append, Munch.commentEndLength] at none
    split at none
    · cases none
    · cases found : Munch.commentEndLength (front ++ back) with
      | zero => exact ih found
      | succ count =>
        rw [found] at none
        cases none

/-- Where no end tag comes, none comes later. -/
theorem throughLike_suffix (front : Text) {word back : Text}
    (none : Munch.throughLike word (front ++ back) = 0) (filled : word ≠ []) :
    Munch.throughLike word back = 0 := by
  induction front with
  | nil => exact none
  | cons char front ih =>
    rw [List.cons_append, Munch.throughLike] at none
    split at none
    · exact absurd (List.length_eq_zero_iff.mp none) filled
    · cases found : Munch.throughLike word (front ++ back) with
      | zero => exact ih found
      | succ count =>
        rw [found] at none
        cases none

/-- A scanner stands at a place of a source, and what it knows of comment ends is right: after the
offset that it keeps none comes. -/
structure Knows (source : Text) (scanner : Scanner) : Prop where
  here : ∃ front, source = front ++ scanner.rest ∧ scanner.point.offset = front.size
  endless : ∀ offset, scanner.noCommentEnd = some offset → ∀ front back, source = front ++ back →
    offset ≤ front.size → Munch.commentEndLength back = 0

/-- Of two places of a source, the later has the shorter rest. -/
theorem exists_between {front back first rest : Text} (split : front ++ back = first ++ rest)
    (later : front.size ≤ first.size) : ∃ between, back = between ++ rest := by
  rcases List.append_eq_append_iff.mp split with ⟨between, -, back_eq⟩ | ⟨between, front_eq, rest_eq⟩
  · exact ⟨between, back_eq⟩
  · cases between with
    | nil => exact ⟨[], rest_eq.symm⟩
    | cons char between =>
      have positive := char.utf8Size_pos
      rw [front_eq, Text.size_append, Text.size_cons] at later
      omega

variable {source : Text} {scanner : Scanner}

/-- What is remembered changes no length. -/
theorem Knows.lengthOf_eq (knows : Knows source scanner) (kind : Kind) :
    scanner.lengthOf kind = Munch.length kind scanner.rest := by
  unfold lengthOf
  split
  · next known =>
    obtain ⟨rfl, known⟩ := known
    simp only [Munch.length, Munch.commentLength]
    cases opened : Munch.commentBody? scanner.rest with
    | none => rfl
    | some body =>
      obtain ⟨front, source_eq, offset_eq⟩ := knows.here
      rw [Munch.eq_of_commentBody? opened, ← List.append_assoc] at source_eq
      unfold Scanner.endless at known
      split at known
      · cases known
      · next offset kept =>
        have reached : offset ≤ Text.size (front ++ ['<', '!', '-', '-']) := by
          rw [Text.size_append, ← offset_eq]
          exact of_decide_eq_true known
        simp only [knows.endless offset kept _ body source_eq reached]
  · rfl

theorem Knows.longest?_eq (knows : Knows source scanner) :
    scanner.longest? = Munch.longest? (Munch.length · scanner.rest) scanner.modes.top.candidates :=
  congrArg (Munch.longest? · _) (funext knows.lengthOf_eq)

/-- What is learned at a place is right. -/
theorem Knows.learn (knows : Knows source scanner) :
    Knows source { scanner with noCommentEnd := scanner.learn } where
  here := knows.here
  endless := by
    intro offset kept front back source_eq later
    simp only [Scanner.learn] at kept
    split at kept
    · next searched =>
      obtain ⟨-, -, opened, none⟩ := searched
      cases kept
      obtain ⟨body, opened⟩ := Option.isSome_iff_exists.mp opened
      obtain ⟨before, here, offset_eq⟩ := knows.here
      rw [Munch.eq_of_commentBody? opened, ← List.append_assoc] at here
      have later : Text.size (before ++ ['<', '!', '-', '-']) ≤ front.size := by
        rw [Text.size_append, ← offset_eq]
        exact later
      obtain ⟨between, rfl⟩ := exists_between (here.symm.trans source_eq) later
      refine commentEndLength_suffix between ?_
      simp only [Munch.commentLength, opened] at none
      split at none
      · assumption
      · cases none
    · exact knows.endless offset kept front back source_eq later

theorem knows_start (source : Text) : Knows source (.start source) where
  here := ⟨[], rfl, rfl⟩
  endless := fun _ kept => nomatch kept

/-- A scanner that moved on by some text knows what it knew. -/
theorem Knows.move (knows : Knows source scanner) (image : Text) {after : Scanner}
    (rest_eq : scanner.rest = image ++ after.rest) (point_eq : after.point = scanner.point.walk image)
    (kept : after.noCommentEnd = scanner.noCommentEnd) : Knows source after where
  here := by
    obtain ⟨front, source_eq, offset_eq⟩ := knows.here
    refine ⟨front ++ image, by rw [source_eq, rest_eq, List.append_assoc], ?_⟩
    rw [point_eq, Point.offset_walk, offset_eq, Text.size_append]
  endless := fun offset known => knows.endless offset (kept ▸ known)

/-- One bite of a scan: the token that is taken here, or one character where none can be. -/
inductive Bites (before : Scanner) : Scanner → Prop where
  | take {kind : Kind} {image : Text}
      (takes : Munch.Takes before.modes.top.candidates before.rest kind image) :
      Bites before (before.emit kind image.length)
  | skip {char : Char} {rest : Text} (here : before.rest = char :: rest)
      (stuck : Munch.Stuck before.modes.top.candidates before.rest) :
      Bites before (before.skip char [] rest)

def Course (source : Text) : Scanner → Prop := Relation.ReflTransGen Bites (.start source)

/-- At each place there is at most one bite. -/
theorem Bites.unique {before first second : Scanner} (left : Bites before first)
    (right : Bites before second) : first = second := by
  cases left with
  | take takes =>
    cases right with
    | take others =>
      obtain ⟨rfl, rfl⟩ := takes.unique others
      rfl
    | skip _ stuck => exact absurd stuck takes.not_stuck
  | skip here stuck =>
    cases right with
    | take others => exact absurd stuck others.not_stuck
    | skip there _ =>
      cases here.symm.trans there
      rfl

/-- At the end nothing is bitten off. -/
theorem Bites.rest_ne_nil {before after : Scanner} (bites : Bites before after) :
    before.rest ≠ [] := by
  cases bites with
  | take takes =>
    intro empty
    have none := takes.starts
    rw [empty, List.prefix_nil] at none
    exact (Munch.measures _).filled (none ▸ takes.belongs)
  | skip here => exact here ▸ List.cons_ne_nil _ _

/-- All that is bitten off stays. -/
theorem Bites.tokens_prefix {before after : Scanner} (bites : Bites before after) :
    before.tokens.reverse <+: after.tokens.reverse := by
  cases bites with
  | take => exact ⟨_, List.reverse_cons.symm⟩
  | skip => exact List.prefix_rfl

theorem tokens_prefix_of_bites {before after : Scanner}
    (bites : Relation.ReflTransGen Bites before after) :
    before.tokens.reverse <+: after.tokens.reverse := by
  induction bites with
  | refl => exact List.prefix_rfl
  | tail _ last ih => exact ih.trans last.tokens_prefix

/-- From each place of a course the bites lead to its end. -/
theorem Course.leads {first : Scanner} {middle last : Scanner}
    (front : Relation.ReflTransGen Bites first middle)
    (whole : Relation.ReflTransGen Bites first last) (finished : last.rest = []) :
    Relation.ReflTransGen Bites middle last := by
  induction front with
  | refl => exact whole
  | tail _ bite ih =>
    rcases ih.cases_head with rfl | ⟨after, other, further⟩
    · exact absurd finished bite.rest_ne_nil
    · exact bite.unique other ▸ further

/-- The modes are those that the tokens so far lead to. -/
theorem Course.modes_eq (course : Course source scanner) :
    scanner.modes = ModeStack.after scanner.tokens.reverse := by
  induction course with
  | refl => rfl
  | tail _ bite ih =>
    cases bite with
    | take => simp only [emit, List.reverse_cons, ModeStack.after_concat, ← ih, Token.place]
    | skip => exact ih

/-- The scanner without what it remembers. -/
def forget (scanner : Scanner) : Scanner := { scanner with noCommentEnd := none }

/-- To pass over a character and then more text is to pass over all of it. -/
theorem skip_skip (before : Scanner) (char next : Char) (more rest : Text) :
    (before.skip char [] (next :: (more ++ rest))).skip next more rest =
      before.skip char (next :: more) rest := by
  have total : ({ before.extend char 1 with
      count := (before.extend char 1).count + (more.length + 1) } : Skipped) =
        before.extend char ((next :: more).length + 1) := by
    unfold extend
    rw [List.length_cons, Nat.add_comm (more.length + 1) 1]
    cases before.skipped with
    | none => rfl
    | some run => simp only [Nat.add_assoc]
  simp only [skip, ← total]
  rfl

/-- To pass over some characters at once is to pass over them one by one. -/
theorem bites_skip (before : Scanner) {char : Char} {more : Text}
    (here : before.rest = char :: more)
    (stuck : ∀ front back, before.rest = front ++ back →
      Munch.Stuck before.modes.top.candidates back) :
    Relation.ReflTransGen Bites before (before.skip char more []) := by
  induction more generalizing char before with
  | nil => exact .single (.skip here (stuck [] _ rfl))
  | cons next more ih =>
    refine .head (.skip here (stuck [] _ rfl)) ?_
    have others : ∀ front back, next :: more = front ++ back →
        Munch.Stuck before.modes.top.candidates back := by
      intro front back split
      exact stuck (char :: front) back (by rw [here, split, List.cons_append])
    have further := ih (before.skip char [] (next :: more)) rfl others
    have together := skip_skip before char next more []
    rw [List.append_nil] at together
    rwa [together] at further

/-- In the content of a raw element, where no end tag comes now, none comes later. -/
theorem stuck_of_isRaw {modes : ModeStack} (raw : modes.top.isRaw = true) {text : Text}
    (stuck : Munch.Stuck modes.top.candidates text) (front back : Text)
    (split : text = front ++ back) : Munch.Stuck modes.top.candidates back := by
  unfold Mode.isRaw at raw
  split at raw
  · next element top =>
    rw [top] at stuck ⊢
    have none := Munch.length_eq_zero_iff.mpr (stuck (.rawRest element) List.mem_cons_self)
    rw [split] at none
    refine List.forall_mem_singleton.mpr (Munch.length_eq_zero_iff.mp ?_)
    exact throughLike_suffix front none (by cases element <;> decide)
  · cases raw

theorem Knows.step {before after : Scanner} (knows : Knows source before)
    (taken : before.step = some after) :
    Knows source after ∧ Relation.ReflTransGen Bites before.forget after.forget := by
  have learned := knows.learn
  unfold Scanner.step at taken
  split at taken
  · cases taken
  · next char rest here =>
    rw [knows.longest?_eq] at taken
    split at taken
    · next kind count chosen =>
      cases taken
      obtain ⟨image, rfl, takes⟩ := Munch.longest?_eq_some_iff.mp chosen
      refine ⟨learned.move (before.rest.take image.length) ?_ rfl rfl, .single ?_⟩
      · exact (List.take_append_drop _ _).symm
      · change Bites before.forget (before.forget.emit kind image.length)
        exact .take takes
    · next chosen =>
      have stuck := Munch.longest?_eq_none_iff.mp chosen
      split at taken
      · next raw =>
        cases taken
        refine ⟨learned.move (char :: rest) ?_ rfl rfl, ?_⟩
        · exact here.trans (List.append_nil _).symm
        · exact bites_skip before.forget here (stuck_of_isRaw raw stuck)
      · cases taken
        refine ⟨learned.move [char] here rfl rfl, .single ?_⟩
        change Bites before.forget (before.forget.skip char [] rest)
        exact .skip here stuck

/-- Wherever a scan gets to is a place of its course. -/
theorem course_of_reaches (reached : machine.Reaches (.start source) scanner) :
    Course source scanner.forget := by
  have both : Knows source scanner ∧ Course source scanner.forget := by
    apply reached.keeps fun scanner => Knows source scanner ∧ Course source scanner.forget
    · rintro before after ⟨knows, course⟩ taken
      obtain ⟨known, further⟩ := knows.step taken
      exact ⟨known, course.trans further⟩
    · exact ⟨knows_start source, .refl⟩
  exact both.2

/-- The course ends with what the scan finds. -/
theorem exists_course (source : Text) :
    ∃ last, Course source last ∧ last.rest = [] ∧ last.result = scan source :=
  ⟨_, course_of_reaches (machine.reaches_exhaust _), rest_exhaust (.start source), rfl⟩

/-- What a course that is at its end has found is what the scan finds. -/
theorem Course.result_eq (course : Course source scanner) (finished : scanner.rest = []) :
    scanner.result = scan source := by
  obtain ⟨last, whole, ended, found⟩ := exists_course source
  rcases (Course.leads course whole ended).cases_head with rfl | ⟨_, bite, _⟩
  · exact found
  · exact absurd finished bite.rest_ne_nil

theorem Course.tokens_prefix (course : Course source scanner) :
    scanner.tokens.reverse <+: (scan source).tokens := by
  obtain ⟨last, whole, ended, found⟩ := exists_course source
  rw [← found]
  exact tokens_prefix_of_bites (Course.leads course whole ended)

/-- The text of each token belongs to its kind. -/
theorem Course.belongs (course : Course source scanner) :
    ∀ token ∈ scanner.tokens, Munch.Language token.kind token.image := by
  induction course with
  | refl => exact List.forall_mem_nil _
  | tail _ bite ih =>
    cases bite with
    | take takes =>
      refine List.forall_mem_cons.mpr ⟨?_, ih⟩
      rw [takes.image_eq]
      exact takes.belongs
    | skip => exact ih

end Scanner

theorem language_of_scan {source : Text} {token : Token} (member : token ∈ (scan source).tokens) :
    Munch.Language token.kind token.image := by
  obtain ⟨last, course, -, found⟩ := Scanner.exists_course source
  rw [← found] at member
  exact course.belongs token (List.mem_reverse.mp member)

/-- A scan takes the longest start that its mode allows, by the languages of the kinds. Its places
are those of the course that begins at the start of the source and goes on bite by bite, and the
course ends with what the scan finds. At every place the modes are those that the tokens so far lead
to. If a start of the rest belongs to a kind of the current mode, the next token is the longest such
start, with the earliest kind of those that have one of this length; and if none does, the next
place is one character further. -/
theorem scan_munches (source : Text) :
    (∃ last, Scanner.Course source last ∧ last.rest = [] ∧ last.result = scan source) ∧
    (∀ scanner, Scanner.machine.Reaches (.start source) scanner →
      Scanner.Course source { scanner with noCommentEnd := none }) ∧
    ∀ scanner, Scanner.Course source scanner →
      scanner.modes = ModeStack.after scanner.tokens.reverse ∧
      ((∃ kind ∈ scanner.modes.top.candidates, ∃ start, start <+: scanner.rest ∧
          Munch.Language kind start) →
        ∃ kind image, Munch.Takes scanner.modes.top.candidates scanner.rest kind image ∧
          Scanner.Course source (scanner.emit kind image.length) ∧
          scanner.tokens.reverse ++ [.place kind image scanner.point] <+: (scan source).tokens) ∧
      ((∀ kind ∈ scanner.modes.top.candidates, ∀ start, start <+: scanner.rest →
          ¬Munch.Language kind start) →
        ∀ char rest, scanner.rest = char :: rest →
          Scanner.Course source (scanner.skip char [] rest) ∧
          ∀ after, Scanner.Bites scanner after → after = scanner.skip char [] rest) := by
  refine ⟨Scanner.exists_course source, fun _ => Scanner.course_of_reaches,
    fun scanner course => ⟨course.modes_eq, ?_, ?_⟩⟩
  · rintro ⟨kind, member, start, starts, belongs⟩
    obtain ⟨kind, image, takes⟩ :=
      Munch.exists_takes fun stuck => stuck kind member start starts belongs
    have further : Scanner.Course source (scanner.emit kind image.length) := course.tail (.take takes)
    refine ⟨kind, image, takes, further, ?_⟩
    have kept := further.tokens_prefix
    simpa only [Scanner.emit, List.reverse_cons, takes.image_eq] using kept
  · intro stuck char rest here
    exact ⟨course.tail (.skip here stuck), fun after bite => bite.unique (.skip here stuck)⟩

end Template
