import Template.Proofs.Concrete.Moves
import Template.Proofs.Concrete.Relabel

set_option autoImplicit false

namespace Template.Concrete

variable {τ : Type}

mutual

/-- A child and every child inside it. -/
def Child.family : Child τ → List (Child τ)
  | .block first others finish =>
    .block first others finish :: (first.family ++ Branch.families others)
  | .element head angle content close => .element head angle content close :: Child.families content
  | child => [child]

def Branch.family : Branch τ → List (Child τ)
  | ⟨_, content⟩ => Child.families content

def Child.families : List (Child τ) → List (Child τ)
  | [] => []
  | child :: rest => child.family ++ Child.families rest

def Branch.families : List (Branch τ) → List (Child τ)
  | [] => []
  | branch :: rest => branch.family ++ Branch.families rest

end

theorem Child.families_append (first second : List (Child τ)) :
    Child.families (first ++ second) = Child.families first ++ Child.families second := by
  induction first with
  | nil => rfl
  | cons child rest ih => simp only [List.cons_append, Child.families, ih, List.append_assoc]

theorem Branch.families_append (first second : List (Branch τ)) :
    Branch.families (first ++ second) = Branch.families first ++ Branch.families second := by
  induction first with
  | nil => rfl
  | cons branch rest ih => simp only [List.cons_append, Branch.families, ih, List.append_assoc]

def Frame.finished : Frame τ → List (Child τ)
  | element _ _ children => Child.families children.reverse
  | block earlier _ children => Branch.families earlier.reverse ++ Child.families children.reverse

theorem Frame.yield_add (frame : Frame τ) (child : Child τ) :
    (frame.add child).yield = frame.yield ++ child.yield := by
  cases frame <;>
    simp only [Frame.add, Frame.yield, List.reverse_cons, Child.yields_append, Child.yields,
      List.append_nil, List.append_assoc, List.cons_append]

theorem Frame.finished_add (frame : Frame τ) (child : Child τ) :
    (frame.add child).finished = frame.finished ++ child.family := by
  cases frame <;>
    simp only [Frame.add, Frame.finished, List.reverse_cons, Child.families_append, Child.families,
      List.append_nil, List.append_assoc]

namespace Builder

/-- The tokens that are held by the tree and by what is open, in order. -/
def held (builder : Builder τ) : List τ :=
  Child.yields builder.children.reverse ++ builder.frames.reverse.flatMap Frame.yield

def finished (builder : Builder τ) : List (Child τ) :=
  Child.families builder.children.reverse ++ builder.frames.reverse.flatMap Frame.finished

@[simp] theorem rest_add (builder : Builder τ) (child : Child τ) :
    (builder.add child).rest = builder.rest := by
  unfold add
  split <;> rfl

@[simp] theorem faults_add (builder : Builder τ) (child : Child τ) :
    (builder.add child).faults = builder.faults := by
  unfold add
  split <;> rfl

theorem frames_length_add (builder : Builder τ) (child : Child τ) :
    (builder.add child).frames.length = builder.frames.length := by
  obtain ⟨rest, frames, children, faults⟩ := builder
  cases frames <;> rfl

theorem note_faults (builder : Builder τ) (cause : Cause τ) (site : Site τ) :
    (builder.note cause site).faults ≠ [] := List.cons_ne_nil _ _

theorem held_add (builder : Builder τ) (child : Child τ) :
    (builder.add child).held = builder.held ++ child.yield := by
  obtain ⟨rest, frames, children, faults⟩ := builder
  cases frames with
  | nil =>
    simp only [add, held, List.reverse_cons, Child.yields_append, Child.yields, List.append_nil,
      List.reverse_nil, List.flatMap_nil]
  | cons frame below =>
    simp only [add, held, List.reverse_cons, List.flatMap_append, List.flatMap_singleton,
      Frame.yield_add, List.append_assoc]

theorem finished_add (builder : Builder τ) (child : Child τ) :
    (builder.add child).finished = builder.finished ++ child.family := by
  obtain ⟨rest, frames, children, faults⟩ := builder
  cases frames with
  | nil =>
    simp only [add, finished, List.reverse_cons, Child.families_append, Child.families,
      List.append_nil, List.reverse_nil, List.flatMap_nil]
  | cons frame below =>
    simp only [add, finished, List.reverse_cons, List.flatMap_append, List.flatMap_singleton,
      Frame.finished_add, List.append_assoc]

theorem held_of_frames {builder : Builder τ} {frame : Frame τ} {below : List (Frame τ)}
    (inside : builder.frames = frame :: below) :
    builder.held = { builder with frames := below }.held ++ frame.yield := by
  simp only [held, inside, List.reverse_cons, List.flatMap_append, List.flatMap_singleton,
    List.append_assoc]

theorem finished_of_frames {builder : Builder τ} {frame : Frame τ} {below : List (Frame τ)}
    (inside : builder.frames = frame :: below) :
    builder.finished = { builder with frames := below }.finished ++ frame.finished := by
  simp only [finished, inside, List.reverse_cons, List.flatMap_append, List.flatMap_singleton,
    List.append_assoc]

theorem yield_blockOf (finish : Option (BlockEnd τ)) (earlier : List (Branch τ)) :
    ∀ (current : Branch τ) (later : List (Branch τ)),
      (blockOf finish earlier current later).yield =
        Branch.yields earlier.reverse ++ (current.yield ++ (Branch.yields later ++
          finish.toList.flatMap BlockEnd.yield)) := by
  induction earlier with
  | nil =>
    intro current later
    simp only [blockOf, Child.yield, List.reverse_nil, Branch.yields, List.nil_append,
      List.append_assoc]
  | cons branch earlier ih =>
    intro current later
    simp only [blockOf, ih, List.reverse_cons, Branch.yields_append, Branch.yields, List.append_nil,
      List.append_assoc]

theorem family_blockOf (finish : Option (BlockEnd τ)) (earlier : List (Branch τ)) :
    ∀ (current : Branch τ) (later : List (Branch τ)),
      (blockOf finish earlier current later).family =
        blockOf finish earlier current later ::
          (Branch.families earlier.reverse ++ (current.family ++ Branch.families later)) := by
  induction earlier with
  | nil =>
    intro current later
    simp only [blockOf, Child.family, List.reverse_nil, Branch.families, List.nil_append]
  | cons branch earlier ih =>
    intro current later
    rw [blockOf, ih]
    simp only [List.reverse_cons, Branch.families_append, Branch.families, List.append_nil,
      List.append_assoc]

theorem blockOf_eq (finish : Option (BlockEnd τ)) {first : Branch τ} {others : List (Branch τ)} :
    ∀ (earlier : List (Branch τ)) (current : Branch τ) (later : List (Branch τ)),
      earlier.reverse ++ current :: later = first :: others →
        blockOf finish earlier current later = .block first others finish := by
  intro earlier
  induction earlier with
  | nil =>
    intro current later same
    obtain ⟨rfl, rfl⟩ := List.cons.inj same
    rfl
  | cons branch earlier ih =>
    intro current later same
    refine ih branch (current :: later) ?_
    rw [← same, List.reverse_cons, List.append_assoc, List.singleton_append]

theorem firstMarker_eq {first : Branch τ} {others : List (Branch τ)} :
    ∀ (earlier : List (Branch τ)) (marker : Marker τ) (content : List (Child τ))
      (later : List (Branch τ)), earlier.reverse ++ ⟨marker, content⟩ :: later = first :: others →
        firstMarker earlier marker = first.marker := by
  intro earlier
  induction earlier with
  | nil =>
    intro marker content later same
    obtain ⟨rfl, -⟩ := List.cons.inj same
    rfl
  | cons branch earlier ih =>
    intro marker content later same
    obtain ⟨outer, inner⟩ := branch
    refine ih outer inner (⟨marker, content⟩ :: later) ?_
    rw [← same, List.reverse_cons, List.append_assoc, List.singleton_append]

theorem held_endElement (builder : Builder τ) {below : List (Frame τ)} {head : Head τ} {angle : τ}
    {children : List (Child τ)} (inside : builder.frames = .element head angle children :: below)
    (close : Option (CloseTag τ)) :
    (builder.endElement below head angle children close).held =
      builder.held ++ close.toList.flatMap CloseTag.yield := by
  rw [endElement, held_add, held_of_frames inside]
  simp only [Child.yield, Frame.yield, List.append_assoc, List.cons_append]

theorem held_endBlock (builder : Builder τ) {below : List (Frame τ)} {earlier : List (Branch τ)}
    {marker : Marker τ} {children : List (Child τ)}
    (inside : builder.frames = .block earlier marker children :: below)
    (finish : Option (BlockEnd τ)) :
    (builder.endBlock below earlier marker children finish).held =
      builder.held ++ finish.toList.flatMap BlockEnd.yield := by
  rw [endBlock, held_add, held_of_frames inside, yield_blockOf]
  simp only [Branch.yield, Branch.yields, List.nil_append, Frame.yield, List.append_assoc]

/-- The children of a block that ends are those of a block with a first branch. -/
theorem exists_blockOf (earlier : List (Branch τ)) (marker : Marker τ) (content : List (Child τ)) :
    ∃ first others, earlier.reverse ++ [⟨marker, content⟩] = first :: others ∧
      (∀ finish, blockOf finish earlier ⟨marker, content⟩ [] = .block first others finish) ∧
      firstMarker earlier marker = first.marker := by
  obtain ⟨first, others, spelled⟩ : ∃ first others,
      earlier.reverse ++ [⟨marker, content⟩] = first :: others :=
    List.exists_cons_of_ne_nil (List.append_ne_nil_of_right_ne_nil _ (List.cons_ne_nil _ _))
  exact ⟨first, others, spelled, fun finish => blockOf_eq finish earlier _ [] spelled,
    firstMarker_eq earlier marker content [] spelled⟩

/-- An element that ends becomes complete, and nothing else does. -/
theorem finished_endElement (builder : Builder τ) {below : List (Frame τ)} {head : Head τ}
    {angle : τ} {children : List (Child τ)}
    (inside : builder.frames = .element head angle children :: below)
    (close : Option (CloseTag τ)) :
    (builder.endElement below head angle children close).finished.Perm
      (.element head angle children.reverse close :: builder.finished) := by
  rw [endElement, finished_add, finished_of_frames inside, Child.family]
  exact List.perm_middle

/-- A block that ends becomes complete, and nothing else does. -/
theorem finished_endBlock (builder : Builder τ) {below : List (Frame τ)} {earlier : List (Branch τ)}
    {marker : Marker τ} {children : List (Child τ)}
    (inside : builder.frames = .block earlier marker children :: below)
    (finish : Option (BlockEnd τ)) :
    (builder.endBlock below earlier marker children finish).finished.Perm
      (blockOf finish earlier ⟨marker, children.reverse⟩ [] :: builder.finished) := by
  rw [endBlock, finished_add, finished_of_frames inside, family_blockOf]
  simp only [Frame.finished, Branch.family, Branch.families, List.append_nil]
  exact List.perm_middle

/-- A frame that is opened has no complete children yet. -/
theorem finished_push (builder : Builder τ) (frame : Frame τ) (empty : frame.finished = []) :
    { builder with frames := frame :: builder.frames }.finished = builder.finished := by
  rw [finished_of_frames rfl, empty, List.append_nil]

/-- The branch that ends keeps its children. -/
theorem finished_turn (builder : Builder τ) {below : List (Frame τ)} {earlier : List (Branch τ)}
    {marker next : Marker τ} {children : List (Child τ)}
    (inside : builder.frames = .block earlier marker children :: below) :
    { builder with
      frames := .block (⟨marker, children.reverse⟩ :: earlier) next [] :: below }.finished =
        builder.finished := by
  rw [finished_of_frames inside, finished_of_frames rfl]
  simp only [Frame.finished, List.reverse_cons, Branch.families_append, Branch.families,
    Branch.family, List.append_nil, List.reverse_nil, Child.families]

theorem faults_of_move [Terminal τ] {before after : Builder τ} (move : Move before after) :
    before.faults <:+ after.faults := by
  cases move with
  | drop => exact List.suffix_cons _ _
  | note => exact List.suffix_cons _ _
  | add => simp only [faults_add, List.suffix_refl]
  | openElement => exact List.suffix_refl _
  | openBlock => exact List.suffix_refl _
  | turn => exact List.suffix_refl _
  | endElement => simp only [endElement, faults_add, List.suffix_refl]
  | endBlock => simp only [endBlock, faults_add, List.suffix_refl]

/-- A complete child stays. -/
theorem finished_of_move [Terminal τ] {before after : Builder τ} (move : Move before after) :
    before.finished ⊆ after.finished := by
  cases move with
  | drop lost dropped rest cause here => exact List.Subset.refl _
  | note cause site => exact List.Subset.refl _
  | add child rest here =>
    rw [finished_add]
    exact List.subset_append_left _ _
  | openElement head angle rest here =>
    have same := finished_push { before with rest } (.element head angle []) rfl
    exact (List.Perm.of_eq same).symm.subset
  | openBlock marker rest here =>
    have same := finished_push { before with rest } (.block [] marker []) rfl
    exact (List.Perm.of_eq same).symm.subset
  | turn below earlier marker next children rest inside here =>
    exact (List.Perm.of_eq (finished_turn { before with rest } inside)).symm.subset
  | endElement below head angle children close rest inside here =>
    exact List.Subset.trans (List.subset_cons_self _ _)
      (finished_endElement { before with rest } inside close).symm.subset
  | endBlock below earlier marker children finish rest inside here =>
    exact List.Subset.trans (List.subset_cons_self _ _)
      (finished_endBlock { before with rest } inside finish).symm.subset

end Builder

/-- The tokens up to what is left are accounted for: each was kept, in order, or it was dropped at a
fault, or lost before one with every token between. -/
inductive Accounted (tokens : List τ) : (held : List τ) → (faults : List (Fault τ)) →
    (rest : List τ) → Prop where
  | start : Accounted tokens [] [] tokens
  | keep {held rest : List τ} {faults : List (Fault τ)} (kept : List τ)
      (before : Accounted tokens held faults (kept ++ rest)) :
      Accounted tokens (held ++ kept) faults rest
  | note {held rest : List τ} {faults : List (Fault τ)} (fault : Fault τ)
      (before : Accounted tokens held faults rest) : Accounted tokens held (fault :: faults) rest
  | drop {held rest : List τ} {faults : List (Fault τ)} (lost dropped : List τ) (cause : Cause τ)
      (before : Accounted tokens held faults (lost ++ (dropped ++ rest))) :
      Accounted tokens held (⟨cause, .dropped dropped rest⟩ :: faults) rest

/-- The tokens that a builder has read are accounted for. -/
def Builder.Accounts (tokens : List τ) (builder : Builder τ) : Prop :=
  Accounted tokens builder.held builder.faults builder.rest

open Builder in
theorem accounts_of_move [Terminal τ] {tokens : List τ} {before after : Builder τ}
    (move : Move before after) (accounts : before.Accounts tokens) : after.Accounts tokens := by
  cases move with
  | drop lost dropped rest cause here =>
    rw [Accounts, here] at accounts
    exact .drop lost dropped cause accounts
  | note cause site => exact .note ⟨cause, site⟩ accounts
  | add child rest here =>
    rw [Accounts, here] at accounts
    rw [Accounts, held_add, faults_add, rest_add]
    exact .keep child.yield accounts
  | openElement head angle rest here =>
    have here : before.rest = (head.yield ++ [angle]) ++ rest := by
      rw [here, List.append_assoc, List.singleton_append]
    have held : Builder.held { before with
        rest, frames := .element head angle [] :: before.frames } =
        before.held ++ (head.yield ++ [angle]) := by
      simp only [Builder.held, List.reverse_cons, List.flatMap_append, List.flatMap_singleton,
        Frame.yield, List.reverse_nil, Child.yields, List.append_assoc]
    rw [Accounts, here] at accounts
    rw [Accounts, held]
    exact .keep _ accounts
  | openBlock marker rest here =>
    have held : Builder.held { before with
        rest, frames := .block [] marker [] :: before.frames } = before.held ++ marker.yield := by
      simp only [Builder.held, List.reverse_cons, List.flatMap_append, List.flatMap_singleton,
        Frame.yield, List.reverse_nil, Child.yields, Branch.yields, List.append_nil,
        List.nil_append, List.append_assoc]
    rw [Accounts, here] at accounts
    rw [Accounts, held]
    exact .keep _ accounts
  | turn below earlier marker next children rest inside here =>
    have held : Builder.held { before with
        rest
        frames := .block (⟨marker, children.reverse⟩ :: earlier) next [] :: below } =
        before.held ++ next.yield := by
      rw [held_of_frames inside]
      simp only [Builder.held, List.reverse_cons, List.flatMap_append, List.flatMap_singleton,
        Frame.yield, List.reverse_nil, Child.yields, Branch.yields_append, Branch.yields,
        Branch.yield, List.append_nil, List.append_assoc]
    rw [Accounts, here] at accounts
    rw [Accounts, held]
    exact .keep _ accounts
  | endElement below head angle children close rest inside here =>
    rw [Accounts, here] at accounts
    rw [Accounts, held_endElement { before with rest } inside, endElement, faults_add,
      rest_add]
    exact .keep _ accounts
  | endBlock below earlier marker children finish rest inside here =>
    rw [Accounts, here] at accounts
    rw [Accounts, held_endBlock { before with rest } inside, endBlock, faults_add,
      rest_add]
    exact .keep _ accounts

/-- Where no fault was recorded, what was read was kept. -/
theorem Accounted.eq_of_clean {tokens held rest : List τ} {faults : List (Fault τ)}
    (accounted : Accounted tokens held faults rest) (clean : faults = []) :
    tokens = held ++ rest := by
  induction accounted with
  | start => rfl
  | keep kept before ih => rw [ih clean, List.append_assoc]
  | note fault before ih => cases clean
  | drop lost dropped cause before ih => cases clean

/-- The numbers of the tokens that a fault concerns: that of the first, and the one after the last.
A fault that takes no token stands at the number of the next one, or of all tokens at the end. -/
def Site.range (count : Nat) : Site (τ × Nat) → Nat × Nat
  | .across first last => (first.2, last.2 + 1)
  | .before token => (token.2, token.2)
  | .finish => (count, count)

/-- Whether a fault tells of the token with a number: the token is among those the fault concerns,
or it comes before them and no token from it up to them is held. -/
def Fault.Explains (count : Nat) (held : List (τ × Nat)) (index : Nat) (fault : Fault (τ × Nat)) :
    Prop :=
  let range := fault.site.range count
  (range.1 ≤ index ∧ index < range.2) ∨
    (index < range.1 ∧ ∀ other, index ≤ other → other < range.1 → other ∉ held.map Prod.snd)

/-- Tokens that are numbered from a number on. -/
def Numbered (first : Nat) (tokens : List (τ × Nat)) : Prop :=
  tokens.map Prod.snd = List.range' first tokens.length

theorem numbered_append {first : Nat} {front back : List (τ × Nat)} :
    Numbered first (front ++ back) ↔
      Numbered first front ∧ Numbered (first + front.length) back := by
  simp only [Numbered, List.map_append, List.length_append, ← List.range'_append_1]
  constructor
  · intro same
    exact List.append_inj same (by simp only [List.length_map, List.length_range'])
  · rintro ⟨left, right⟩
    rw [left, right]

theorem numbered_cons {first : Nat} {token : τ × Nat} {rest : List (τ × Nat)} :
    Numbered first (token :: rest) ↔ token.2 = first ∧ Numbered (first + 1) rest := by
  simp only [Numbered, List.map_cons, List.length_cons, List.range'_succ, List.cons.injEq]

theorem Numbered.mem_iff {first index : Nat} {tokens : List (τ × Nat)}
    (numbered : Numbered first tokens) :
    index ∈ tokens.map Prod.snd ↔ first ≤ index ∧ index < first + tokens.length := by
  rw [numbered, List.mem_range'_1]

/-- The tokens that a recovery drops are those from the first to the one before what is left. -/
theorem Site.range_dropped {first count : Nat} {dropped rest : List (τ × Nat)}
    (numbered : Numbered first (dropped ++ rest)) (all : first + (dropped ++ rest).length = count) :
    (Site.dropped dropped rest).range count = (first, first + dropped.length) := by
  cases dropped with
  | nil =>
    cases rest with
    | nil =>
      have finish : first = count := all
      simp only [Site.dropped, Site.at, Site.range, finish, List.length_nil, Nat.add_zero]
    | cons token rest =>
      have here : token.2 = first := (numbered_cons.mp numbered).1
      simp only [Site.dropped, Site.at, Site.range, here, List.length_nil, Nat.add_zero]
  | cons token more =>
    obtain ⟨numbered, -⟩ := numbered_append.mp numbered
    have here : token.2 = first := (numbered_cons.mp numbered).1
    have last : (more.getLastD token).2 + 1 = first + (more.length + 1) := by
      rcases List.eq_nil_or_concat more with rfl | ⟨front, final, rfl⟩
      · simp only [List.getLastD_nil, here, List.length_nil, Nat.zero_add]
      · rw [List.concat_eq_append] at numbered ⊢
        rw [← List.cons_append] at numbered
        obtain ⟨-, numbered⟩ := numbered_append.mp numbered
        have place := (numbered_cons.mp numbered).1
        simp only [List.length_cons] at place
        simp only [List.getLastD_concat, List.length_append, List.length_singleton]
        omega
    simp only [Site.dropped, Site.range, here, last, List.length_cons]

/-- Where tokens are accounted for, every number of a token that is not held has its fault. -/
theorem Accounted.explained {tokens held rest : List (τ × Nat)} {faults : List (Fault (τ × Nat))}
    (numbered : Numbered 0 tokens) (accounted : Accounted tokens held faults rest) :
    ∃ front, tokens = front ++ rest ∧ held.Sublist front ∧
      ∀ index, index < front.length → index ∉ held.map Prod.snd →
        ∃ fault ∈ faults, (fault.site.range tokens.length).1 ≤ front.length ∧
          fault.Explains tokens.length held index := by
  induction accounted with
  | start =>
    exact ⟨[], rfl, List.Sublist.refl _, fun index inside => absurd inside index.not_lt_zero⟩
  | keep kept before ih =>
    obtain ⟨front, here, sub, explained⟩ := ih
    refine ⟨front ++ kept, by rw [here, List.append_assoc], sub.append (List.Sublist.refl kept), ?_⟩
    intro index inside absent
    rw [List.map_append, List.mem_append, not_or] at absent
    rw [here] at numbered
    obtain ⟨-, numbered⟩ := numbered_append.mp numbered
    obtain ⟨numbered, -⟩ := numbered_append.mp numbered
    rw [Nat.zero_add] at numbered
    rw [List.length_append] at inside ⊢
    -- A token that is not held is not among those just kept.
    have earlier : index < front.length := by
      have outside := mt numbered.mem_iff.mpr absent.2
      omega
    obtain ⟨fault, recorded, behind, told⟩ := explained index earlier absent.1
    refine ⟨fault, recorded, by omega, told.imp_right ?_⟩
    rintro ⟨lost, gone⟩
    refine ⟨lost, fun other from_ below => ?_⟩
    rw [List.map_append, List.mem_append, not_or]
    refine ⟨gone other from_ below, fun present => ?_⟩
    have after := numbered.mem_iff.mp present
    omega
  | note fault before ih =>
    obtain ⟨front, here, sub, explained⟩ := ih
    refine ⟨front, here, sub, fun index inside absent => ?_⟩
    obtain ⟨fault, recorded, found⟩ := explained index inside absent
    exact ⟨fault, List.mem_cons_of_mem _ recorded, found⟩
  | @drop held rest faults lost dropped cause before ih =>
    obtain ⟨front, here, sub, explained⟩ := ih
    refine ⟨front ++ (lost ++ dropped), by rw [here]; simp only [List.append_assoc],
      sub.trans (List.sublist_append_left _ _), ?_⟩
    intro index inside absent
    have length : tokens.length = front.length + (lost.length + (dropped ++ rest).length) := by
      rw [here, List.length_append, List.length_append]
    have parts := numbered
    rw [here] at parts
    obtain ⟨first, parts⟩ := numbered_append.mp parts
    obtain ⟨-, parts⟩ := numbered_append.mp parts
    have total : 0 + front.length + lost.length + (dropped ++ rest).length = tokens.length := by
      omega
    have range := Site.range_dropped parts total
    rw [List.length_append, List.length_append] at inside
    by_cases earlier : index < front.length
    · obtain ⟨fault, recorded, behind, told⟩ := explained index earlier absent
      refine ⟨fault, List.mem_cons_of_mem _ recorded, ?_, told⟩
      rw [List.length_append]
      omega
    · refine ⟨_, List.mem_cons_self, ?_, ?_⟩
      · simp only [range, List.length_append]
        omega
      · simp only [Fault.Explains, range]
        by_cases among : 0 + front.length + lost.length ≤ index
        · exact .inl ⟨among, by omega⟩
        · refine .inr ⟨by omega, fun other from_ _ present => ?_⟩
          -- What is held was read before this fault.
          have held := first.mem_iff.mp ((sub.map Prod.snd).subset present)
          omega

section Build

variable [Terminal τ]

/-- Whatever a run of building has read is accounted for. -/
theorem accounts_of_reaches {tokens : List τ} {state : Builder τ}
    (steps : Builder.machine.Reaches (.start tokens) state) : state.Accounts tokens :=
  Builder.keeps_of_moves (Builder.Accounts tokens)
    (fun _ _ move accounts => accounts_of_move move accounts) steps .start

/-- At the end every token is accounted for, by the tree and the faults. -/
theorem accounted_build (tokens : List τ) :
    Accounted tokens (Child.yields (build tokens).children) (build tokens).faults.reverse [] := by
  have accounts := accounts_of_reaches (Builder.machine.reaches_exhaust (.start tokens))
  obtain ⟨rest, frames⟩ := Builder.stopped_of_step
    (Builder.machine.step_exhaust (Builder.start tokens))
  simp only [Builder.Accounts, Builder.held, rest, frames, List.reverse_nil, List.flatMap_nil,
    List.append_nil] at accounts
  simpa only [build, Builder.result, List.reverse_reverse] using accounts

/-- Where building records no fault, the tree has every token. -/
theorem yields_of_clean {tokens : List τ} (clean : (build tokens).faults = []) :
    Child.yields (build tokens).children = tokens := by
  have accounted := accounted_build tokens
  rw [clean] at accounted
  exact ((accounted.eq_of_clean rfl).trans (List.append_nil _)).symm

/-- What is complete at the end is in the tree. -/
theorem finished_exhaust (tokens : List τ) :
    (Builder.machine.exhaust (.start tokens)).finished = Child.families (build tokens).children := by
  have frames := (Builder.stopped_of_step
    (Builder.machine.step_exhaust (Builder.start tokens))).2
  simp only [Builder.finished, frames, List.reverse_nil, List.flatMap_nil, List.append_nil]
  rfl

/-- A child that is complete at any time is in the tree at the end. -/
theorem finished_subset {tokens : List τ} {state : Builder τ}
    (steps : Builder.machine.Reaches (.start tokens) state) :
    state.finished ⊆ Child.families (build tokens).children := by
  have further : Builder.machine.Reaches state (Builder.machine.exhaust (.start tokens)) := by
    rw [steps.exhaust_eq]
    exact Builder.machine.reaches_exhaust state
  have stays := Builder.keeps_of_moves (fun later => state.finished ⊆ later.finished)
    (fun _ _ move earlier => List.Subset.trans earlier (Builder.finished_of_move move)) further
    (List.Subset.refl _)
  rwa [finished_exhaust] at stays

end Build

/-- No token disappears silently. With the tokens numbered, the tree holds some of them in their
order, and for every other there is a fault that tells of it. So a tree without faults has all
tokens; and no child that was complete at any time is missing from the tree. -/
theorem build_loses_nothing (tokens : List Token) :
    let built := build tokens.zipIdx
    built.map Prod.fst = build tokens ∧
      Child.yields (build tokens).children = (Child.yields built.children).map Prod.fst ∧
      (Child.yields built.children).Sublist tokens.zipIdx ∧
      (∀ index, index < tokens.length → index ∉ (Child.yields built.children).map Prod.snd →
        ∃ fault ∈ built.faults,
          fault.Explains tokens.length (Child.yields built.children) index) ∧
      ((build tokens).faults = [] → Child.yields (build tokens).children = tokens) ∧
      ∀ state, Builder.machine.Reaches (.start tokens) state →
        state.finished ⊆ Child.families (build tokens).children := by
  intro built
  have unnumbered : built.map Prod.fst = build tokens := by
    rw [← build_map Terminal.keeps_fst, List.zipIdx_map_fst]
  have numbered : Numbered 0 tokens.zipIdx := by
    rw [Numbered, List.zipIdx_map_snd, List.length_zipIdx]
  obtain ⟨front, here, sub, explained⟩ := (accounted_build tokens.zipIdx).explained numbered
  rw [List.append_nil] at here
  rw [← here] at sub
  rw [← here, List.length_zipIdx] at explained
  refine ⟨unnumbered, ?_, sub, ?_, yields_of_clean, fun state steps => finished_subset steps⟩
  · rw [← unnumbered, Built.map, ← Child.maps_eq, Child.yields_maps]
  · intro index inside absent
    obtain ⟨fault, recorded, -, told⟩ := explained index inside absent
    exact ⟨fault, List.mem_reverse.mp recorded, told⟩

end Template.Concrete
