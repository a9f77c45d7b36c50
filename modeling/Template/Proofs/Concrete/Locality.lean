import Template.Proofs.Concrete.Completeness
import Template.Proofs.Scan.Reading

set_option autoImplicit false

namespace Template.Concrete

open Terminal (kind tagName blockName)
open Rule

variable {τ : Type} [Terminal τ]

/-- Some tokens leave every stack of modes as it was. -/
def Neutral (tokens : List τ) : Prop :=
  ∀ stack : ModeStack, stack.through (tokens.map kind) = stack

theorem neutral_nil : Neutral ([] : List τ) := fun _ => rfl

theorem Neutral.append {front back : List τ} (first : Neutral front) (second : Neutral back) :
    Neutral (front ++ back) := by
  intro stack
  rw [List.map_append, ModeStack.through_append, first, second]

theorem Neutral.flatMap {α : Type} {items : List α} {inner : α → List τ}
    (each : ∀ item ∈ items, Neutral (inner item)) : Neutral (items.flatMap inner) := by
  induction items with
  | nil => exact neutral_nil
  | cons item rest ih =>
    obtain ⟨first, others⟩ := List.forall_mem_cons.mp each
    exact first.append (ih others)

theorem neutral_stay {token : τ} {wanted : Kind} (same : kind token = wanted)
    (stays : wanted.transition = .stay) : Neutral [token] := by
  intro stack
  simp only [List.map_cons, same, List.map_nil, ModeStack.through_cons, stays,
    ModeStack.through_nil]
  rfl

theorem neutral_ifAny {token : Option τ} {wanted : Kind} (same : IfAny wanted token)
    (stays : wanted.transition = .stay) : Neutral token.toList := by
  cases token with
  | none => exact neutral_nil
  | some token => exact neutral_stay (same token rfl) stays

/-- What is entered and left again. -/
theorem neutral_between {opening closing : τ} {inner : List τ} {mode : Mode}
    (opens : (kind opening).transition = .push mode) (closes : (kind closing).transition = .pop)
    (inside : Neutral inner) : Neutral (opening :: inner ++ [closing]) := by
  intro stack
  simp only [List.map_cons, List.map_append, List.map_nil, List.cons_append, ModeStack.through_cons,
    ModeStack.through_append, opens, closes, ModeStack.through_nil]
  rw [inside]
  rfl

theorem Braced.Formed.neutral {script : Braced τ} (formed : script.Formed) :
    Neutral script.yield := by
  have inside : Neutral (script.blank.toList ++ [script.content]) :=
    (neutral_ifAny formed.blank rfl).append (neutral_stay formed.content rfl)
  have whole : script.yield =
      script.opening :: (script.blank.toList ++ [script.content]) ++ [script.closing] := by
    simp only [Braced.yield, List.cons_append, List.append_assoc, List.nil_append]
  rw [whole]
  exact neutral_between (by rw [formed.opening]; rfl) (by rw [formed.closing]; rfl) inside

theorem Marker.Formed.neutral {marker : Marker τ} {sigil : Sigil} (formed : marker.Formed sigil) :
    Neutral marker.yield := by
  have inside : Neutral ([marker.name] ++ marker.blank.toList ++ marker.script.toList) :=
    ((neutral_stay formed.name rfl).append (neutral_ifAny formed.blank rfl)).append
      (neutral_ifAny formed.script rfl)
  exact neutral_between (by rw [formed.opening]; rfl) (by rw [formed.closing]; rfl) inside

theorem BlockEnd.Formed.neutral {finish : BlockEnd τ} (formed : finish.Formed) :
    Neutral finish.yield := by
  have inside : Neutral ([finish.name] ++ finish.blank.toList) :=
    (neutral_stay formed.name rfl).append (neutral_ifAny formed.blank rfl)
  exact neutral_between (by rw [formed.opening]; rfl) (by rw [formed.closing]; rfl) inside

theorem CloseTag.Formed.neutral {close : CloseTag τ} (formed : close.Formed) :
    Neutral close.yield :=
  neutral_between (by rw [formed.opening]; rfl) (by rw [formed.angle]; rfl)
    (neutral_ifAny formed.blank rfl)

theorem Value.Formed.neutral {extent : Extent τ} {value : Value τ} {after : List τ}
    (formed : value.Formed extent after) : Neutral value.yield := by
  cases value with
  | quoted quote opening parts closing =>
    obtain ⟨opens, inside, closes⟩ := formed
    refine neutral_between (by rw [opens]; rfl) (by rw [closes]; rfl)
      (.flatMap fun part member => ?_)
    have sound := inside part member
    cases part with
    | text token => exact neutral_stay sound rfl
    | braced script => exact Braced.Formed.neutral sound
  | bare parts =>
    refine .flatMap fun part member => ?_
    have sound := formed.1 part member
    cases part with
    | text token => exact sound.elim (neutral_stay · rfl) (neutral_stay · rfl)
    | braced script => exact Braced.Formed.neutral sound

theorem Item.Formed.neutral {extent : Extent τ} {item : Item τ} {after : List τ}
    (formed : item.Formed extent after) : Neutral item.yield := by
  refine (neutral_ifAny formed.blank rfl).append ?_
  have entry := formed.entry
  cases same : item.entry with
  | named name modifiers value =>
    rw [same] at entry
    obtain ⟨first, marks, last⟩ := entry
    refine (neutral_stay first rfl).append (.append (.flatMap fun modifier member => ?_) ?_)
    · exact (neutral_stay (marks modifier member).pipe rfl).append
        (neutral_stay (marks modifier member).name rfl)
    · refine .flatMap fun assigned member => ?_
      have sound := last assigned (Option.mem_toList.mp member)
      exact (neutral_stay sound.equal rfl).append sound.value.neutral
  | braced script =>
    rw [same] at entry
    exact Braced.Formed.neutral entry

theorem Item.AllFormed.neutral {extent : Extent τ} {items : List (Item τ)} {after : List τ}
    (formed : Item.AllFormed extent items after) : Neutral (items.flatMap Item.yield) := by
  induction items with
  | nil => exact neutral_nil
  | cons item rest ih => exact formed.1.neutral.append (ih formed.2)

/-- A head does to the modes what its opening does. -/
theorem Head.Formed.through {extent : Extent τ} {head : Head τ} {opener : Kind} {after : List τ}
    (formed : head.Formed extent opener after) (stack : ModeStack) :
    stack.through (head.yield.map kind) = stack.apply opener.transition := by
  have rest : Neutral (head.items.flatMap Item.yield ++ head.blank.toList) :=
    formed.items.neutral.append (neutral_ifAny formed.blank rfl)
  simp only [Head.yield, List.cons_append, List.map_cons, ModeStack.through_cons, formed.opening]
  exact rest _

/-- A tag leaves the modes as they were. -/
theorem Head.Formed.neutral {extent : Extent τ} {head : Head τ} {after : List τ} {angle : τ}
    (formed : head.Formed extent .openTag after) (closes : kind angle = .angle) :
    Neutral (head.yield ++ [angle]) := by
  intro stack
  rw [List.map_append, ModeStack.through_append, formed.through]
  simp only [List.map_cons, List.map_nil, ModeStack.through_cons, closes, ModeStack.through_nil]
  rfl

mutual

theorem Child.Formed.neutral {extent : Extent τ} {depth : Nat} : ∀ {child : Child τ}
    {after : List τ}, child.Formed extent depth after → Neutral child.yield
  | .text _, _, formed => neutral_stay formed rfl
  | .comment _, _, formed => neutral_stay formed rfl
  | .braced _, _, formed => Braced.Formed.neutral formed
  | .single _, _, formed => Marker.Formed.neutral formed
  | .block _ _ finish, _, ⟨first, others, found, member, last, _⟩ => by
    refine (Neutral.append (Branch.Formed.neutral first) (Branch.AllFormed.neutral others)).append ?_
    cases Option.mem_def.mp member
    rw [Option.toList_some, List.flatMap_singleton]
    exact last.neutral
  | .raw known head body, _, ⟨opened, last⟩ => by
    intro stack
    rw [Child.yield, List.map_append, ModeStack.through_append, opened.through]
    cases body with
    | selfClosed closing =>
      have closes : kind closing = .rawSelfClose := last
      simp only [RawBody.yield, List.map_cons, closes, List.map_nil, ModeStack.through_cons,
        ModeStack.through_nil]
      rfl
    | content angle rest =>
      simp only [RawBody.yield, List.map_cons, last.1, last.2, List.map_nil,
        ModeStack.through_cons, ModeStack.through_nil]
      rfl
  | .selfClosed head slash angle, _, ⟨opened, cuts, closes⟩ => by
    intro stack
    rw [Child.yield, List.map_append, ModeStack.through_append, opened.through]
    simp only [List.map_cons, cuts, closes, List.map_nil, ModeStack.through_cons,
      ModeStack.through_nil]
    rfl
  | .void _ _, _, ⟨opened, closes, _⟩ => opened.neutral closes
  | .element head angle content close, _, ⟨opened, closes, _, _, _, inside, ended⟩ => by
    rw [Child.yield, List.append_cons]
    refine ((opened.neutral closes).append (Child.AllFormed.neutral inside)).append ?_
    cases close with
    | none => exact neutral_nil
    | some close =>
      rw [Option.toList_some, List.flatMap_singleton]
      exact ended.1.neutral

theorem Branch.Formed.neutral {extent : Extent τ} {depth : Nat} {sigil : Sigil} :
    ∀ {branch : Branch τ} {after : List τ}, branch.Formed extent depth sigil after →
      Neutral branch.yield
  | ⟨_, _⟩, _, ⟨marker, _, inside⟩ => marker.neutral.append (Child.AllFormed.neutral inside)

theorem Child.AllFormed.neutral {extent : Extent τ} {depth : Nat} : ∀ {children : List (Child τ)}
    {after : List τ}, Child.AllFormed extent depth children after → Neutral (Child.yields children)
  | [], _, _ => neutral_nil
  | _ :: _, _, ⟨first, rest⟩ =>
    Neutral.append (Child.Formed.neutral first) (Child.AllFormed.neutral rest)

theorem Branch.AllFormed.neutral {extent : Extent τ} {depth : Nat} :
    ∀ {branches : List (Branch τ)} {after : List τ},
      Branch.AllFormed extent depth branches after → Neutral (Branch.yields branches)
  | [], _, _ => neutral_nil
  | _ :: _, _, ⟨first, rest⟩ =>
    Neutral.append (Branch.Formed.neutral first) (Branch.AllFormed.neutral rest)

end

/-- A value without quotes sees no difference between the tokens. -/
structure Alike (left right : List τ) : Prop where
  bare : startsBare left = startsBare right
  first : kind? left = kind? right

theorem alike_cons {token : τ} {left right : List τ}
    (same : kind token = .slash → kind? left = kind? right) :
    Alike (token :: left) (token :: right) := by
  refine ⟨?_, rfl⟩
  simp only [startsBare, kind?_cons, List.tail_cons]
  split
  · rfl
  · rfl
  · next slash =>
    have here := same (Option.some.inj slash)
    exact decide_eq_decide.mpr (by rw [here])
  · rfl

theorem alike_angle {angle : τ} (closes : kind angle = .angle) (left right : List τ) :
    Alike (angle :: left) (angle :: right) :=
  alike_cons fun slash => nomatch closes.symm.trans slash

theorem Alike.append {left right : List τ} (alike : Alike left right) (front : List τ) :
    Alike (front ++ left) (front ++ right) := by
  induction front with
  | nil => exact alike
  | cons token front ih => exact alike_cons fun _ => ih.first

theorem Alike.whole {left right : List τ} (alike : Alike left right) {parts : List (Part τ)}
    (whole : Extent.whole parts left) : Extent.whole parts right := by
  rw [Extent.whole, ← alike.bare, ← alike.first]
  exact whole

theorem Item.Formed.alike {item : Item τ} {left right : List τ}
    (formed : item.Formed .whole left) (alike : Alike left right) : item.Formed .whole right := by
  refine ⟨formed.blank, ?_⟩
  have entry := formed.entry
  cases same : item.entry with
  | braced script =>
    rw [same] at entry
    exact entry
  | named name modifiers value =>
    rw [same] at entry
    refine ⟨entry.1, entry.2.1, fun assigned member => ?_⟩
    have sound := entry.2.2 assigned member
    refine ⟨sound.equal, ?_⟩
    have value := sound.value
    cases shape : assigned.value with
    | quoted quote opening parts closing =>
      rw [shape] at value
      exact value
    | bare parts =>
      rw [shape] at value
      exact ⟨value.1, alike.whole value.2⟩

theorem Item.AllFormed.alike {items : List (Item τ)} {left right : List τ}
    (formed : Item.AllFormed .whole items left) (alike : Alike left right) :
    Item.AllFormed .whole items right := by
  induction items with
  | nil => trivial
  | cons item rest ih => exact ⟨formed.1.alike (alike.append _), ih formed.2⟩

theorem Head.Formed.alike {head : Head τ} {opener : Kind} {left right : List τ}
    (formed : head.Formed .whole opener left) (alike : Alike left right) :
    head.Formed .whole opener right :=
  ⟨formed.opening, formed.items.alike (alike.append _), formed.blank⟩

/-- An element without a closing tag that ends before some tokens also ends before others. -/
def Still (left right : List τ) : Prop :=
  ∀ name stops, EndsBefore name stops left → EndsBefore name stops right

/-- Tokens that tell whether an element ends before them: a brace is not the last of them. -/
def Shut (tokens : List τ) : Prop :=
  ∃ first rest, tokens = first :: rest ∧ (kind first = .braceOpen → rest ≠ [])

theorem Shut.append {tokens : List τ} (shut : Shut tokens) (more : List τ) :
    Shut (tokens ++ more) := by
  obtain ⟨first, rest, rfl, further⟩ := shut
  exact ⟨first, rest ++ more, rfl, fun brace => List.append_ne_nil_of_left_ne_nil (further brace) _⟩

theorem Shut.still {tokens : List τ} (shut : Shut tokens) (left right : List τ) :
    Still (tokens ++ left) (tokens ++ right) := by
  obtain ⟨first, rest, rfl, further⟩ := shut
  intro name stops ends
  refine ends.imp id (.imp id fun ends => ⟨ends.1, ?_⟩)
  obtain ⟨second, rest, rfl⟩ := List.exists_cons_of_ne_nil (further ends.1)
  exact ends.2

theorem Marker.shut (marker : Marker τ) : Shut marker.yield :=
  ⟨marker.opening, _, rfl, fun _ => List.cons_ne_nil _ _⟩

theorem BlockEnd.shut (finish : BlockEnd τ) : Shut finish.yield :=
  ⟨finish.opening, _, rfl, fun _ => List.cons_ne_nil _ _⟩

theorem CloseTag.shut (close : CloseTag τ) : Shut close.yield :=
  ⟨close.opening, _, rfl, fun _ => List.append_ne_nil_of_right_ne_nil _ (List.cons_ne_nil _ _)⟩

theorem Branch.shut (branch : Branch τ) : Shut branch.yield := by
  obtain ⟨marker, content⟩ := branch
  exact marker.shut.append _

theorem Head.Formed.shut {extent : Extent τ} {head : Head τ} {opener : Kind} {after : List τ}
    (formed : head.Formed extent opener after) (tag : opener ≠ .braceOpen) : Shut head.yield :=
  ⟨head.opening, _, rfl, fun brace => absurd (formed.opening.symm.trans brace) tag⟩

theorem Child.Formed.shut {extent : Extent τ} {depth : Nat} {child : Child τ} {after : List τ}
    (formed : child.Formed extent depth after) : Shut child.yield := by
  cases child with
  | text token =>
    exact ⟨token, [], rfl, fun brace => nomatch (formed : kind token = .text).symm.trans brace⟩
  | comment token =>
    exact ⟨token, [], rfl, fun brace => nomatch (formed : kind token = .comment).symm.trans brace⟩
  | braced script =>
    exact ⟨script.opening, _, rfl,
      fun _ => List.append_ne_nil_of_right_ne_nil _ (List.cons_ne_nil _ _)⟩
  | single marker => exact marker.shut
  | block first others finish => exact (first.shut.append _).append _
  | raw known head body => exact (formed.1.shut fun same => nomatch same).append _
  | selfClosed head slash angle => exact (formed.1.shut fun same => nomatch same).append _
  | void head angle => exact (formed.1.shut fun same => nomatch same).append _
  | element head angle content close =>
    exact ((formed.1.shut fun same => nomatch same).append _).append _

theorem Child.AllFormed.still {extent : Extent τ} {depth : Nat} {children : List (Child τ)}
    {left right tokens : List τ} (formed : Child.AllFormed extent depth children tokens)
    (still : Still left right) :
    Still (Child.yields children ++ left) (Child.yields children ++ right) := by
  cases children with
  | nil => exact still
  | cons child rest => exact (formed.1.shut.append _).still left right

theorem Branch.still {branches : List (Branch τ)} {left right : List τ}
    (still : Still left right) :
    Still (Branch.yields branches ++ left) (Branch.yields branches ++ right) := by
  cases branches with
  | nil => exact still
  | cons branch rest => exact (branch.shut.append _).still left right

/-- Whether a child goes on for as long as what comes after it lets it: an element without a closing
tag does. -/
def Child.isOpen : Child τ → Bool
  | .element _ _ _ none => true
  | _ => false

mutual

/-- The names of the elements without a closing tag that end where a child does. -/
def Child.pending : Child τ → List Text
  | .element head _ content none => Builder.nameOf head :: Child.pendings content
  | _ => []

def Child.pendings : List (Child τ) → List Text
  | [] => []
  | [child] => child.pending
  | _ :: next :: rest => Child.pendings (next :: rest)

end

theorem Child.isOpen_of_pending {child : Child τ} {name : Text} (pending : name ∈ child.pending) :
    child.isOpen = true := by
  cases child with
  | element head angle content close =>
    cases close with
    | none => rfl
    | some close => cases pending
  | _ => cases pending

/-- Elements of these names that end before some tokens also end before others. -/
def StillFor (names : List Text) (left right : List τ) : Prop :=
  ∀ name ∈ names, ∀ stops, EndsBefore name stops left → EndsBefore name stops right

theorem Still.stillFor {left right : List τ} (still : Still left right) (names : List Text) :
    StillFor names left right := fun name _ => still name

mutual

/-- What is asked of a child does not change where it stands less deep, and before other tokens
before which what ends with it still ends. -/
theorem Child.Formed.before {depth higher : Nat} (fewer : higher ≤ depth) : ∀ {child : Child τ}
    {left right : List τ}, StillFor child.pending left right →
      child.Formed .whole depth left → child.Formed .whole higher right
  | .text _, _, _, _, formed => formed
  | .comment _, _, _, _, formed => formed
  | .braced _, _, _, _, formed => formed
  | .single _, _, _, _, formed => formed
  | .block first others finish, left, right, _, ⟨opened, further, found, member, last⟩ => by
    cases Option.mem_def.mp member
    have ending : Still ((some found).toList.flatMap BlockEnd.yield ++ left)
        ((some found).toList.flatMap BlockEnd.yield ++ right) := (found.shut.append _).still _ _
    exact ⟨Branch.Formed.before fewer (Branch.still ending) opened,
      Branch.AllFormed.before fewer ending further, found, rfl, last⟩
  | .raw known head body, left, right, _, ⟨opened, last⟩ => by
    refine ⟨opened.alike ?_, last⟩
    cases body with
    | selfClosed closing =>
      have same : kind closing = .rawSelfClose := last
      exact alike_cons fun slash => nomatch same.symm.trans slash
    | content angle rest => exact alike_cons fun slash => nomatch last.1.symm.trans slash
  | .selfClosed head slash angle, _, _, _, ⟨opened, cuts, closes⟩ =>
    ⟨opened.alike (alike_cons fun _ => rfl), cuts, closes⟩
  | .void head angle, _, _, _, ⟨opened, closes, void⟩ =>
    ⟨opened.alike (alike_angle closes _ _), closes, void⟩
  | .element head angle content (some close), left, right, _,
      ⟨opened, closes, holds, roomy, spared, inside, ended⟩ => by
    have still : Still ((some close).toList.flatMap CloseTag.yield ++ left)
        ((some close).toList.flatMap CloseTag.yield ++ right) := (close.shut.append _).still _ _
    exact ⟨opened.alike (alike_angle closes _ _), closes, holds,
      Nat.lt_of_le_of_lt fewer roomy, spared,
      Child.AllFormed.before (Nat.succ_le_succ fewer) (still.stillFor _) inside, ended⟩
  | .element head angle content none, left, right, still,
      ⟨opened, closes, holds, roomy, spared, inside, stops, known, ends⟩ => by
    obtain ⟨own, inner⟩ := List.forall_mem_cons.mp still
    exact ⟨opened.alike (alike_angle closes _ _), closes, holds,
      Nat.lt_of_le_of_lt fewer roomy, spared,
      Child.AllFormed.before (Nat.succ_le_succ fewer) inner inside, stops, known, own stops ends⟩

theorem Branch.Formed.before {depth higher : Nat} (fewer : higher ≤ depth) {sigil : Sigil} :
    ∀ {branch : Branch τ} {left right : List τ}, Still left right →
      branch.Formed .whole depth sigil left → branch.Formed .whole higher sigil right
  | ⟨_, _⟩, _, _, still, ⟨marker, roomy, inside⟩ =>
    ⟨marker, Nat.lt_of_le_of_lt fewer roomy,
      Child.AllFormed.before (Nat.succ_le_succ fewer) (still.stillFor _) inside⟩

theorem Child.AllFormed.before {depth higher : Nat} (fewer : higher ≤ depth) :
    ∀ {children : List (Child τ)} {left right : List τ},
      StillFor (Child.pendings children) left right →
        Child.AllFormed .whole depth children left → Child.AllFormed .whole higher children right
  | [], _, _, _, _ => trivial
  | [_], _, _, still, ⟨only, _⟩ => ⟨Child.Formed.before fewer still only, trivial⟩
  | _ :: next :: rest, left, right, still, ⟨first, others⟩ => by
    have shut : Shut (Child.yields (next :: rest)) := others.1.shut.append _
    exact ⟨Child.Formed.before fewer ((shut.still left right).stillFor _) first,
      Child.AllFormed.before fewer still others⟩

theorem Branch.AllFormed.before {depth higher : Nat} (fewer : higher ≤ depth) :
    ∀ {branches : List (Branch τ)} {left right : List τ}, Still left right →
      Branch.AllFormed .whole depth branches left → Branch.AllFormed .whole higher branches right
  | [], _, _, _, _ => trivial
  | _ :: _, _, _, still, ⟨first, rest⟩ =>
    ⟨Branch.Formed.before fewer (Branch.still still) first,
      Branch.AllFormed.before fewer still rest⟩

end

/-- What is asked of a child does not change where it stands less deep, and before other tokens
before which it still ends. -/
theorem Child.Formed.elsewhere {depth higher : Nat} (fewer : higher ≤ depth) {child : Child τ}
    {left right : List τ} (still : child.isOpen = true → Still left right)
    (formed : child.Formed .whole depth left) : child.Formed .whole higher right :=
  formed.before fewer fun _ among => still (Child.isOpen_of_pending among) _

/-- A well-formed child is a well-formed tree of its own. -/
theorem Child.Formed.alone {depth : Nat} {child : Child τ} {after : List τ}
    (formed : child.Formed .whole depth after) : WellFormed .whole [child] :=
  ⟨Child.Formed.elsewhere (Nat.zero_le depth) (fun _ _ _ _ => trivial) formed, trivial⟩

/-- The tokens of a well-formed child among others, with tokens before them that leave the modes as
they were. -/
def Child.Sits (child : Child τ) (tokens : List τ) : Prop :=
  ∃ front back, tokens = front ++ (child.yield ++ back) ∧ Neutral front ∧
    ∃ depth after, child.Formed .whole depth after

theorem Child.Sits.behind {child : Child τ} {tokens front : List τ} (sits : child.Sits tokens)
    (neutral : Neutral front) : child.Sits (front ++ tokens) := by
  obtain ⟨before, back, rfl, earlier, formed⟩ := sits
  exact ⟨front ++ before, back, (List.append_assoc ..).symm, neutral.append earlier, formed⟩

theorem Child.Sits.ahead {child : Child τ} {tokens : List τ} (sits : child.Sits tokens)
    (more : List τ) : child.Sits (tokens ++ more) := by
  obtain ⟨front, back, rfl, neutral, formed⟩ := sits
  exact ⟨front, back ++ more, by simp only [List.append_assoc], neutral, formed⟩

theorem Child.Sits.trans {inner child : Child τ} {tokens : List τ} (sits : inner.Sits child.yield)
    (around : child.Sits tokens) : inner.Sits tokens := by
  obtain ⟨front, back, rfl, neutral, -⟩ := around
  exact (sits.ahead back).behind neutral

theorem Child.Sits.formed {child : Child τ} {tokens : List τ} (sits : child.Sits tokens) :
    ∃ depth after, child.Formed .whole depth after := by
  obtain ⟨_, _, _, _, formed⟩ := sits
  exact formed

theorem Child.Sits.subset {child : Child τ} {tokens : List τ} (sits : child.Sits tokens) :
    child.yield ⊆ tokens := by
  obtain ⟨front, back, rfl, -⟩ := sits
  exact fun token member => List.mem_append_right _ (List.mem_append_left _ member)

variable {depth : Nat} {after : List τ}

theorem Child.Formed.sits {child : Child τ} (formed : child.Formed .whole depth after) :
    child.Sits child.yield :=
  ⟨[], [], (List.append_nil _).symm, neutral_nil, depth, after, formed⟩

theorem Child.AllFormed.sits {children : List (Child τ)}
    (formed : Child.AllFormed .whole depth children after) :
    ∀ child ∈ children, child.Sits (Child.yields children) := by
  induction children with
  | nil => exact List.forall_mem_nil _
  | cons first rest ih =>
    refine List.forall_mem_cons.mpr ⟨formed.1.sits.ahead _, fun child member => ?_⟩
    exact (ih formed.2 child member).behind formed.1.neutral

theorem Branch.Formed.sits {sigil : Sigil} : ∀ {branch : Branch τ},
    branch.Formed .whole depth sigil after → ∀ child ∈ branch.content, child.Sits branch.yield
  | ⟨_, _⟩, formed, child, member => (formed.2.2.sits child member).behind formed.1.neutral

theorem Branch.AllFormed.sits {branches : List (Branch τ)}
    (formed : Branch.AllFormed .whole depth branches after) :
    ∀ branch ∈ branches, ∀ child ∈ branch.content, child.Sits (Branch.yields branches) := by
  induction branches with
  | nil => exact List.forall_mem_nil _
  | cons first rest ih =>
    refine List.forall_mem_cons.mpr ⟨fun child member => ?_, fun branch member child inside => ?_⟩
    · exact (formed.1.sits child member).ahead _
    · exact (ih formed.2 branch member child inside).behind formed.1.neutral

def Child.contents : Child τ → List (Child τ)
  | .block first others _ => (first :: others).flatMap Branch.content
  | .element _ _ content _ => content
  | _ => []

/-- What a well-formed child holds sits among its tokens. -/
theorem Child.Formed.sits_contents {child : Child τ} (formed : child.Formed .whole depth after) :
    ∀ inner ∈ child.contents, inner.Sits child.yield := by
  intro inner member
  cases child with
  | block first others finish =>
    obtain ⟨opened, further, -⟩ := formed
    obtain ⟨branch, among, inside⟩ := List.mem_flatMap.mp member
    refine Child.Sits.ahead ?_ _
    rcases List.mem_cons.mp among with rfl | among
    · exact (opened.sits inner inside).ahead _
    · exact (further.sits branch among inner inside).behind opened.neutral
  | element head angle content close =>
    obtain ⟨opened, closes, -, -, -, inside, -⟩ := formed
    rw [Child.yield, List.append_cons]
    exact ((inside.sits inner member).behind (opened.neutral closes)).ahead _
  | _ => cases member

end Template.Concrete
