import Template.Proofs.Concrete.Acceptance
import Template.Proofs.Concrete.Locality

set_option autoImplicit false

namespace Template.Concrete

open Terminal (kind tagName blockName)
open Rule

variable {τ : Type}

/-- Some children, and the same with a text at the end. An element without a closing tag that comes
last takes the text in. -/
inductive Child.Trails (token : τ) : List (Child τ) → List (Child τ) → Prop where
  | nil : Trails token [] [.text token]
  | inside {head : Head τ} {angle : τ} {less more : List (Child τ)}
      (further : Trails token less more) :
      Trails token [.element head angle less none] [.element head angle more none]
  | cons {child : Child τ} {less more : List (Child τ)} (ends : less = [] → child.isOpen = false)
      (further : Trails token less more) : Trails token (child :: less) (child :: more)

namespace Child.Trails

theorem yields_eq {token : τ} {less more : List (Child τ)} (trails : Child.Trails token less more) :
    Child.yields more = Child.yields less ++ [token] := by
  induction trails with
  | nil => rfl
  | inside _ ih =>
    simp only [Child.yields, Child.yield, ih, Option.toList_none, List.flatMap_nil, List.append_nil,
      List.append_assoc, List.cons_append]
  | cons _ _ ih => simp only [Child.yields, ih, List.append_assoc]

/-- A text can be put after any children. -/
theorem exists_more (token : τ) (less : List (Child τ)) : ∃ more, Child.Trails token less more := by
  match less with
  | [] => exact ⟨_, .nil⟩
  | child :: next :: rest =>
    obtain ⟨more, trails⟩ := exists_more token (next :: rest)
    exact ⟨_, .cons (fun none => nomatch none) trails⟩
  | [.element head angle content none] =>
    obtain ⟨more, trails⟩ := exists_more token content
    exact ⟨_, .inside trails⟩
  | [.element _ _ _ (some _)] | [.text _] | [.comment _] | [.braced _] | [.single _] | [.block ..]
  | [.raw ..] | [.selfClosed ..] | [.void ..] => exact ⟨_, .cons (fun _ => rfl) .nil⟩
termination_by sizeOf less

variable [Terminal τ] {token : τ} {less more : List (Child τ)} {depth : Nat}

theorem tags_eq (trails : Child.Trails token less more) :
    more.filterMap Child.tag? = less.filterMap Child.tag? := by
  induction trails with
  | nil => rfl
  | inside => rfl
  | @cons child less more _ _ ih => rw [List.filterMap_cons, List.filterMap_cons, ih]

/-- The names of some children are spared where those of others with the same names are. -/
theorem spared {children others : List (Child τ)} {stops : Option (List Text)}
    (same : others.filterMap Child.tag? = children.filterMap Child.tag?)
    (spared : ∀ child ∈ children, ∀ name ∈ child.tag?, ∀ found ∈ stops, name ∉ found) :
    ∀ child ∈ others, ∀ name ∈ child.tag?, ∀ found ∈ stops, name ∉ found := by
  intro child member name named
  have among : name ∈ others.filterMap Child.tag? := List.mem_filterMap.mpr ⟨child, member, named⟩
  rw [same] at among
  obtain ⟨first, here, there⟩ := List.mem_filterMap.mp among
  exact spared first here name there

/-- Nothing ends before a text. -/
theorem not_endsBefore (text : kind token = .text) (name : Text) (stops : List Text)
    (rest : List τ) : ¬EndsBefore name stops (token :: rest) := by
  rintro (⟨same, -⟩ | ⟨same, -⟩ | ⟨same, -⟩) <;> exact nomatch text.symm.trans same

/-- Well-formed children stay so with a text after them. -/
theorem formed_more (text : kind token = .text) (trails : Child.Trails token less more)
    (formed : Child.AllFormed .whole depth less []) : Child.AllFormed .whole depth more [] := by
  induction trails generalizing depth with
  | nil => exact ⟨text, trivial⟩
  | inside further ih =>
    obtain ⟨⟨opened, closes, holds, roomy, spares, inside, ended⟩, -⟩ := formed
    exact ⟨⟨opened.alike (alike_angle closes _ _), closes, holds, roomy,
      spared further.tags_eq spares, ih inside, ended⟩, trivial⟩
  | @cons child less more ends further ih =>
    refine ⟨Child.Formed.elsewhere (Nat.le_refl depth) ?_ formed.1, ih formed.2⟩
    intro open_
    cases less with
    | nil =>
      rw [ends rfl] at open_
      cases open_
    | cons next rest =>
      rw [further.yields_eq, List.append_nil, List.append_nil]
      have still := (formed.2.1.shut.append (Child.yields rest)).still [] [token]
      rwa [List.append_nil] at still

/-- Well-formed children stay so without a text after them. -/
theorem formed_less (trails : Child.Trails token less more)
    (formed : Child.AllFormed .whole depth more []) : Child.AllFormed .whole depth less [] := by
  induction trails generalizing depth with
  | nil => trivial
  | inside further ih =>
    obtain ⟨⟨opened, closes, holds, roomy, spares, inside, ended⟩, -⟩ := formed
    exact ⟨⟨opened.alike (alike_angle closes _ _), closes, holds, roomy,
      spared further.tags_eq.symm spares, ih inside, ended⟩, trivial⟩
  | @cons child less more _ further ih =>
    have others := ih formed.2
    refine ⟨Child.Formed.elsewhere (Nat.le_refl depth) ?_ formed.1, others⟩
    intro _
    rw [further.yields_eq, List.append_nil, List.append_nil]
    have ended : Still [token] [] := fun _ _ _ => trivial
    have still := others.still ended
    rwa [List.append_nil] at still

end Child.Trails

variable [Terminal τ]

omit [Terminal τ] in
theorem Child.eq_of_isOpen {child : Child τ} (open_ : child.isOpen = true) :
    ∃ head angle content, child = .element head angle content none := by
  cases child with
  | element head angle content close =>
    cases close with
    | none => exact ⟨head, angle, content, rfl⟩
    | some close => cases open_
  | _ => cases open_

/-- A child that is not a text and does not end with what it holds has a last token of its own. -/
theorem Child.Formed.exists_last {child : Child τ} {depth : Nat} {after : List τ}
    (formed : child.Formed .whole depth after) (closed : child.isOpen = false) :
    ∃ last, child.yield.getLast? = some last ∧ (kind last = .text → child = .text last) := by
  cases child with
  | text token => exact ⟨token, rfl, fun _ => rfl⟩
  | comment token => exact ⟨token, rfl, fun text => nomatch text.symm.trans formed⟩
  | braced script =>
    have sound : script.Formed := formed
    refine ⟨script.closing, List.getLast?_eq_some_iff.mpr ⟨_, List.append_cons ..⟩, ?_⟩
    exact fun text => nomatch text.symm.trans sound.closing
  | single marker =>
    have sound : marker.Formed .single := formed
    exact ⟨marker.closing, List.getLast?_concat, fun text => nomatch text.symm.trans sound.closing⟩
  | block first others finish =>
    obtain ⟨-, -, found, same, sound, -⟩ := formed
    cases Option.mem_def.mp same
    refine ⟨found.closing, ?_, fun text => nomatch text.symm.trans sound.closing⟩
    rw [Child.yield, Option.toList_some, List.flatMap_singleton, BlockEnd.yield, ← List.append_assoc]
    exact List.getLast?_concat
  | raw known head body =>
    have last := formed.2
    cases body with
    | selfClosed closing =>
      have same : kind closing = .rawSelfClose := last
      exact ⟨closing, List.getLast?_concat, fun text => nomatch text.symm.trans same⟩
    | content angle rest =>
      exact ⟨rest, by simp [Child.yield, RawBody.yield],
        fun text => nomatch text.symm.trans last.2⟩
  | selfClosed head slash angle =>
    exact ⟨angle, by simp [Child.yield], fun text => nomatch text.symm.trans formed.2.2⟩
  | void head angle =>
    exact ⟨angle, List.getLast?_concat, fun text => nomatch text.symm.trans formed.2.1⟩
  | element head angle content close =>
    cases close with
    | none => cases closed
    | some close =>
      obtain ⟨-, -, -, -, -, -, sound, -⟩ := formed
      refine ⟨close.angle, ?_, fun text => nomatch text.symm.trans sound.angle⟩
      rw [Child.yield, Option.toList_some, List.flatMap_singleton, CloseTag.yield,
        ← List.append_assoc]
      exact List.getLast?_concat

/-- Well-formed children that end with a text are some with a text after them. -/
theorem Child.AllFormed.exists_less {token : τ} (text : kind token = .text)
    {children : List (Child τ)} {depth : Nat}
    (formed : Child.AllFormed .whole depth children [])
    (last : (Child.yields children).getLast? = some token) :
    ∃ less, Child.Trails token less children := by
  match children with
  | [] => cases last
  | child :: next :: rest =>
    obtain ⟨first, more, spelled, -⟩ := formed.2.1.shut.append (Child.yields rest)
    have filled : Child.yields (next :: rest) ≠ [] := by
      rw [Child.yields, spelled]
      exact List.cons_ne_nil _ _
    rw [Child.yields, List.getLast?_append_of_ne_nil _ filled] at last
    obtain ⟨less, trails⟩ := Child.AllFormed.exists_less text formed.2 last
    refine ⟨child :: less, .cons ?_ trails⟩
    -- A text that comes after an element without a closing tag would not end it.
    rintro rfl
    have only : Child.yields (next :: rest) = [token] := trails.yields_eq
    have sound := formed.1
    rw [only] at sound
    cases child with
    | element head angle content close =>
      cases close with
      | none =>
        obtain ⟨stops, -, ends⟩ := sound.2.2.2.2.2.2
        exact absurd ends (Child.Trails.not_endsBefore text _ stops [])
      | some close => rfl
    | _ => rfl
  | [child] =>
    rw [Child.yields, Child.yields, List.append_nil] at last
    cases closed : child.isOpen with
    | false =>
      obtain ⟨final, same, only⟩ := formed.1.exists_last closed
      cases same.symm.trans last
      rw [only text]
      exact ⟨[], .nil⟩
    | true =>
      obtain ⟨head, angle, content, rfl⟩ := Child.eq_of_isOpen closed
      obtain ⟨-, closes, -, -, -, inside, -⟩ := formed.1
      simp only [Child.yield, Option.toList_none, List.flatMap_nil, List.append_nil] at last
      rw [List.getLast?_append_of_ne_nil _ (List.cons_ne_nil _ _)] at last
      cases held : Child.yields content with
      | nil =>
        rw [held] at last
        cases last
        exact nomatch text.symm.trans closes
      | cons first more =>
        rw [held, List.getLast?_cons_cons, ← held] at last
        obtain ⟨less, trails⟩ := Child.AllFormed.exists_less text inside last
        exact ⟨_, .inside trails⟩
termination_by sizeOf children

/-- A text at the end of the tokens makes no difference to whether a tree is built without faults. -/
theorem clean_concat_text {front : List τ} {token : τ} (text : kind token = .text) :
    (build (front ++ [token])).faults = [] ↔ (build front).faults = [] := by
  constructor
  · intro clean
    have formed := wellFormed_of_clean clean
    have yields := yields_of_clean clean
    have last : (Child.yields (build (front ++ [token])).children).getLast? = some token := by
      rw [yields]
      exact List.getLast?_concat
    obtain ⟨less, trails⟩ := Child.AllFormed.exists_less text formed last
    have again := build_of_wellFormed (trails.formed_less formed)
    rw [trails.yields_eq] at yields
    rw [List.append_cancel_right yields] at again
    rw [again]
  · intro clean
    have formed := wellFormed_of_clean clean
    obtain ⟨more, trails⟩ := Child.Trails.exists_more token (build front).children
    have again := build_of_wellFormed (trails.formed_more text formed)
    rw [trails.yields_eq, yields_of_clean clean] at again
    rw [again]

end Template.Concrete
