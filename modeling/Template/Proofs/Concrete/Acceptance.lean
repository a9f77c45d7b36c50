import Template.Proofs.Concrete.Completeness

set_option autoImplicit false

namespace Template.Concrete

open Terminal (kind tagName blockName)

/-- A sequence of tokens has a certain tree and no fault exactly if the tree is well-formed and the
tokens are its yield. -/
theorem build_eq_iff {τ : Type} [Terminal τ] {tokens : List τ} {children : List (Child τ)} :
    build tokens = ⟨children, []⟩ ↔
      Child.yields children = tokens ∧ WellFormed .whole children := by
  constructor
  · intro built
    have clean : (build tokens).faults = [] := by rw [built]
    have yields := yields_of_clean clean
    have formed := wellFormed_of_clean clean
    rw [built] at yields formed
    exact ⟨yields, formed⟩
  · rintro ⟨rfl, formed⟩
    exact build_of_wellFormed formed

section Early

/-- The head of a tag `<a ...>`. -/
def loneHead (items : List (Item Token)) : Head Token :=
  ⟨.place .openTag ['<', 'a'] ⟨1, 1, 0⟩, items, none⟩

/-- The element `<a ...></a>` without content. -/
def lone (items : List (Item Token)) : Child Token :=
  .element (loneHead items) (.place .angle ['>'] ⟨1, 7, 6⟩) []
    (some ⟨.place .closeTag ['<', '/', 'a'] ⟨1, 8, 7⟩, none, .place .angle ['>'] ⟨1, 11, 10⟩⟩)

/-- The attribute `x=` with a value of these pieces. -/
def assigning (parts : List (Part Token)) : Item Token :=
  ⟨some (.place .blank [' '] ⟨1, 3, 2⟩), .named (.place .attributeText ['x'] ⟨1, 4, 3⟩) []
    (some ⟨.place .equal ['='] ⟨1, 5, 4⟩, .bare parts⟩)⟩

/-- `<a x=y></a>` with `y` as an attribute of its own. -/
def emptyValue : Child Token :=
  lone [assigning [], ⟨none, .named (.place .attributeText ['y'] ⟨1, 6, 5⟩) [] none⟩]

/-- `<a x=/></a>` with the slash as the value of `x`. -/
def slashValue : Child Token := lone [assigning [.text (.place .slash ['/'] ⟨1, 6, 5⟩)]]

theorem lone_formed {items : List (Item Token)}
    (formed : ∀ after, Item.AllFormed .any items after) : WellFormed .any [lone items] := by
  have name : Builder.nameOf (loneHead items) = ['a'] := rfl
  have other : Element.isVoid (Builder.nameOf (loneHead items)) = false := by
    rw [name]
    decide
  have named : tagName (Token.place .closeTag ['<', '/', 'a'] ⟨1, 8, 7⟩) =
      Builder.nameOf (loneHead items) := rfl
  have shallow : 0 < maxNesting := by decide
  change Child.Formed .any 0 (lone items) [] ∧ True
  refine ⟨⟨⟨rfl, formed _, ifAny_none _⟩, rfl, other, shallow, ?_, trivial, ?_⟩, trivial⟩
  · intro child present
    cases present
  · exact ⟨⟨rfl, ifAny_none _, rfl⟩, named⟩

theorem assigning_formed (parts : List (Part Token)) (bare : ∀ part ∈ parts, part.Bare)
    (after : List Token) : (assigning parts).Formed .any after := by
  refine ⟨(ifAny_some _ _).mpr rfl, rfl, ?_, ?_⟩
  · intro modifier present
    cases present
  · intro assigned found
    cases found
    exact ⟨rfl, bare, trivial⟩

/-- If nothing but the kinds is asked of values without quotes, a value may be read as ending before
its text or as taking the slash that closes the tag. Neither is what is built. -/
theorem any_value_ambiguous :
    (WellFormed .any [emptyValue] ∧ build (Child.yields [emptyValue]) ≠ ⟨[emptyValue], []⟩) ∧
      (WellFormed .any [slashValue] ∧ build (Child.yields [slashValue]) ≠ ⟨[slashValue], []⟩) := by
  have word : ∀ after, Item.Formed .any
      ⟨none, .named (Token.place .attributeText ['y'] ⟨1, 6, 5⟩) [] none⟩ after := by
    intro after
    refine ⟨ifAny_none _, rfl, ?_, ?_⟩
    · intro modifier present
      cases present
    · intro assigned present
      cases present
  have slash : ∀ part ∈ [Part.text (Token.place .slash ['/'] ⟨1, 6, 5⟩)], part.Bare := by
    intro part present
    cases List.mem_singleton.mp present
    exact .inr rfl
  refine ⟨⟨?_, ?_⟩, ?_, ?_⟩
  · have empty := assigning_formed [] (List.forall_mem_nil _)
    exact lone_formed fun after => ⟨empty _, word _, trivial⟩
  · intro built
    have clean : (build (Child.yields [emptyValue])).faults = [] := by rw [built]
    have formed := wellFormed_of_clean clean
    rw [built] at formed
    obtain ⟨⟨sound, -⟩, -⟩ := formed
    have stop := (sound.items.1.entry.2.2 _ rfl).value.2.1
    cases stop
  · have taken := assigning_formed _ slash
    exact lone_formed fun after => ⟨taken _, trivial⟩
  · intro built
    have clean : (build (Child.yields [slashValue])).faults = [] := by rw [built]
    have formed := wellFormed_of_clean clean
    rw [built] at formed
    obtain ⟨⟨sound, -⟩, -⟩ := formed
    exact (sound.items.1.entry.2.2 _ rfl).value.2.2 _ rfl rfl rfl

end Early

end Template.Concrete
