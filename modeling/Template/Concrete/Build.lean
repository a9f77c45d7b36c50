import Template.Concrete.Builder
import Template.Machine

set_option autoImplicit false

namespace Template.Concrete

open Terminal (kind)
open Rule

variable {τ : Type}

namespace Builder

/-- The number of tokens left, counted twice, and the number of open frames. -/
def weight (builder : Builder τ) : Nat := 2 * builder.rest.length + builder.frames.length

@[simp] theorem weight_add (builder : Builder τ) (child : Child τ) :
    (builder.add child).weight = builder.weight := by
  unfold add weight
  split
  · next none => simp only [none]
  · next some => simp only [some, List.length_cons]

@[simp] theorem weight_note (builder : Builder τ) (cause : Cause τ) (site : Site τ) :
    (builder.note cause site).weight = builder.weight := rfl

@[simp] theorem weight_noteDepth (builder : Builder τ) (depth : Nat) (first last : τ) :
    (builder.noteDepth depth first last).weight = builder.weight := by
  unfold noteDepth
  split <;> rfl

@[simp] theorem weight_endElement (builder : Builder τ) (below : List (Frame τ)) (head : Head τ)
    (angle : τ) (children : List (Child τ)) (close : Option (CloseTag τ)) :
    (builder.endElement below head angle children close).weight =
      2 * builder.rest.length + below.length := by
  rw [endElement, weight_add, weight]

@[simp] theorem weight_endBlock (builder : Builder τ) (below : List (Frame τ))
    (earlier : List (Branch τ)) (marker : Marker τ) (children : List (Child τ))
    (finish : Option (BlockEnd τ)) :
    (builder.endBlock below earlier marker children finish).weight =
      2 * builder.rest.length + below.length := by
  rw [endBlock, weight_add, weight]

theorem weight_openBlock (builder : Builder τ) (marker : Marker τ) :
    (builder.openBlock marker).weight = builder.weight + 1 := by
  unfold openBlock
  rw [weight_noteDepth]
  rfl

variable [Terminal τ]

@[simp] theorem rest_noteWrongEnd (builder : Builder τ) (opened : Text) (name : τ) :
    (builder.noteWrongEnd opened name).rest = builder.rest := by
  unfold noteWrongEnd
  split <;> rfl

theorem length_resumed_le (tokens : List τ) : (resumed tokens).length ≤ tokens.length :=
  (List.dropWhile_sublist _).length_le

theorem rest_recover (builder : Builder τ) (mismatch : Mismatch τ) :
    (builder.recover mismatch).rest = resumed mismatch.rest := rfl

theorem weight_recover_le (builder : Builder τ) (mismatch : Mismatch τ) :
    (builder.recover mismatch).weight ≤ 2 * mismatch.rest.length + builder.frames.length := by
  have shorter := length_resumed_le mismatch.rest
  simp only [weight, rest_recover]
  change 2 * _ + builder.frames.length ≤ _
  omega

theorem weight_openElement_le (builder : Builder τ) (head : Head τ) (angle : τ) :
    (builder.openElement head angle).weight ≤ builder.weight + 1 := by
  unfold openElement
  split
  · rw [weight_add]
    exact Nat.le_succ _
  · split
    · rw [weight_add, weight_note]
      exact Nat.le_succ _
    · exact Nat.le_refl _

/-- A child is wanted only where a token can begin one. -/
theorem begins_of_startsChild (stops : Option (List Text)) (tokens : List τ)
    (starts : startsChild stops tokens = true) :
    ∃ token rest, tokens = token :: rest ∧ beginsChild (kind token) = true := by
  unfold startsChild at starts
  split at starts
  · cases starts
  · next token rest =>
    refine ⟨token, rest, rfl, ?_⟩
    split at starts <;> simp_all [beginsChild]

theorem begins_of_wantsChild (builder : Builder τ) (wants : builder.wantsChild = true) :
    ∃ token rest, builder.rest = token :: rest ∧ beginsChild (kind token) = true := by
  unfold wantsChild at wants
  split at wants
  · exact begins_of_startsChild _ _ wants
  · exact begins_of_startsChild _ _ wants
  · exact begins_of_startsChild _ _ (Bool.and_eq_true_iff.mp wants).2

theorem weight_readChild_lt (builder : Builder τ) (wants : builder.wantsChild = true) :
    builder.readChild.weight < builder.weight := by
  obtain ⟨token, rest, here, begins⟩ := begins_of_wantsChild builder wants
  have taken := piece_commits begins rest
  rw [← here] at taken
  unfold readChild
  split
  · next mismatch failed =>
    rw [failed] at taken
    have bounded := weight_recover_le builder mismatch
    simp only [left] at taken
    simp only [weight] at bounded ⊢
    omega
  · next child left read =>
    rw [read] at taken
    rw [weight_add]
    change left.length < _ at taken
    simp only [weight]
    omega
  · next head angle left read =>
    rw [read] at taken
    change left.length < _ at taken
    have bounded := weight_openElement_le { builder with rest := left } head angle
    simp only [weight] at bounded ⊢
    omega
  · next marker left read =>
    rw [read] at taken
    change left.length < _ at taken
    rw [weight_openBlock]
    simp only [weight]
    omega

/-- A stray closing tag is where the tokens left begin. -/
theorem closeTag_of_stray (name : Text) (outer : List Text) (tokens : List τ) (token : τ)
    (ending : endingOf name outer tokens = .stray token) :
    ∃ rest, tokens = token :: rest ∧ kind token = .closeTag := by
  unfold endingOf at ending
  split at ending
  · split at ending <;> cases ending
  · next first rest =>
    split at ending
    · cases ending
    · split at ending
      · cases ending
      · split at ending
        · cases ending
        · next answers =>
          cases ending
          exact ⟨rest, rfl, Decidable.byContradiction fun other => answers (.inl other)⟩

theorem weight_dropClose_lt (builder : Builder τ) (name : Text) (token : τ) (rest : List τ)
    (here : builder.rest = token :: rest) (same : kind token = .closeTag) :
    (builder.dropClose name token).weight < builder.weight := by
  have taken := closeTag_commits same rest
  rw [← here] at taken
  unfold dropClose
  split
  · next mismatch failed =>
    rw [failed] at taken
    have bounded := weight_recover_le builder mismatch
    simp only [left] at taken
    simp only [weight] at bounded ⊢
    omega
  · next close left read =>
    rw [read] at taken
    change left.length < _ at taken
    rw [weight_note]
    simp only [weight]
    omega

theorem weight_finishContent_lt (builder : Builder τ) (below : List (Frame τ)) (head : Head τ)
    (angle : τ) (children : List (Child τ))
    (here : builder.frames = .element head angle children :: below) :
    (builder.finishContent below head angle children).weight < builder.weight := by
  have frames : builder.weight = 2 * builder.rest.length + (below.length + 1) := by
    simp only [weight, here, List.length_cons]
  unfold finishContent
  split
  · have shorter := closeTag_shrinks.length_le builder.rest
    split
    · next mismatch failed =>
      rw [failed] at shorter
      have dropped := length_resumed_le mismatch.rest
      change mismatch.rest.length ≤ _ at shorter
      rw [weight_endElement, rest_recover]
      omega
    · next close left read =>
      rw [read] at shorter
      change left.length ≤ _ at shorter
      rw [weight_endElement]
      simp only
      omega
  · rw [weight_endElement]
    omega
  · rw [weight_endElement]
    change 2 * builder.rest.length + _ < _
    omega
  · next token ending =>
    obtain ⟨rest, first, same⟩ := closeTag_of_stray _ _ _ _ ending
    exact weight_dropClose_lt builder _ token rest first same

theorem weight_finishBranch_lt (builder : Builder τ) (below : List (Frame τ))
    (earlier : List (Branch τ)) (marker : Marker τ) (children : List (Child τ))
    (here : builder.frames = .block earlier marker children :: below) :
    (builder.finishBranch below earlier marker children).weight < builder.weight := by
  have frames : builder.weight = 2 * builder.rest.length + (below.length + 1) := by
    simp only [weight, here, List.length_cons]
  unfold finishBranch
  split
  · have shorter := (marker_shrinks .continuing).length_le builder.rest
    split
    · next mismatch failed =>
      rw [failed] at shorter
      have dropped := length_resumed_le mismatch.rest
      change mismatch.rest.length ≤ _ at shorter
      rw [weight_endBlock, rest_recover]
      omega
    · next next left read =>
      have taken := marker_takes .continuing _ _ _ read
      rw [weight_noteDepth]
      simp only [weight, List.length_cons] at frames ⊢
      omega
  · have shorter := blockEnd_shrinks.length_le builder.rest
    split
    · next mismatch failed =>
      rw [failed] at shorter
      have dropped := length_resumed_le mismatch.rest
      change mismatch.rest.length ≤ _ at shorter
      rw [weight_endBlock, rest_recover]
      omega
    · next finish left read =>
      rw [read] at shorter
      change left.length ≤ _ at shorter
      rw [weight_endBlock, rest_noteWrongEnd]
      simp only
      omega
  · rw [weight_endBlock]
    change 2 * builder.rest.length + _ < _
    omega

theorem weight_step_lt (before after : Builder τ) (taken : before.step = some after) :
    after.weight < before.weight := by
  unfold step at taken
  split at taken
  · next wants =>
    cases taken
    exact weight_readChild_lt before wants
  · split at taken
    · next here =>
      cases taken
      exact weight_finishContent_lt before _ _ _ _ here
    · next here =>
      cases taken
      exact weight_finishBranch_lt before _ _ _ _ here
    · split at taken
      · cases taken
      · next token rest here =>
        cases taken
        have shorter := length_resumed_le rest
        unfold dropUnexpected
        rw [weight_note]
        simp only [weight, here, List.length_cons]
        omega

def machine : Machine (Builder τ) := ⟨step, weight, weight_step_lt⟩

def start (tokens : List τ) : Builder τ := ⟨tokens, [], [], []⟩

def result (builder : Builder τ) : Built τ := ⟨builder.children.reverse, builder.faults.reverse⟩

end Builder

/-- The tree of a sequence of tokens and what is wrong with it. -/
def build [Terminal τ] (tokens : List τ) : Built τ :=
  (Builder.machine.exhaust (.start tokens)).result

end Template.Concrete
