import Template.Proofs.Concrete.Locality
import Template.Proofs.Scan.Arrangement

set_option autoImplicit false

namespace Template

/-- The number of modes to return to after a token with this effect, given how many there were. -/
def Transition.height : Transition → Nat → Nat
  | .stay, count => count
  | .push _, count => count + 1
  | .pop, count => count - 1
  | .replace _, count => count - 1 + 1

namespace ModeStack

theorem length_pop (stack : ModeStack) : stack.pop.below.length = stack.below.length - 1 := by
  obtain ⟨top, below⟩ := stack
  cases below with
  | nil => rfl
  | cons mode below => rfl

theorem length_apply (stack : ModeStack) (transition : Transition) :
    (stack.apply transition).below.length = transition.height stack.below.length := by
  cases transition with
  | stay => rfl
  | push mode => rfl
  | pop => exact stack.length_pop
  | replace mode =>
    show stack.pop.below.length + 1 = _
    rw [length_pop]
    rfl

/-- A stack that is not higher than another by more than some modes stays so under the same
tokens. -/
theorem length_through_le {higher stack : ModeStack} {excess : Nat} (kinds : List Kind)
    (bounded : higher.below.length ≤ stack.below.length + excess) :
    (higher.through kinds).below.length ≤ (stack.through kinds).below.length + excess := by
  induction kinds generalizing higher stack with
  | nil => exact bounded
  | cons kind rest ih =>
    rw [through_cons, through_cons]
    apply ih
    rw [length_apply, length_apply]
    cases kind.transition with
    | stay => exact bounded
    | push mode =>
      show _ + 1 ≤ _ + 1 + excess
      omega
    | pop =>
      show _ - 1 ≤ _ - 1 + excess
      omega
    | replace mode =>
      show _ - 1 + 1 ≤ _ - 1 + 1 + excess
      omega

end ModeStack

namespace Concrete

/-- Tokens that leave every stack of modes as it was never leave the last mode of one. -/
theorem Neutral.below_ne_nil {front back : List Token} {token : Token} (mode : Mode)
    (neutral : Neutral (front ++ token :: back)) (leaves : token.kind.transition.leaves = true) :
    (ModeStack.through ⟨mode, []⟩ (front.map Token.kind)).below ≠ [] := by
  intro last
  -- With one more mode below, the same tokens would lose that mode and never get it back.
  set lone : ModeStack := ⟨mode, []⟩
  set pair : ModeStack := ⟨mode, [mode]⟩
  have before : (pair.through (front.map Token.kind)).below.length ≤
      (lone.through (front.map Token.kind)).below.length + 1 :=
    ModeStack.length_through_le _ (Nat.le_refl 1)
  rw [last, List.length_nil, Nat.zero_add] at before
  have spent : (pair.through ((front ++ [token]).map Token.kind)).below.length ≤
      (lone.through ((front ++ [token]).map Token.kind)).below.length + 0 := by
    rw [List.map_append, ModeStack.through_append, ModeStack.through_append]
    show ((pair.through _).apply token.kind.transition).below.length ≤
      ((lone.through _).apply token.kind.transition).below.length + 0
    rw [ModeStack.length_apply, ModeStack.length_apply, last]
    cases effect : token.kind.transition with
    | stay => rw [effect] at leaves; cases leaves
    | push mode => rw [effect] at leaves; cases leaves
    | pop =>
      show _ - 1 ≤ 0
      omega
    | replace mode =>
      show _ - 1 + 1 ≤ 1
      omega
  have after := ModeStack.length_through_le (back.map Token.kind) spent
  have whole : ∀ stack : ModeStack,
      (stack.through ((front ++ [token]).map Token.kind)).through (back.map Token.kind) = stack := by
    intro stack
    rw [← ModeStack.through_append, ← List.map_append, List.append_assoc, List.singleton_append]
    exact neutral stack
  rw [whole, whole] at after
  exact absurd after (Nat.not_succ_le_zero 0)

/-- The tokens of a tree without faults leave every stack of modes as it was. -/
theorem neutral_of_clean {tokens : List Token} (clean : (build tokens).faults = []) :
    Neutral tokens := by
  have neutral := Child.AllFormed.neutral (wellFormed_of_clean clean)
  rwa [yields_of_clean clean] at neutral

theorem after_of_clean {tokens : List Token} (clean : (build tokens).faults = []) :
    ModeStack.after tokens = .initial := by
  rw [ModeStack.after_eq_through]
  exact neutral_of_clean clean .initial

end Concrete

/-- A scan records that a source ends inside something only if some mode is left open. -/
theorem below_ne_nil_of_unfinished {source : Text} {mode : Mode} {finish : Point}
    (recorded : LexicalFault.unfinished mode finish ∈ (scan source).faults) :
    (ModeStack.after (scan source).tokens).below ≠ [] := by
  obtain ⟨stretches, tiles⟩ := exists_tiles source
  rw [tiles.faults_eq] at recorded
  intro closed
  have none : LexicalFault.atEnd (ModeStack.after (scan source).tokens)
      (Point.origin.walk source) = [] := by
    unfold LexicalFault.atEnd
    rw [closed]
  rw [none, List.append_nil] at recorded
  obtain ⟨run, -, other⟩ := List.mem_map.mp recorded
  cases other

namespace Concrete

/-- Of any tokens, whether they were scanned or not: if a tree is built of them without faults, they
lead from the first mode back to it and never leave the last mode of the stack. So where a source
ends inside something, the tree of its tokens has a fault too. -/
theorem build_closes_modes :
    (∀ tokens : List Token, (build tokens).faults = [] →
      ModeStack.after tokens = .initial ∧
        ∀ front token back, tokens = front ++ token :: back →
          token.kind.transition.leaves = true → (ModeStack.after front).below ≠ []) ∧
      ∀ source mode finish, LexicalFault.unfinished mode finish ∈ (scan source).faults →
        (build (scan source).tokens).faults ≠ [] := by
  refine ⟨?_, ?_⟩
  · intro tokens clean
    refine ⟨after_of_clean clean, ?_⟩
    intro front token back split leaves
    have neutral := neutral_of_clean clean
    rw [split] at neutral
    rw [ModeStack.after_eq_through]
    exact neutral.below_ne_nil .content leaves
  · intro source mode finish recorded clean
    apply below_ne_nil_of_unfinished recorded
    rw [after_of_clean clean]
    rfl

/-- A raw element with a braced script in quotes. -/
def quotedScript : Text := "<script a=\"\x7bb\x7d\">c</script>".toList

theorem quotedScript_closes_modes :
    (ModeStack.after (scan quotedScript).tokens = .initial ∧
      (ModeStack.after ((scan quotedScript).tokens.take 9)).below ≠ []) ∧
      (build (scan "<p a=\"".toList).tokens).faults ≠ [] := by
  have clean : (build (scan quotedScript).tokens).faults = [] := by decide +kernel
  have split : (scan quotedScript).tokens = (scan quotedScript).tokens.take 9 ++
      .place (.rawAngle .script) ['>'] ⟨1, 16, 15⟩ :: (scan quotedScript).tokens.drop 10 := by
    decide +kernel
  have unfinished : LexicalFault.unfinished (.quoted .double) ⟨1, 7, 6⟩ ∈
      (scan "<p a=\"".toList).faults := by decide +kernel
  obtain ⟨ended, above⟩ := build_closes_modes.1 _ clean
  exact ⟨⟨ended, above _ _ _ split rfl⟩, build_closes_modes.2 _ _ _ unfinished⟩

end Concrete

end Template
