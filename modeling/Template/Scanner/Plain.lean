import Template.Scanner

set_option autoImplicit false

namespace Template

namespace Scanner

/-- The token kind chosen here with its length, with nothing remembered. -/
def plainLongest? (scanner : Scanner) : Option (Kind × Nat) :=
  Munch.longest? (Munch.length · scanner.rest) scanner.modes.top.candidates

def plainStep (scanner : Scanner) : Option Scanner :=
  match scanner.rest with
  | [] => none
  | char :: rest =>
    match scanner.plainLongest? with
    | some (kind, count) => some (scanner.emit kind count)
    | none => some (scanner.skip char [] rest)

/-- Each step takes at least one character. -/
theorem plainStep_shorter (before after : Scanner) (taken : before.plainStep = some after) :
    after.rest.length < before.rest.length := by
  unfold plainStep at taken
  split at taken
  · cases taken
  · next char rest here =>
    split at taken
    · next kind count chosen =>
      cases taken
      have := (Munch.longest?_pos _ _ _ _ chosen).2
      simp only [emit, here, List.length_drop, List.length_cons]
      omega
    · cases taken
      simp only [skip, here, List.length_cons]
      omega

def plainMachine : Machine Scanner :=
  ⟨plainStep, fun scanner => scanner.rest.length, plainStep_shorter⟩

end Scanner

def plainScan (source : Text) : Scanned := (Scanner.plainMachine.exhaust (.start source)).result

end Template
