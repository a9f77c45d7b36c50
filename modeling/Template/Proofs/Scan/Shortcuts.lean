import Template.Proofs.Scan.Munching
import Template.Scanner.Plain

set_option autoImplicit false

namespace Template

namespace Scanner

/-- A step of a plain scan takes the token that can be taken here, or one character where none
can. -/
theorem bites_of_plainStep {before after : Scanner} (taken : before.plainStep = some after) :
    Bites before after := by
  unfold plainStep at taken
  split at taken
  · cases taken
  · next char rest here =>
    split at taken
    · next kind count chosen =>
      cases taken
      obtain ⟨image, rfl, takes⟩ := Munch.longest?_eq_some_iff.mp chosen
      exact .take takes
    · next chosen =>
      cases taken
      exact .skip here (Munch.longest?_eq_none_iff.mp chosen)

/-- Wherever a plain scan gets to is a place of the course. -/
theorem course_of_plain {source : Text} {scanner : Scanner}
    (reached : plainMachine.Reaches (.start source) scanner) : Course source scanner := by
  apply reached.keeps (Course source)
  · intro before after course taken
    exact course.tail (bites_of_plainStep taken)
  · exact .refl

/-- A plain scan goes on until the source is at its end. -/
theorem rest_of_plainStep {scanner : Scanner} (stopped : scanner.plainStep = none) :
    scanner.rest = [] := by
  unfold plainStep at stopped
  split at stopped
  · assumption
  · split at stopped <;> cases stopped

end Scanner

/-- The scan finds in every source exactly the tokens and the faults that the plain scan finds: that
it remembers after which offset no end of a comment comes, and that it passes over the rest of a raw
element without an end tag at once, cannot be told from the outside. -/
theorem scan_eq_plainScan (source : Text) : scan source = plainScan source := by
  have course := Scanner.course_of_plain (Scanner.plainMachine.reaches_exhaust (.start source))
  have finished := Scanner.rest_of_plainStep (Scanner.plainMachine.step_exhaust (.start source))
  exact (course.result_eq finished).symm

end Template
