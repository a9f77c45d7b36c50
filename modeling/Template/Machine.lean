set_option autoImplicit false

namespace Template

universe u

variable {State : Type u}

/-- A step that cannot go on for ever: each step lowers the weight. -/
structure Machine (State : Type u) where
  step : State → Option State
  weight : State → Nat
  lighter : ∀ before after, step before = some after → weight after < weight before

namespace Machine

/-- The state after so many steps, or where the machine stops before. -/
def run (machine : Machine State) : Nat → State → State
  | 0, state => state
  | count + 1, state =>
    match machine.step state with
    | none => state
    | some after => run machine count after

/-- The state in which the machine stops. The weight of a state bounds the steps that are left. -/
def exhaust (machine : Machine State) (state : State) : State :=
  machine.run (machine.weight state) state

/-- One state leads to another by steps of the machine. -/
inductive Reaches (machine : Machine State) : State → State → Prop where
  | refl (state : State) : Reaches machine state state
  | step {before after last : State} (taken : machine.step before = some after)
      (further : Reaches machine after last) : Reaches machine before last

theorem run_of_none (machine : Machine State) (count : Nat) (state : State)
    (stopped : machine.step state = none) : machine.run count state = state := by
  cases count with
  | zero => rfl
  | succ count => simp only [run, stopped]

theorem run_succ_of_some (machine : Machine State) (count : Nat) (before after : State)
    (taken : machine.step before = some after) :
    machine.run (count + 1) before = machine.run count after := by
  simp only [run, taken]

/-- More steps than the weight allows change nothing. -/
theorem run_eq_exhaust (machine : Machine State) (count : Nat) (state : State)
    (enough : machine.weight state ≤ count) : machine.run count state = machine.exhaust state := by
  suffices agree : ∀ (left right : Nat) (state : State), machine.weight state ≤ left →
      machine.weight state ≤ right → machine.run left state = machine.run right state from
    agree count _ state enough (Nat.le_refl _)
  intro left
  induction left with
  | zero =>
    intro right state below _
    cases taken : machine.step state with
    | none => rw [run_of_none _ _ _ taken, run_of_none _ _ _ taken]
    | some after =>
      have lower := machine.lighter state after taken
      omega
  | succ left ih =>
    intro right state below above
    cases taken : machine.step state with
    | none => rw [run_of_none _ _ _ taken, run_of_none _ _ _ taken]
    | some after =>
      have lower := machine.lighter state after taken
      match right with
      | 0 => omega
      | right + 1 =>
        rw [run_succ_of_some _ _ _ _ taken, run_succ_of_some _ _ _ _ taken]
        exact ih right after (by omega) (by omega)

theorem exhaust_of_none (machine : Machine State) (state : State)
    (stopped : machine.step state = none) : machine.exhaust state = state :=
  run_of_none machine _ state stopped

/-- A machine can be run one step at a time. -/
theorem exhaust_of_some (machine : Machine State) (before after : State)
    (taken : machine.step before = some after) :
    machine.exhaust before = machine.exhaust after := by
  have lower := machine.lighter before after taken
  obtain ⟨count, weighs⟩ : ∃ count, machine.weight before = count + 1 :=
    ⟨machine.weight before - 1, by omega⟩
  rw [exhaust, weighs, run_succ_of_some machine count before after taken]
  exact run_eq_exhaust machine count after (by omega)

/-- Where a machine stops it has no further step. -/
theorem step_exhaust (machine : Machine State) (state : State) :
    machine.step (machine.exhaust state) = none := by
  cases taken : machine.step state with
  | none => rw [exhaust_of_none machine state taken, taken]
  | some after =>
    rw [exhaust_of_some machine state after taken]
    exact step_exhaust machine after
termination_by machine.weight state
decreasing_by exact machine.lighter state after taken

/-- A machine stops in a state that its steps reach. -/
theorem reaches_exhaust (machine : Machine State) (state : State) :
    machine.Reaches state (machine.exhaust state) := by
  cases taken : machine.step state with
  | none =>
    rw [exhaust_of_none machine state taken]
    exact .refl state
  | some after =>
    rw [exhaust_of_some machine state after taken]
    exact .step taken (reaches_exhaust machine after)
termination_by machine.weight state
decreasing_by exact machine.lighter state after taken

namespace Reaches

variable {machine : Machine State}

theorem trans {first middle last : State} (front : machine.Reaches first middle)
    (back : machine.Reaches middle last) : machine.Reaches first last := by
  induction front with
  | refl => exact back
  | step taken _ ih => exact .step taken (ih back)

theorem single {before after : State} (taken : machine.step before = some after) :
    machine.Reaches before after := .step taken (.refl after)

/-- A property that each step keeps is kept by all steps. -/
theorem keeps (property : State → Prop)
    (kept : ∀ before after, property before → machine.step before = some after → property after)
    {first last : State} (steps : machine.Reaches first last) (start : property first) :
    property last := by
  induction steps with
  | refl => exact start
  | step taken _ ih => exact ih (kept _ _ start taken)

theorem exhaust_eq {first last : State} (steps : machine.Reaches first last) :
    machine.exhaust first = machine.exhaust last := by
  induction steps with
  | refl => rfl
  | step taken _ ih => rw [exhaust_of_some machine _ _ taken, ih]

/-- Where each step of a machine is a step of another, so are many. The steps need to agree only
from states with a property that they keep. -/
theorem map {Image : Type u} {other : Machine Image} {f : State → Image}
    (property : State → Prop)
    (kept : ∀ before after, property before → machine.step before = some after → property after)
    (agree : ∀ state, property state → other.step (f state) = (machine.step state).map f)
    {first last : State} (steps : machine.Reaches first last) (start : property first) :
    other.Reaches (f first) (f last) := by
  induction steps with
  | refl => exact .refl _
  | step taken _ ih =>
    refine .step ?_ (ih (kept _ _ start taken))
    rw [agree _ start, taken, Option.map_some]

end Reaches

/-- A machine that takes the same steps under a map stops in the image of where the first stops. -/
theorem exhaust_map {Image : Type u} (machine : Machine State) {other : Machine Image}
    {f : State → Image} (property : State → Prop)
    (kept : ∀ before after, property before → machine.step before = some after → property after)
    (agree : ∀ state, property state → other.step (f state) = (machine.step state).map f)
    (state : State) (start : property state) :
    other.exhaust (f state) = f (machine.exhaust state) := by
  have reached := machine.reaches_exhaust state
  have steps := reached.map property kept agree start
  have stopped : other.step (f (machine.exhaust state)) = none := by
    rw [agree _ (reached.keeps property kept start), step_exhaust, Option.map_none]
  rw [steps.exhaust_eq, exhaust_of_none other _ stopped]

end Machine

end Template
