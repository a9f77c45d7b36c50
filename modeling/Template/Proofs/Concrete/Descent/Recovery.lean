import Template.Concrete.Descent
import Template.Proofs.Concrete.Descent.Agreement
import Template.Proofs.Concrete.Moves

set_option autoImplicit false

namespace Template.Concrete

open Terminal (kind)
open Cursor

variable {τ α β σ ρ : Type}

namespace Descent

/-- A part of reading leads from one reader to another and yields an item. -/
def Runs (tokens : List τ) (step : Step τ α) (before : Reader τ) (item : α) (after : Reader τ) :
    Prop := step tokens before = some (item, after)

namespace Runs

variable {tokens : List τ} {before middle after : Reader τ}

theorem pure (tokens : List τ) (item : α) (reader : Reader τ) :
    Runs tokens (Pure.pure item) reader item reader := rfl

theorem bind {step : Step τ α} {next : α → Step τ β} {item : α} {result : β}
    (front : Runs tokens step before item middle)
    (back : Runs tokens (next item) middle result after) :
    Runs tokens (step >>= next) before result after := by
  rw [Runs] at front
  simp only [Runs, Bind.bind, front]
  exact back

/-- A run of two parts stops between them. -/
theorem exists_of_bind {step : Step τ α} {next : α → Step τ β} {result : β}
    (runs : Runs tokens (step >>= next) before result after) :
    ∃ item middle, Runs tokens step before item middle ∧
      Runs tokens (next item) middle result after := by
  cases front : step tokens before with
  | none =>
    simp only [Runs, Bind.bind, front] at runs
    cases runs
  | some found =>
    simp only [Runs, Bind.bind, front] at runs
    exact ⟨found.1, found.2, front, runs⟩

theorem map {step : Step τ α} {item : α} (f : α → β) (front : Runs tokens step before item after) :
    Runs tokens (f <$> step) before (f item) after := front.bind (pure tokens (f item) after)

theorem ite_pos {fact : Prop} [Decidable fact] {step other : Step τ α} {item : α} (holds : fact)
    (runs : Runs tokens step before item after) :
    Runs tokens (if fact then step else other) before item after := by
  rw [if_pos holds]
  exact runs

theorem ite_neg {fact : Prop} [Decidable fact] {step other : Step τ α} {item : α} (fails : ¬fact)
    (runs : Runs tokens other before item after) :
    Runs tokens (if fact then step else other) before item after := by
  rw [if_neg fails]
  exact runs

theorem check {fact : Prop} [Decidable fact] (tokens : List τ) (reader : Reader τ) (holds : fact) :
    Runs tokens (check fact) reader () reader := by
  rw [Runs, Descent.check, if_pos holds]

theorem moveTo {reader : Reader τ} {further : Nat} (onward : reader.place ≤ further)
    (inside : further ≤ tokens.length) :
    Runs tokens (moveTo further) reader () { reader with place := further } := by
  rw [Runs, Descent.moveTo, if_pos ⟨onward, inside⟩]

end Runs

theorem place_runs (tokens : List τ) (now : Reader τ) : Runs tokens place now now.place now := rfl

theorem note_runs (tokens : List τ) (cause : Cause τ) (site : Site τ) (now : Reader τ) :
    Runs tokens (note cause site) now () { now with faults := ⟨cause, site⟩ :: now.faults } := rfl

theorem here?_runs (tokens : List τ) (now : Reader τ) :
    Runs tokens here? now (tokens.drop now.place).head? now := by
  rw [Runs, here?, getElem?_eq_head?]

/-- A round of a loop goes further along, or it is the last. What holds before every round is
`Now`, what holds after the last is `Done`. -/
inductive Turns (tokens : List τ) (step : Step τ (σ ⊕ ρ)) (Now : σ → Reader τ → Prop)
    (Done : ρ → Reader τ → Prop) (reader : Reader τ) : Prop where
  | again {next : σ} {after : Reader τ} (runs : Runs tokens step reader (.inl next) after)
      (further : reader.place < after.place) (inside : after.place ≤ tokens.length)
      (now : Now next after)
  | last {result : ρ} {after : Reader τ} (runs : Runs tokens step reader (.inr result) after)
      (done : Done result after)

theorem Turns.bind {tokens : List τ} {Now : σ → Reader τ → Prop} {Done : ρ → Reader τ → Prop}
    {reader middle : Reader τ} {step : Step τ α} {next : α → Step τ (σ ⊕ ρ)} {item : α}
    (front : Runs tokens step reader item middle) (onward : reader.place ≤ middle.place)
    (back : Turns tokens (next item) Now Done middle) :
    Turns tokens (step >>= next) Now Done reader := by
  cases back with
  | again runs further inside now =>
    exact .again (front.bind runs) (Nat.lt_of_le_of_lt onward further) inside now
  | last runs done => exact .last (front.bind runs) done

theorem rounds_runs {tokens : List τ} {round : σ → Step τ (σ ⊕ ρ)} {Now : σ → Reader τ → Prop}
    {Done : ρ → Reader τ → Prop}
    (turns : ∀ state reader, Now state reader → Turns tokens (round state) Now Done reader) :
    ∀ count state reader, Now state reader → tokens.length - reader.place < count →
      ∃ result after, Runs tokens (rounds round count state) reader result after ∧
        Done result after := by
  -- Every round that is not the last leaves fewer tokens, so the rounds do not run out.
  intro count
  induction count with
  | zero => exact fun _ _ _ enough => absurd enough (Nat.not_lt_zero _)
  | succ count ih =>
    intro state reader now enough
    cases turns state reader now with
    | @again _ after runs further inside now =>
      have fewer : tokens.length - after.place < count := by omega
      obtain ⟨result, last, more, done⟩ := ih _ _ now fewer
      have run : Runs tokens (rounds round (count + 1) state) reader result last := by
        apply Runs.bind (place_runs tokens reader)
        apply Runs.bind runs
        apply Runs.bind (place_runs tokens after)
        apply Runs.bind (Runs.check tokens after further)
        exact more
      exact ⟨result, last, run, done⟩
    | @last result after runs done =>
      have run : Runs tokens (rounds round (count + 1) state) reader result after := by
        apply Runs.bind (place_runs tokens reader)
        apply Runs.bind runs
        exact .pure tokens result after
      exact ⟨result, after, run, done⟩

/-- A loop of which every round goes further along comes to an end. -/
theorem loop_runs {tokens : List τ} {round : σ → Step τ (σ ⊕ ρ)} {Now : σ → Reader τ → Prop}
    {Done : ρ → Reader τ → Prop}
    (turns : ∀ state reader, Now state reader → Turns tokens (round state) Now Done reader)
    (state : σ) (reader : Reader τ) (now : Now state reader) :
    ∃ result after, Runs tokens (loop round state) reader result after ∧ Done result after :=
  rounds_runs turns _ state reader now (by omega)

theorem clamp?_of_le {low high number : Nat} (above : low ≤ number) (below : number ≤ high) :
    clamp? low high number = some number := by
  rw [clamp?, if_pos (Nat.le_trans above below), Nat.min_eq_left below, Nat.max_eq_right above]

theorem clamp?_of_lt {low high number : Nat} (below : number < low) (ordered : low ≤ high) :
    clamp? low high number = some low := by
  rw [clamp?, if_pos ordered, Nat.min_eq_left (by omega), Nat.max_eq_left (by omega)]

/-- The tokens of a range are in place, whatever the range holds. -/
theorem site?_eq {tokens run : List τ} {first stop : Nat} (inside : first ≤ tokens.length)
    (within : stop ≤ tokens.length) (split : tokens.drop first = run ++ tokens.drop stop) :
    site? tokens first stop = some (.dropped run (tokens.drop stop)) := by
  have lengths := congrArg List.length split
  rw [List.length_append, List.length_drop, List.length_drop] at lengths
  rcases cases_drop tokens inside with ⟨none, left⟩ | ⟨token, found, left, further⟩
  · rw [left] at split
    obtain ⟨rfl, ended⟩ := List.nil_eq_append_iff.mp split
    rw [site?, none, ended]
    rfl
  · cases run with
    | nil =>
      have same : stop = first := by rw [List.length_nil] at lengths; omega
      subst same
      have clamped := clamp?_of_lt (Nat.lt_succ_self stop) further
      simp only [Nat.succ_eq_add_one] at clamped
      simp [site?, found, clamped, left, Site.dropped, Site.at]
    | cons head more =>
      rw [List.length_cons] at lengths
      rw [left, List.cons_append] at split
      obtain ⟨rfl, behind⟩ := List.cons.inj split
      have final : tokens[stop - 1]? = some (more.getLastD token) := by
        have shift : stop - 1 = first + more.length := by omega
        have whole : tokens.drop first = (token :: more) ++ tokens.drop stop := by
          rw [left, behind, List.cons_append]
        have last : (token :: more).getLast? = some (more.getLastD token) := by
          rw [List.getLast?_cons, List.getLastD_eq_getLast?]
        rw [shift, ← List.getElem?_drop, whole, List.getElem?_append_left (Nat.lt_succ_self _)]
        rwa [List.getLast?_eq_getElem?] at last
      have beyond : ¬stop ≤ first := by omega
      have clamped := clamp?_of_le (show first + 1 ≤ stop by omega) within
      simp [site?, found, clamped, final, beyond, Site.dropped]

theorem report_runs {tokens run : List τ} (reader : Reader τ) {first : Nat} (cause : Cause τ)
    (inside : first ≤ tokens.length) (within : reader.place ≤ tokens.length)
    (split : tokens.drop first = run ++ tokens.drop reader.place) :
    Runs tokens (report cause first) reader ()
      { reader with
        faults := ⟨cause, .dropped run (tokens.drop reader.place)⟩ :: reader.faults } := by
  simp only [Runs, report, site?_eq inside within split]
  rfl

theorem reportHere_runs {tokens : List τ} {reader : Reader τ} (cause : Cause τ)
    (inside : reader.place ≤ tokens.length) :
    Runs tokens (reportHere cause) reader ()
      { reader with faults := ⟨cause, .at (tokens.drop reader.place)⟩ :: reader.faults } :=
  (place_runs tokens reader).bind (report_runs reader cause inside inside (List.nil_append _).symm)

theorem read_runs {tokens : List τ} {reading : Reading τ α} {reader : Reader τ}
    {outcome : Outcome τ α} {further : Nat}
    (same : reading tokens reader.place = some (outcome, further))
    (onward : reader.place ≤ further) (inside : further ≤ tokens.length) :
    Runs tokens (read reading) reader outcome { reader with place := further } := by
  have moved : Runs tokens (do moveTo further; return outcome) reader outcome
      { reader with place := further } := (Runs.moveTo onward inside).bind (.pure _ _ _)
  simp only [Runs, read, same]
  exact moved

/-- A rule has been read at the cursor, and some tokens are left. -/
structure Took (tokens : List τ) (reading : Reading τ α) (reader : Reader τ) (item : α)
    (rest : List τ) : Prop where
  runs : Runs tokens (read reading) reader (.ok item)
    { reader with place := placeOf tokens rest }
  suffix : rest <:+ tokens
  onward : reader.place ≤ placeOf tokens rest

structure Lost (tokens : List τ) (reading : Reading τ α) (reader : Reader τ)
    (mismatch : Mismatch τ) : Prop where
  runs : Runs tokens (read reading) reader (.error (failureOf tokens mismatch))
    { reader with place := placeOf tokens mismatch.rest }
  suffix : mismatch.rest <:+ tokens
  onward : reader.place ≤ placeOf tokens mismatch.rest

section

variable {tokens : List τ} {reading : Reading τ α} {rule : Rule τ α} {reader : Reader τ}

theorem took_of_ok {item : α} {rest : List τ}
    (same : reading tokens reader.place = some (outcome tokens (rule (tokens.drop reader.place))))
    (shrinks : Rule.Shrinks rule) (inside : reader.place ≤ tokens.length)
    (found : rule (tokens.drop reader.place) = .ok (item, rest)) :
    Took tokens reading reader item rest := by
  have suffix := shrinks (tokens.drop reader.place)
  rw [found] at same suffix
  have onward := le_placeOf suffix inside
  exact ⟨read_runs same onward (placeOf_le _ _), suffix.trans (List.drop_suffix _ _), onward⟩

theorem lost_of_error {mismatch : Mismatch τ}
    (same : reading tokens reader.place = some (outcome tokens (rule (tokens.drop reader.place))))
    (shrinks : Rule.Shrinks rule) (inside : reader.place ≤ tokens.length)
    (failed : rule (tokens.drop reader.place) = .error mismatch) :
    Lost tokens reading reader mismatch := by
  have suffix := shrinks (tokens.drop reader.place)
  rw [failed] at same suffix
  have onward := le_placeOf suffix inside
  exact ⟨read_runs same onward (placeOf_le _ _), suffix.trans (List.drop_suffix _ _), onward⟩

theorem took_of_agrees {item : α} {rest : List τ}
    (agrees : Agrees reading rule) (inside : reader.place ≤ tokens.length)
    (found : rule (tokens.drop reader.place) = .ok (item, rest)) :
    Took tokens reading reader item rest :=
  took_of_ok (agrees.same tokens reader.place inside) agrees.shrinks inside found

theorem lost_of_agrees {mismatch : Mismatch τ} (agrees : Agrees reading rule)
    (inside : reader.place ≤ tokens.length)
    (failed : rule (tokens.drop reader.place) = .error mismatch) :
    Lost tokens reading reader mismatch :=
  lost_of_error (agrees.same tokens reader.place inside) agrees.shrinks inside failed

end

variable [Terminal τ]

open Builder (resumes resumed unread unread_append_resumed)

theorem resumed_suffix (tokens : List τ) : resumed tokens <:+ tokens := List.dropWhile_suffix _

/-- The position from which reading goes on after another. -/
def resumption (tokens : List τ) (place : Nat) : Nat :=
  placeOf tokens (resumed (tokens.drop place))

theorem resumption_le (tokens : List τ) (place : Nat) : resumption tokens place ≤ tokens.length :=
  placeOf_le _ _

theorem drop_resumption (tokens : List τ) (place : Nat) :
    tokens.drop (resumption tokens place) = resumed (tokens.drop place) :=
  drop_placeOf ((resumed_suffix _).trans (List.drop_suffix place tokens))

theorem le_resumption {tokens : List τ} {place : Nat} (inside : place ≤ tokens.length) :
    place ≤ resumption tokens place := le_placeOf (resumed_suffix _) inside

theorem drop_eq_unread (tokens : List τ) (place : Nat) :
    tokens.drop place =
      unread (tokens.drop place) ++ tokens.drop (resumption tokens place) := by
  rw [drop_resumption, unread_append_resumed]

/-- Reading goes on at a token after which it can, and at the end. -/
theorem resumption_of_mayResume {tokens : List τ} {place : Nat} (inside : place ≤ tokens.length)
    (may : mayResume tokens place = true) : resumption tokens place = place := by
  have stays : resumed (tokens.drop place) = tokens.drop place := by
    rw [mayResume, kindAt?_eq] at may
    cases left : tokens.drop place with
    | nil => rfl
    | cons token rest =>
      rw [left] at may
      have resumes : resumes (kind token) = true := may
      rw [resumed, List.dropWhile_cons_of_neg (by simp [resumes])]
  rw [resumption, stays, placeOf_drop inside]

theorem mayResume_resumption (tokens : List τ) (place : Nat) :
    mayResume tokens (resumption tokens place) = true := by
  rw [mayResume, kindAt?_eq, drop_resumption, Rule.kind?]
  cases left : resumed (tokens.drop place) with
  | nil => rfl
  | cons token rest =>
    have stops := List.head?_dropWhile_not (fun token => !resumes (kind token)) (tokens.drop place)
    rw [← resumed, left] at stops
    simpa using stops

/-- A token after which reading cannot go on is passed over. -/
theorem resumption_succ {tokens : List τ} {place : Nat} {token : τ}
    (left : tokens.drop place = token :: tokens.drop (place + 1))
    (passes : resumes (kind token) = false) :
    resumption tokens (place + 1) = resumption tokens place := by
  have same : resumed (tokens.drop place) = resumed (tokens.drop (place + 1)) := by
    rw [left, resumed, List.dropWhile_cons_of_pos (by simp [passes]), ← resumed]
  rw [resumption, resumption, same]

/-- A reader has only moved its cursor, over tokens after which reading cannot go on. -/
structure Skipping (tokens : List τ) (reader now : Reader τ) : Prop where
  only : now = { reader with place := now.place }
  inside : now.place ≤ tokens.length
  same : resumption tokens now.place = resumption tokens reader.place

theorem skipRound_turns {tokens : List τ} {reader : Reader τ} (state : Unit) (now : Reader τ)
    (skipping : Skipping tokens reader now) :
    Turns tokens (skipRound state) (fun _ => Skipping tokens reader)
      (fun _ after => after = { reader with place := resumption tokens reader.place }) now := by
  obtain ⟨only, inside, same⟩ := skipping
  have stopped (may : mayResume tokens now.place = true) :
      now = { reader with place := resumption tokens reader.place } := by
    rw [← same, resumption_of_mayResume inside may]
    exact only
  rcases cases_drop tokens inside with ⟨none, left⟩ | ⟨token, found, left, further⟩
  · have may : mayResume tokens now.place = true := by rw [mayResume, kindAt?, none]; rfl
    have here : Runs tokens here? now Option.none now := by rw [Runs, here?, none]
    have run : Runs tokens (skipRound state) now (.inr ()) now := here.bind (.pure tokens _ now)
    exact .last run (stopped may)
  · have here : Runs tokens here? now (some token) now := by rw [Runs, here?, found]
    cases may : resumes (kind token) with
    | true =>
      have stops : mayResume tokens now.place = true := by rw [mayResume, kindAt?, found]; exact may
      have run : Runs tokens (skipRound state) now (.inr ()) now := by
        apply Runs.bind here
        apply Runs.ite_pos may
        exact .pure tokens _ now
      exact .last run (stopped stops)
    | false =>
      have moved : { now with place := now.place + 1 } = { reader with place := now.place + 1 } :=
        congrArg (fun reader => { reader with place := now.place + 1 }) only
      have passes : ¬resumes (kind token) = true := by simp [may]
      have run : Runs tokens (skipRound state) now (.inl ()) { now with place := now.place + 1 } := by
        apply Runs.bind here
        apply Runs.ite_neg passes
        apply Runs.bind (place_runs tokens now)
        apply Runs.bind (Runs.moveTo (Nat.le_succ now.place) further)
        exact .pure tokens _ _
      have skips : Skipping tokens reader { now with place := now.place + 1 } :=
        ⟨moved, further, (resumption_succ left may).trans same⟩
      exact .again run (Nat.lt_succ_self now.place) further skips

/-- Skipping stops where reading can go on. -/
theorem skip_runs {tokens : List τ} (reader : Reader τ) (inside : reader.place ≤ tokens.length) :
    Runs tokens skip reader () { reader with place := resumption tokens reader.place } := by
  have skipping : Skipping tokens reader reader := ⟨rfl, inside, rfl⟩
  obtain ⟨_, after, runs, rfl⟩ := loop_runs skipRound_turns () reader skipping
  exact runs

/-- Recovering from a failure at the cursor goes on where reading can go on. -/
theorem recover_runs {tokens : List τ} (reader : Reader τ) (inside : reader.place ≤ tokens.length)
    (expected : Expected) (found : Option τ) :
    Runs tokens (recover ⟨expected, found, reader.place⟩) reader ()
      { reader with
        place := resumption tokens reader.place
        faults := ⟨.mismatch expected found, .dropped (unread (tokens.drop reader.place))
          (resumed (tokens.drop reader.place))⟩ :: reader.faults } := by
  have stay : Runs tokens (moveTo (max reader.place reader.place)) reader () reader := by
    rw [Nat.max_self]
    exact Runs.moveTo (Nat.le_refl _) inside
  have resumes : Runs tokens checkResumed { reader with place := resumption tokens reader.place } ()
      { reader with place := resumption tokens reader.place } :=
    Runs.check tokens _ (mayResume_resumption tokens reader.place)
  have reported : Runs tokens (report (.mismatch expected found) reader.place)
      { reader with place := resumption tokens reader.place } ()
      { reader with
        place := resumption tokens reader.place
        faults := ⟨.mismatch expected found, .dropped (unread (tokens.drop reader.place))
          (resumed (tokens.drop reader.place))⟩ :: reader.faults } := by
    rw [← drop_resumption]
    exact report_runs _ _ inside (resumption_le _ _) (drop_eq_unread tokens reader.place)
  apply Runs.bind (place_runs tokens reader)
  apply Runs.bind (Runs.check tokens reader rfl)
  apply Runs.bind stay
  apply Runs.bind (skip_runs reader inside)
  apply Runs.bind resumes
  exact reported

def recovered (tokens : List τ) (reader : Reader τ) (mismatch : Mismatch τ) : Reader τ :=
  { reader with
    place := placeOf tokens (resumed mismatch.rest)
    faults := ⟨.mismatch mismatch.expected mismatch.rest.head?,
      .dropped (unread mismatch.rest) (resumed mismatch.rest)⟩ :: reader.faults }

theorem recovered_inside (tokens : List τ) (reader : Reader τ) (mismatch : Mismatch τ) :
    (recovered tokens reader mismatch).place ≤ tokens.length := placeOf_le _ _

theorem le_recovered (tokens : List τ) (reader : Reader τ) (mismatch : Mismatch τ) :
    placeOf tokens mismatch.rest ≤ (recovered tokens reader mismatch).place := by
  have shorter := Builder.length_resumed_le mismatch.rest
  simp only [recovered, placeOf]
  omega

/-- Recovering from where a rule failed drops what is dropped of the tokens that it left. -/
theorem Lost.recover_runs {reading : Reading τ α} {tokens : List τ} {reader : Reader τ}
    {mismatch : Mismatch τ} (lost : Lost tokens reading reader mismatch) :
    Runs tokens (recover (failureOf tokens mismatch))
      { reader with place := placeOf tokens mismatch.rest } ()
      (recovered tokens reader mismatch) := by
  have runs := Descent.recover_runs { reader with place := placeOf tokens mismatch.rest }
    (placeOf_le tokens mismatch.rest) mismatch.expected mismatch.rest.head?
  simp only [resumption, drop_placeOf lost.suffix] at runs
  exact runs

/-- A rule that failed, recovery from that, and then some result. -/
theorem Lost.yields {reading : Reading τ α} {tokens : List τ} {reader : Reader τ}
    {mismatch : Mismatch τ} (lost : Lost tokens reading reader mismatch)
    {next : Outcome τ α → Step τ β} {result : β}
    (failed : next (.error (failureOf tokens mismatch)) = do
      recover (failureOf tokens mismatch)
      return result) :
    Runs tokens (Descent.read reading >>= next) reader result
      (recovered tokens reader mismatch) := by
  apply Runs.bind lost.runs
  rw [failed]
  apply Runs.bind lost.recover_runs
  exact .pure tokens result _

end Descent

end Template.Concrete
