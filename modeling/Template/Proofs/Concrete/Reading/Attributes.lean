import Template.Proofs.Concrete.Reading.Rules

set_option autoImplicit false

namespace Template.Concrete

open Terminal (kind)
open Rule

variable {τ : Type} [Terminal τ]

theorem quotedPart_eq_ok {quote : Quote} {tokens rest : List τ} {part : Part τ} :
    quotedPart quote tokens = .ok (part, rest) ↔
      tokens = part.yield ++ rest ∧ part.Quoted quote := by
  rw [quotedPart, peek_bind]
  constructor
  · intro read
    by_cases brace : kind? tokens = some .braceOpen
    · simp only [brace] at read
      obtain ⟨script, found, rfl⟩ := map_eq_ok.mp read
      exact braced_eq_ok.mp found
    · simp only at read
      obtain ⟨token, found, rfl⟩ := map_eq_ok.mp read
      exact expect_eq_ok.mp found
  · rintro ⟨rfl, formed⟩
    cases part with
    | text token =>
      change kind token = .quoted quote at formed
      simp only [Part.yield, List.singleton_append, kind?_cons, formed]
      exact map_eq_ok.mpr ⟨token, expect_eq_ok.mpr ⟨rfl, formed⟩, rfl⟩
    | braced script =>
      have first : kind? (script.yield ++ rest) = some .braceOpen := congrArg some formed.opening
      simp only [Part.yield, first]
      exact map_eq_ok.mpr ⟨script, braced_eq_ok.mpr ⟨rfl, formed⟩, rfl⟩

/-- A piece of a quoted value is where the value goes on. -/
theorem startsQuoted_of_quoted {quote : Quote} {part : Part τ} (formed : part.Quoted quote)
    (rest : List τ) : startsQuoted quote (part.yield ++ rest) = true := by
  cases part with
  | text token =>
    have first : kind? (token :: rest) = some (.quoted quote) := congrArg some formed
    simp only [startsQuoted, Part.yield, List.singleton_append, first, decide_true, Bool.or_true]
  | braced script =>
    have first : kind? (script.yield ++ rest) = some .braceOpen := congrArg some formed.opening
    simp only [startsQuoted, Part.yield, first, decide_true, Bool.true_or]

theorem quotedParts_eq_ok {quote : Quote} {tokens rest : List τ} {parts : List (Part τ)} :
    many (startsQuoted quote) (quotedPart quote) (quotedPart_takes quote) tokens =
        .ok (parts, rest) ↔
      tokens = parts.flatMap Part.yield ++ rest ∧ (∀ part ∈ parts, part.Quoted quote) ∧
        startsQuoted quote rest = false := by
  induction parts generalizing tokens with
  | nil =>
    rw [many_eq_nil]
    constructor
    · rintro ⟨stop, rfl⟩
      exact ⟨rfl, List.forall_mem_nil _, stop⟩
    · rintro ⟨rfl, -, stop⟩
      exact ⟨stop, rfl⟩
  | cons part parts ih =>
    simp only [many_eq_cons, quotedPart_eq_ok, ih, List.flatMap_cons, List.append_assoc,
      List.forall_mem_cons]
    constructor
    · rintro ⟨-, middle, ⟨rfl, first⟩, rfl, others, stop⟩
      exact ⟨rfl, ⟨first, others⟩, stop⟩
    · rintro ⟨rfl, ⟨first, others⟩, stop⟩
      exact ⟨startsQuoted_of_quoted first _, _, ⟨rfl, first⟩, rfl, others, stop⟩

theorem barePart_eq_ok {tokens rest : List τ} {part : Part τ} :
    barePart tokens = .ok (part, rest) ↔ tokens = part.yield ++ rest ∧ part.Bare := by
  rw [barePart, peek_bind]
  constructor
  · intro read
    by_cases word : kind? tokens = some .attributeText
    · simp only [word] at read
      obtain ⟨token, found, rfl⟩ := map_eq_ok.mp read
      obtain ⟨rfl, same⟩ := expect_eq_ok.mp found
      exact ⟨rfl, .inl same⟩
    · by_cases slash : kind? tokens = some .slash
      · simp only [slash] at read
        obtain ⟨token, found, rfl⟩ := map_eq_ok.mp read
        obtain ⟨rfl, same⟩ := expect_eq_ok.mp found
        exact ⟨rfl, .inr same⟩
      · simp only at read
        obtain ⟨script, found, rfl⟩ := map_eq_ok.mp read
        exact braced_eq_ok.mp found
  · rintro ⟨rfl, formed⟩
    cases part with
    | text token =>
      obtain same | same : kind token = .attributeText ∨ kind token = .slash := formed
      · simp only [Part.yield, List.singleton_append, kind?_cons, same]
        exact map_eq_ok.mpr ⟨token, expect_eq_ok.mpr ⟨rfl, same⟩, rfl⟩
      · simp only [Part.yield, List.singleton_append, kind?_cons, same]
        exact map_eq_ok.mpr ⟨token, expect_eq_ok.mpr ⟨rfl, same⟩, rfl⟩
    | braced script =>
      have first : kind? (script.yield ++ rest) = some .braceOpen := congrArg some formed.opening
      simp only [Part.yield, first]
      exact map_eq_ok.mpr ⟨script, braced_eq_ok.mpr ⟨rfl, formed⟩, rfl⟩

/-- The first token of a piece outside quotes. -/
theorem Part.Bare.first {part : Part τ} (formed : part.Bare) (rest : List τ) :
    kind? (part.yield ++ rest) = some .attributeText ∨ kind? (part.yield ++ rest) = some .slash ∨
      kind? (part.yield ++ rest) = some .braceOpen := by
  cases part with
  | text token =>
    obtain same | same : kind token = .attributeText ∨ kind token = .slash := formed
    · exact .inl (congrArg some same)
    · exact .inr (.inl (congrArg some same))
  | braced script => exact .inr (.inr (congrArg some formed.opening))

/-- Only a slash can be a piece outside quotes where the value does not go on. -/
theorem startsBare_of_bare {part : Part τ} (formed : part.Bare) (rest : List τ) :
    startsBare (part.yield ++ rest) = true ↔
      ∀ slash, part = .text slash → kind slash = .slash → kind? rest ≠ some .angle := by
  cases part with
  | text token =>
    obtain same | same : kind token = .attributeText ∨ kind token = .slash := formed
    · simp [startsBare, Part.yield, same]
    · simp only [startsBare, Part.yield, List.singleton_append, kind?_cons, same, List.tail_cons,
        Part.text.injEq, forall_eq', forall_const]
      exact decide_eq_true_iff
  | braced script =>
    have first : kind? (script.yield ++ rest) = some .braceOpen := congrArg some formed.opening
    simp [startsBare, Part.yield, first]

/-- A value without quotes goes on as far as it can if it goes on at its first piece and the others
go on as far as they can. -/
theorem Extent.whole_cons {part : Part τ} {parts : List (Part τ)} (rest : List τ)
    (first : part.Bare) (others : ∀ part ∈ parts, part.Bare) :
    Extent.whole (part :: parts) rest ↔
      startsBare (part.yield ++ (parts.flatMap Part.yield ++ rest)) = true ∧
        Extent.whole parts rest := by
  rw [startsBare_of_bare first]
  cases parts with
  | nil =>
    simp only [Extent.whole, List.getLast?_singleton, Option.some.injEq, List.flatMap_nil,
      List.nil_append, List.getLast?_nil, reduceCtorEq, false_implies, implies_true, and_true]
    exact and_comm
  | cons next parts =>
    have further : ∀ slash, part = .text slash → kind slash = .slash →
        kind? ((next :: parts).flatMap Part.yield ++ rest) ≠ some .angle := by
      intro slash _ _
      rw [List.flatMap_cons, List.append_assoc]
      have begins := (others next List.mem_cons_self).first (parts.flatMap Part.yield ++ rest)
      rcases begins with begins | begins | begins <;> simp [begins]
    rw [and_iff_right further]
    simp only [Extent.whole, List.getLast?_cons_cons]

theorem bareParts_eq_ok {tokens rest : List τ} {parts : List (Part τ)} :
    many startsBare barePart barePart_takes tokens = .ok (parts, rest) ↔
      tokens = parts.flatMap Part.yield ++ rest ∧ (∀ part ∈ parts, part.Bare) ∧
        Extent.whole parts rest := by
  induction parts generalizing tokens with
  | nil =>
    simp only [many_eq_nil, Extent.whole, List.flatMap_nil, List.nil_append, List.getLast?_nil,
      reduceCtorEq, false_implies, implies_true, and_true, List.not_mem_nil, true_and]
    constructor
    · rintro ⟨stop, rfl⟩
      exact ⟨rfl, stop⟩
    · rintro ⟨rfl, stop⟩
      exact ⟨stop, rfl⟩
  | cons part parts ih =>
    simp only [many_eq_cons, barePart_eq_ok, ih, List.flatMap_cons, List.append_assoc,
      List.forall_mem_cons]
    constructor
    · rintro ⟨go, middle, ⟨rfl, first⟩, rfl, others, whole⟩
      exact ⟨rfl, ⟨first, others⟩, (Extent.whole_cons rest first others).mpr ⟨go, whole⟩⟩
    · rintro ⟨rfl, ⟨first, others⟩, whole⟩
      obtain ⟨go, whole⟩ := (Extent.whole_cons rest first others).mp whole
      exact ⟨go, _, ⟨rfl, first⟩, rfl, others, whole⟩

theorem eq_of_value {tokens rest : List τ} {value : Value τ}
    (read : Concrete.value tokens = .ok (value, rest)) :
    tokens = value.yield ++ rest ∧ value.Formed .whole rest := by
  rw [Concrete.value, peek_bind] at read
  by_cases quotes : ∃ quote, kind? tokens = some (.quoteOpen quote)
  · obtain ⟨quote, quotes⟩ := quotes
    simp only [quotes, bind_eq_ok, expect_eq_ok, quotedParts_eq_ok, pure_eq_ok] at read
    obtain ⟨opening, _, ⟨rfl, first⟩, parts, _, ⟨rfl, others, -⟩, closing, _, ⟨rfl, last⟩, rfl,
      rfl⟩ := read
    exact ⟨by simp only [Value.yield, List.cons_append, List.append_assoc, List.nil_append],
      first, others, last⟩
  · have unquoted := not_exists.mp quotes
    simp only at read
    obtain ⟨parts, found, rfl⟩ := map_eq_ok.mp read
    exact bareParts_eq_ok.mp found

theorem value_of_formed {rest : List τ} {value : Value τ} (formed : value.Formed .whole rest)
    (unquoted : ∀ quote, kind? rest ≠ some (.quoteOpen quote)) :
    Concrete.value (value.yield ++ rest) = .ok (value, rest) := by
  rw [Concrete.value, peek_bind]
  cases value with
  | quoted quote opening parts closing =>
    obtain ⟨first, others, last⟩ := formed
    have spelled : (Value.quoted quote opening parts closing).yield ++ rest =
        opening :: (parts.flatMap Part.yield ++ closing :: rest) := by
      simp only [Value.yield, List.cons_append, List.append_assoc, List.nil_append]
    have stop : startsQuoted quote (closing :: rest) = false := by
      simp [startsQuoted, last]
    simp only [spelled, kind?_cons, first, bind_eq_ok, expect_eq_ok, quotedParts_eq_ok, pure_eq_ok]
    exact ⟨opening, _, ⟨rfl, first⟩, parts, _, ⟨rfl, others, stop⟩, closing, _, ⟨rfl, last⟩, rfl,
      rfl⟩
  | bare parts =>
    have read : many startsBare barePart barePart_takes (parts.flatMap Part.yield ++ rest) =
        .ok (parts, rest) := bareParts_eq_ok.mpr ⟨rfl, formed⟩
    have first : ∀ quote, kind? (parts.flatMap Part.yield ++ rest) ≠ some (.quoteOpen quote) := by
      cases parts with
      | nil => exact unquoted
      | cons part parts =>
        intro quote
        rw [List.flatMap_cons, List.append_assoc]
        have begins := (formed.1 part List.mem_cons_self).first (parts.flatMap Part.yield ++ rest)
        rcases begins with begins | begins | begins <;> simp [begins]
    simp only [Value.yield]
    exact map_eq_ok.mpr ⟨parts, read, rfl⟩

/-- Whether the token after an attribute ends it: no modifier, no equals sign, and nothing that an
empty value would take for a quote. -/
def endsNamed : Option Kind → Bool
  | some .pipe | some .equal | some (.quoteOpen _) => false
  | _ => true

theorem modifiers_eq_ok {tokens rest : List τ} {modifiers : List (Modifier τ)} :
    many startsModifier modifier modifier_takes tokens = .ok (modifiers, rest) ↔
      tokens = modifiers.flatMap Modifier.yield ++ rest ∧
        (∀ modifier ∈ modifiers, modifier.Formed) ∧ startsModifier rest = false := by
  induction modifiers generalizing tokens with
  | nil =>
    rw [many_eq_nil]
    constructor
    · rintro ⟨stop, rfl⟩
      exact ⟨rfl, List.forall_mem_nil _, stop⟩
    · rintro ⟨rfl, -, stop⟩
      exact ⟨stop, rfl⟩
  | cons modifier modifiers ih =>
    simp only [many_eq_cons, modifier_eq_ok, ih, List.flatMap_cons, List.append_assoc,
      List.forall_mem_cons]
    constructor
    · rintro ⟨-, middle, ⟨rfl, first⟩, rfl, others, stop⟩
      exact ⟨rfl, ⟨first, others⟩, stop⟩
    · rintro ⟨rfl, ⟨first, others⟩, stop⟩
      have go :
          startsModifier (modifier.yield ++ (modifiers.flatMap Modifier.yield ++ rest)) = true :=
        decide_eq_true (congrArg some first.pipe)
      exact ⟨go, _, ⟨rfl, first⟩, rfl, others, stop⟩

theorem eq_of_assigned? {tokens rest : List τ} {assigned : Option (Assigned τ)}
    (read : assigned? tokens = .ok (assigned, rest)) :
    tokens = assigned.toList.flatMap Assigned.yield ++ rest ∧
      ∀ found ∈ assigned, found.Formed .whole rest := by
  simp only [assigned?, bind_eq_ok, accept_eq_ok] at read
  obtain ⟨equal, middle, ⟨rfl, first, -⟩, read⟩ := read
  cases equal with
  | none =>
    obtain ⟨rfl, rfl⟩ := pure_eq_ok.mp read
    exact ⟨rfl, by simp⟩
  | some equal =>
    obtain ⟨value, found, rfl⟩ := map_eq_ok.mp read
    obtain ⟨rfl, formed⟩ := eq_of_value found
    refine ⟨?_, ?_⟩
    · simp only [Option.toList_some, List.flatMap_singleton, Assigned.yield, List.cons_append,
        List.nil_append]
    · intro assigned same
      cases same
      exact ⟨(ifAny_some _ _).mp first, formed⟩

theorem assigned?_of_formed {rest : List τ} {assigned : Option (Assigned τ)}
    (formed : ∀ found ∈ assigned, found.Formed .whole rest) (ends : endsNamed (kind? rest) = true) :
    assigned? (assigned.toList.flatMap Assigned.yield ++ rest) = .ok (assigned, rest) := by
  simp only [assigned?, bind_eq_ok, accept_eq_ok]
  cases assigned with
  | none =>
    refine ⟨none, rest, ⟨rfl, ifAny_none _, fun _ same => ?_⟩, pure_eq_ok.mpr ⟨rfl, rfl⟩⟩
    rw [same] at ends
    cases ends
  | some assigned =>
    have sound := formed assigned rfl
    have unquoted : ∀ quote, kind? rest ≠ some (.quoteOpen quote) := by
      intro quote same
      rw [same] at ends
      cases ends
    refine ⟨some assigned.equal, assigned.value.yield ++ rest,
      ⟨?_, ?_, fun missing => absurd missing (Option.some_ne_none _)⟩, ?_⟩
    · simp only [Option.toList_some, List.flatMap_singleton, Assigned.yield, List.cons_append,
        List.nil_append]
    · exact (ifAny_some _ _).mpr sound.equal
    · exact map_eq_ok.mpr ⟨assigned.value, value_of_formed sound.value unquoted, rfl⟩

theorem eq_of_entry {tokens rest : List τ} {entry : Attribute τ}
    (read : Concrete.entry tokens = .ok (entry, rest)) :
    tokens = entry.yield ++ rest ∧ entry.Formed .whole rest := by
  rw [Concrete.entry, peek_bind] at read
  by_cases word : kind? tokens = some .attributeText
  · simp only [word, named, bind_eq_ok, expect_eq_ok, modifiers_eq_ok, pure_eq_ok] at read
    obtain ⟨name, _, ⟨rfl, first⟩, modifiers, _, ⟨rfl, others, -⟩, assigned, _, found, rfl, rfl⟩ :=
      read
    obtain ⟨rfl, last⟩ := eq_of_assigned? found
    exact ⟨by simp only [Attribute.yield, List.cons_append, List.append_assoc], first, others, last⟩
  · simp only at read
    obtain ⟨script, found, rfl⟩ := map_eq_ok.mp read
    exact braced_eq_ok.mp found

theorem entry_of_formed {rest : List τ} {entry : Attribute τ} (formed : entry.Formed .whole rest)
    (ends : endsNamed (kind? rest) = true) :
    Concrete.entry (entry.yield ++ rest) = .ok (entry, rest) := by
  rw [Concrete.entry, peek_bind]
  cases entry with
  | named name modifiers assigned =>
    obtain ⟨first, others, last⟩ := formed
    have stop : startsModifier (assigned.toList.flatMap Assigned.yield ++ rest) = false := by
      refine decide_eq_false fun same => ?_
      cases assigned with
      | none =>
        change kind? rest = _ at same
        rw [same] at ends
        cases ends
      | some assigned =>
        have equal : some (kind assigned.equal) = some .pipe := same
        rw [(last assigned rfl).equal] at equal
        cases equal
    have spelled : (Attribute.named name modifiers assigned).yield ++ rest =
        name :: (modifiers.flatMap Modifier.yield ++
          (assigned.toList.flatMap Assigned.yield ++ rest)) := by
      simp only [Attribute.yield, List.cons_append, List.append_assoc]
    simp only [spelled, kind?_cons, first, named, bind_eq_ok, expect_eq_ok, modifiers_eq_ok,
      pure_eq_ok]
    exact ⟨name, _, ⟨rfl, first⟩, modifiers, _, ⟨rfl, others, stop⟩, assigned, _,
      assigned?_of_formed last ends, rfl, rfl⟩
  | braced script =>
    have first : kind? (script.yield ++ rest) = some .braceOpen := congrArg some formed.opening
    simp only [Attribute.yield, first]
    exact map_eq_ok.mpr ⟨script, braced_eq_ok.mpr ⟨rfl, formed⟩, rfl⟩

/-- An attribute begins with text or with a brace. -/
theorem startsAttribute_of_formed {entry : Attribute τ} {after : List τ}
    (formed : entry.Formed .whole after) (rest : List τ) :
    startsAttribute (entry.yield ++ rest) = true := by
  cases entry with
  | named name modifiers assigned =>
    have first : kind name = .attributeText := formed.1
    simp only [startsAttribute, Attribute.yield, List.cons_append, kind?_cons, first, decide_true,
      Bool.true_or]
  | braced script =>
    have first : kind? (script.yield ++ rest) = some .braceOpen := congrArg some formed.opening
    simp only [startsAttribute, Attribute.yield, first, decide_true, Bool.or_true]

/-- An attribute ends what stands before it. -/
theorem endsNamed_of_startsItem {tokens : List τ} (starts : startsItem tokens = true) :
    endsNamed (kind? tokens) = true := by
  simp only [startsItem, startsAttribute, Bool.or_eq_true, Bool.and_eq_true, decide_eq_true_eq]
    at starts
  rcases starts with (same | same) | ⟨same, -⟩ <;> rw [same] <;> rfl

theorem eq_of_item {tokens rest : List τ} {item : Item τ}
    (read : Concrete.item tokens = .ok (item, rest)) :
    tokens = item.yield ++ rest ∧ item.Formed .whole rest := by
  simp only [Concrete.item, bind_eq_ok, accept_eq_ok, pure_eq_ok] at read
  obtain ⟨blank, _, ⟨rfl, first, -⟩, entry, _, found, rfl, rfl⟩ := read
  obtain ⟨rfl, last⟩ := eq_of_entry found
  exact ⟨by simp only [Item.yield, List.append_assoc], first, last⟩

theorem startsItem_of_formed {item : Item τ} {after : List τ} (formed : item.Formed .whole after)
    (rest : List τ) : startsItem (item.yield ++ rest) = true := by
  have starts := startsAttribute_of_formed formed.entry rest
  rw [Item.yield, List.append_assoc]
  cases found : item.blank with
  | none => simp only [startsItem, Option.toList_none, List.nil_append, starts, Bool.true_or]
  | some blank =>
    have first : kind blank = .blank := formed.blank blank found
    simp only [startsItem, Option.toList_some, List.singleton_append, kind?_cons, first,
      List.tail_cons, starts, decide_true, Bool.and_true, Bool.or_true]

theorem item_of_formed {rest : List τ} {item : Item τ} (formed : item.Formed .whole rest)
    (ends : endsNamed (kind? rest) = true) :
    Concrete.item (item.yield ++ rest) = .ok (item, rest) := by
  have starts := startsAttribute_of_formed formed.entry rest
  simp only [Concrete.item, bind_eq_ok, accept_eq_ok, pure_eq_ok]
  refine ⟨item.blank, item.entry.yield ++ rest, ⟨by rw [Item.yield, List.append_assoc],
    formed.blank, fun _ same => ?_⟩, item.entry, rest, entry_of_formed formed.entry ends, rfl, rfl⟩
  rw [startsAttribute, same] at starts
  cases starts

theorem eq_of_items {tokens rest : List τ} {items : List (Item τ)}
    (read : many startsItem item item_takes tokens = .ok (items, rest)) :
    tokens = items.flatMap Item.yield ++ rest ∧ Item.AllFormed .whole items rest := by
  induction items generalizing tokens with
  | nil =>
    obtain ⟨-, rfl⟩ := many_eq_nil.mp read
    exact ⟨rfl, trivial⟩
  | cons item items ih =>
    obtain ⟨-, middle, found, further⟩ := many_eq_cons.mp read
    obtain ⟨rfl, others⟩ := ih further
    obtain ⟨rfl, first⟩ := eq_of_item found
    exact ⟨by rw [List.flatMap_cons, List.append_assoc], first, others⟩

theorem items_of_formed {rest : List τ} {items : List (Item τ)}
    (formed : Item.AllFormed .whole items rest) (stop : startsItem rest = false)
    (ends : endsNamed (kind? rest) = true) :
    many startsItem item item_takes (items.flatMap Item.yield ++ rest) = .ok (items, rest) := by
  induction items with
  | nil => exact many_eq_nil.mpr ⟨stop, rfl⟩
  | cons item items ih =>
    obtain ⟨first, others⟩ := formed
    -- What comes after the first item is another one, or what comes after all of them.
    have further : endsNamed (kind? (items.flatMap Item.yield ++ rest)) = true := by
      cases items with
      | nil => exact ends
      | cons next items =>
        rw [List.flatMap_cons, List.append_assoc]
        exact endsNamed_of_startsItem (startsItem_of_formed others.1 _)
    rw [List.flatMap_cons, List.append_assoc]
    exact many_eq_cons.mpr
      ⟨startsItem_of_formed first _, _, item_of_formed first further, ih others⟩

end Template.Concrete
