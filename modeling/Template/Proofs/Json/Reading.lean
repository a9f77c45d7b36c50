import Template.Json.Reader

set_option autoImplicit false

namespace Template.Json

/-- What is open is such that a value, and what the grammar lets follow it, completes it. The text
is that from the bracket of the array or of the object up to the value. -/
def Frame.Holds : Frame → Text → Prop
  | .array before, text => ∀ front word value rest items, Blank front → Denotes word value →
    Items rest items →
      Denotes (text ++ (front ++ (word ++ rest))) (.array (before.reverse ++ value :: items))
  | .object before name, text => ∀ front word value rest fields, Blank front →
    Denotes word value → Fields rest fields →
      Denotes (text ++ (front ++ (word ++ rest)))
        (.object (before.reverse ++ (name, value) :: fields))

/-- A text up to a place around which these frames are open. -/
inductive Opened : List Frame → Text → Prop where
  | nothing : Opened [] []
  | frame {below : List Frame} {frame : Frame} {outer front inner : Text}
      (around : Opened below outer) (blank : Blank front) (holds : frame.Holds inner) :
      Opened (frame :: below) (outer ++ (front ++ inner))

inductive Standing : List Frame → Option Json → Text → Prop where
  | before {frames : List Frame} {text : Text} (opened : Opened frames text) :
      Standing frames none text
  | behind {frames : List Frame} {text front word : Text} {value : Json}
      (opened : Opened frames text) (blank : Blank front) (denotes : Denotes word value) :
      Standing frames (some value) (text ++ (front ++ word))

theorem Frame.holds_array : (Frame.array []).Holds ['['] := by
  intro front word value rest items blank denotes others
  show Denotes ('[' :: (front ++ (word ++ rest))) (.array (value :: items))
  exact .array blank denotes others

theorem Named.holds_object {named name : Text} (called : Named named name) :
    (Frame.object [] name).Holds ('\x7b' :: named) := by
  intro front word value rest fields blank denotes others
  exact .object called blank denotes others

theorem Frame.Holds.nextItem {items : List Json} {text front word back : Text} {value : Json}
    (holds : (Frame.array items).Holds text) (blank : Blank front) (denotes : Denotes word value)
    (after : Blank back) :
    (Frame.array (value :: items)).Holds (text ++ (front ++ (word ++ (back ++ [','])))) := by
  intro front' word' value' rest more blank' denotes' others
  have longer := holds front word value _ _ blank denotes (.more after blank' denotes' others)
  simpa only [List.append_assoc, List.cons_append, List.nil_append, List.reverse_cons] using longer

theorem Frame.Holds.closeArray {items : List Json} {text front word back : Text} {value : Json}
    (holds : (Frame.array items).Holds text) (blank : Blank front) (denotes : Denotes word value)
    (after : Blank back) :
    Denotes (text ++ (front ++ (word ++ (back ++ [']'])))) (.array (value :: items).reverse) := by
  rw [List.reverse_cons]
  exact holds front word value _ _ blank denotes (.close after)

theorem Frame.Holds.nextField {fields : List (Text × Json)} {text front word back named : Text}
    {name next : Text} {value : Json} (holds : (Frame.object fields name).Holds text)
    (blank : Blank front) (denotes : Denotes word value) (after : Blank back)
    (called : Named named next) :
    (Frame.object ((name, value) :: fields) next).Holds
      (text ++ (front ++ (word ++ (back ++ ',' :: named)))) := by
  intro front' word' value' rest more blank' denotes' others
  have longer :=
    holds front word value _ _ blank denotes (.more after called blank' denotes' others)
  simpa only [List.append_assoc, List.cons_append, List.nil_append, List.reverse_cons] using longer

theorem Frame.Holds.closeObject {fields : List (Text × Json)} {text front word back name : Text}
    {value : Json} (holds : (Frame.object fields name).Holds text) (blank : Blank front)
    (denotes : Denotes word value) (after : Blank back) :
    Denotes (text ++ (front ++ (word ++ (back ++ ['\x7d']))))
      (.object ((name, value) :: fields).reverse) := by
  rw [List.reverse_cons]
  exact holds front word value _ _ blank denotes (.close after)

namespace Standing

variable {below : List Frame} {frame : Frame} {text back : Text} {value : Json}

/-- What leads to the next value in a frame leaves it open. -/
theorem next {other : Frame} (standing : Standing (frame :: below) (some value) text)
    (goes : ∀ {inner front word : Text}, frame.Holds inner → Blank front → Denotes word value →
      other.Holds (inner ++ (front ++ (word ++ back)))) :
    Standing (other :: below) none (text ++ back) := by
  cases standing with
  | behind opened blank denotes =>
    obtain - | ⟨around, outside, holds⟩ := opened
    simpa only [List.append_assoc] using
      Standing.before (.frame around outside (goes holds blank denotes))

/-- What ends a frame completes a value. -/
theorem close {whole : Json} (standing : Standing (frame :: below) (some value) text)
    (ends : ∀ {inner front word : Text}, frame.Holds inner → Blank front → Denotes word value →
      Denotes (inner ++ (front ++ (word ++ back))) whole) :
    Standing below (some whole) (text ++ back) := by
  cases standing with
  | behind opened blank denotes =>
    obtain - | ⟨around, outside, holds⟩ := opened
    simpa only [List.append_assoc] using
      Standing.behind around outside (ends holds blank denotes)

end Standing

/-- A step adds what it reads to the text up to the place. -/
theorem Move.standing {before after : List Frame} {value next : Option Json} {word text : Text}
    (move : Move before value word after next) (standing : Standing before value text) :
    Standing after next (text ++ word) := by
  cases move with
  | scalar blank scalar =>
    obtain ⟨opened⟩ := standing
    exact .behind opened blank (.scalar scalar)
  | noItems blank inside =>
    obtain ⟨opened⟩ := standing
    exact .behind opened blank (.noItems inside)
  | openArray blank =>
    obtain ⟨opened⟩ := standing
    exact .before (.frame opened blank Frame.holds_array)
  | noFields blank inside =>
    obtain ⟨opened⟩ := standing
    exact .behind opened blank (.noFields inside)
  | openObject blank called =>
    obtain ⟨opened⟩ := standing
    exact .before (.frame opened blank called.holds_object)
  | nextItem after =>
    exact standing.next fun holds blank denotes => holds.nextItem blank denotes after
  | closeArray after =>
    exact standing.close fun holds blank denotes => holds.closeArray blank denotes after
  | nextField after called =>
    exact standing.next fun holds blank denotes => holds.nextField blank denotes after called
  | closeObject after =>
    exact standing.close fun holds blank denotes => holds.closeObject blank denotes after

theorem denoted_of_read? {text : Text} {value : Json} (read : read? text = some value) :
    Denoted text value := by
  have stands : ∃ front, Standing (Reader.machine.exhaust ⟨text, [], none⟩).frames
      (Reader.machine.exhaust ⟨text, [], none⟩).value front ∧
        text = front ++ (Reader.machine.exhaust ⟨text, [], none⟩).rest := by
    apply (Reader.machine.reaches_exhaust ⟨text, [], none⟩).keeps fun reader =>
      ∃ front, Standing reader.frames reader.value front ∧ text = front ++ reader.rest
    · rintro before after ⟨front, standing, split⟩ taken
      obtain ⟨word, move, here⟩ := Reader.move_of_step taken
      exact ⟨front ++ word, move.standing standing, by rw [split, here, List.append_assoc]⟩
    · exact ⟨[], .before .nothing, rfl⟩
  unfold read? at read
  split at read
  · next rest last stopped =>
    rw [stopped] at stands
    obtain ⟨front, standing, rfl⟩ := stands
    split at read
    · next ended =>
      cases read
      obtain ⟨back, after, split⟩ := blanks_append rest
      rw [ended, List.append_nil] at split
      cases standing with
      | behind opened blank denotes =>
        cases opened
        rw [split, List.nil_append, List.append_assoc]
        exact .mk blank denotes after
    · cases read
  · cases read

theorem Code.code?_eq {word : Text} {code : Nat} (written : Code word code) (rest : Text) :
    code? (word ++ rest) = some (code, rest) := by
  cases written with
  | mk digits => exact Option.map_eq_some_iff.mpr ⟨code, digits, rfl⟩

/-- No character has a number that is one of two codes. -/
theorem not_leads_or_trails (char : Char) :
    isLeading char.toNat = false ∧ isTrailing char.toNat = false := by
  have valid : char.toNat < 0xd800 ∨ 0xdfff < char.toNat ∧ char.toNat < 0x110000 := char.valid
  simp only [isLeading, isTrailing, Bool.and_eq_false_iff, decide_eq_false_iff_not]
  omega

/-- What spells a character is read as it, whatever comes after. -/
theorem Spells.char?_eq {word : Text} {char : Char} (spells : Spells word char) (rest : Text) :
    char? (word ++ rest) = some (char, rest) := by
  cases spells with
  | plain visible notQuote notEscape =>
    have none : code? (char :: rest) = none := by
      unfold code?
      split
      · next same => cases same; exact absurd rfl notEscape
      · rfl
    show char? (char :: rest) = _
    simp only [char?, none]
    unfold plain?
    split
    · next same => cases same; exact absurd rfl notEscape
    · next same => cases same; exact if_pos ⟨visible, notQuote, notEscape⟩
    · next same => cases same
  | @short letter char known =>
    have none : code? ('\\' :: letter :: rest) = none := by
      unfold code?
      split
      · next same => cases same; cases known
      · rfl
    show char? ('\\' :: letter :: rest) = _
    simp only [char?, none]
    exact Option.map_eq_some_iff.mpr ⟨char, known, rfl⟩
  | code one =>
    obtain ⟨leads, trails⟩ := not_leads_or_trails char
    simp only [char?, one.code?_eq, fromCode?, leads, trails, Char.ofNat_toNat,
      Bool.false_eq_true, ↓reduceIte]
  | codes one other leads trails together =>
    simp only [List.append_assoc, char?, one.code?_eq, fromCode?, leads, other.code?_eq, trails,
      ↓reduceIte, ← together, Char.ofNat_toNat]

theorem Body.reaches {word chars : Text} (body : Body word chars) (rest read : Text) :
    Spelling.machine.Reaches ⟨word ++ rest, read⟩ ⟨'"' :: rest, chars.reverse ++ read⟩ := by
  induction body generalizing read with
  | close => exact .refl _
  | @char word more chars char spells further ih =>
    rw [List.append_assoc, List.reverse_cons, List.append_assoc]
    exact .step (Option.map_eq_some_iff.mpr ⟨_, spells.char?_eq _, rfl⟩) (ih (char :: read))

theorem Body.body?_eq {word chars : Text} (body : Body word chars) (rest : Text) :
    body? (word ++ rest) = some (chars, rest) := by
  have stopped : Spelling.machine.step ⟨'"' :: rest, chars.reverse ++ []⟩ = none := rfl
  unfold body?
  rw [(body.reaches rest []).exhaust_eq, Machine.exhaust_of_none _ _ stopped]
  simp only [List.append_nil, List.reverse_reverse]

def NoDigit (text : Text) : Prop := ∀ char ∈ text.head?, char.isDigit = false

theorem Numeral.number?_eq {digits rest : Text} {value : Nat} (numeral : Numeral digits value)
    (after : NoDigit rest) : number? (digits ++ rest) = some (value, rest) := by
  have none : rest.takeWhile Char.isDigit = [] ∧ rest.dropWhile Char.isDigit = rest := by
    cases rest with
    | nil => exact ⟨rfl, rfl⟩
    | cons char more =>
      have different := after char rfl
      simp only [List.takeWhile_cons, List.dropWhile_cons, different, Bool.false_eq_true,
        ↓reduceIte, and_self]
  unfold number?
  rw [List.takeWhile_append_of_pos numeral.decimal, List.dropWhile_append_of_pos numeral.decimal,
    none.1, none.2, List.append_nil]
  split
  · exact absurd rfl numeral.filled
  · cases numeral.leading rfl
  · rw [numeral.value_eq]

theorem Scalar.scalar?_eq {word rest : Text} {value : Json} (scalar : Scalar word value)
    (after : NoDigit rest) : scalar? (word ++ rest) = some (value, rest) := by
  cases scalar with
  | null | true | false => rfl
  | string body => exact Option.map_eq_some_iff.mpr ⟨_, body.body?_eq rest, rfl⟩
  | number numeral =>
    have read := numeral.number?_eq after
    unfold scalar?
    split
    -- No word begins with a digit, nor does a quote.
    case h_5 => exact Option.map_eq_some_iff.mpr ⟨_, read, rfl⟩
    all_goals
      next same =>
        rw [same] at read
        cases read

/-- The blanks at the front of a text are all skipped. -/
theorem Blank.skip {front : Text} (blank : Blank front) (char : Char) (rest : Text)
    (solid : isBlank char = false) : skipBlanks (front ++ char :: rest) = char :: rest := by
  rw [skipBlanks, List.dropWhile_append_of_pos blank, List.dropWhile_cons_of_neg]
  rw [solid]
  exact Bool.false_ne_true

theorem Named.name?_eq {word name : Text} (called : Named word name) (rest : Text) :
    name? (word ++ rest) = some (name, rest) := by
  cases called with
  | mk before body after =>
    simp only [List.append_assoc, List.cons_append, List.nil_append, name?, before.skip '"' _ rfl,
      body.body?_eq, after.skip ':' _ rfl]

/-- A value begins with a character that is no blank and ends nothing. -/
theorem Denotes.exists_head {word : Text} {value : Json} (denotes : Denotes word value) :
    ∃ char more, word = char :: more ∧ isBlank char = false ∧ char ≠ ']' := by
  cases denotes with
  | scalar scalar =>
    cases scalar with
    | number numeral =>
      obtain ⟨digit, more, rfl⟩ := List.exists_cons_of_ne_nil numeral.filled
      have decimal := numeral.decimal digit List.mem_cons_self
      refine ⟨digit, more, rfl, Bool.eq_false_iff.mpr fun blank => ?_, ?_⟩
      · simp only [isBlank, Bool.or_eq_true, beq_iff_eq] at blank
        rcases blank with ((rfl | rfl) | rfl) | rfl <;> cases decimal
      · rintro rfl
        cases decimal
    | _ => exact ⟨_, _, rfl, rfl, by decide⟩
  | _ => exact ⟨_, _, rfl, rfl, by decide⟩

theorem Blank.noDigit {text : Text} (blank : Blank text) : NoDigit text := by
  intro char member
  have space := blank char (List.mem_of_mem_head? member)
  simp only [isBlank, Bool.or_eq_true, beq_iff_eq] at space
  rcases space with ((rfl | rfl) | rfl) | rfl <;> rfl

theorem Blank.noDigit_append {back : Text} (blank : Blank back) {char : Char} (rest : Text)
    (other : char.isDigit = false) : NoDigit (back ++ char :: rest) := by
  cases back with
  | nil =>
    rintro first same
    cases same
    exact other
  | cons space more =>
    rintro first same
    cases same
    exact blank.noDigit _ rfl

theorem Items.noDigit {word : Text} {items : List Json} (items' : Items word items) (rest : Text) :
    NoDigit (word ++ rest) := by
  cases items' with
  | close blank =>
    rw [List.append_assoc]
    exact blank.noDigit_append _ rfl
  | more before =>
    rw [List.append_assoc]
    exact before.noDigit_append _ rfl

theorem Fields.noDigit {word : Text} {fields : List (Text × Json)} (fields' : Fields word fields)
    (rest : Text) : NoDigit (word ++ rest) := by
  cases fields' with
  | close blank =>
    rw [List.append_assoc]
    exact blank.noDigit_append _ rfl
  | more before =>
    rw [List.append_assoc]
    exact before.noDigit_append _ rfl

namespace Reader

variable {frames : List Frame} {front back inner rest : Text}

theorem step_scalar {word : Text} {value : Json} (blank : Blank front)
    (scalar : Scalar word value) (after : NoDigit rest) :
    step ⟨front ++ (word ++ rest), frames, none⟩ = some ⟨rest, frames, some value⟩ := by
  obtain ⟨char, more, rfl, solid, -⟩ := (Denotes.scalar scalar).exists_head
  have read := scalar.scalar?_eq after
  show open? frames (skipBlanks (front ++ char :: (more ++ rest))) = _
  rw [blank.skip _ _ solid]
  unfold open?
  split
  case h_3 => exact Option.map_eq_some_iff.mpr ⟨_, read, rfl⟩
  all_goals
    next same =>
      cases same
      cases read

theorem step_noItems (blank : Blank front) (inside : Blank inner) :
    step ⟨front ++ '[' :: (inner ++ ']' :: rest), frames, none⟩ =
      some ⟨rest, frames, some (.array [])⟩ := by
  show open? frames (skipBlanks _) = _
  rw [blank.skip _ _ rfl]
  simp only [open?, inside.skip ']' _ rfl]

theorem step_noFields (blank : Blank front) (inside : Blank inner) :
    step ⟨front ++ '\x7b' :: (inner ++ '\x7d' :: rest), frames, none⟩ =
      some ⟨rest, frames, some (.object [])⟩ := by
  show open? frames (skipBlanks _) = _
  rw [blank.skip _ _ rfl]
  simp only [open?, inside.skip '\x7d' _ rfl]

theorem step_openArray {word : Text} {value : Json} (blank : Blank front) (inside : Blank inner)
    (denotes : Denotes word value) :
    step ⟨front ++ '[' :: (inner ++ (word ++ rest)), frames, none⟩ =
      some ⟨inner ++ (word ++ rest), .array [] :: frames, none⟩ := by
  obtain ⟨char, more, rfl, solid, different⟩ := denotes.exists_head
  show open? frames (skipBlanks _) = _
  rw [blank.skip _ _ rfl, List.cons_append]
  simp only [open?, inside.skip _ _ solid]
  split
  · next same =>
    cases same
    exact absurd rfl different
  · rfl

theorem step_openObject {named name : Text} (blank : Blank front) (called : Named named name) :
    step ⟨front ++ '\x7b' :: (named ++ rest), frames, none⟩ =
      some ⟨rest, .object [] name :: frames, none⟩ := by
  have read := called.name?_eq rest
  obtain ⟨more, opened⟩ : ∃ more, skipBlanks (named ++ rest) = '"' :: more := by
    obtain ⟨before, -, -⟩ := called
    rw [List.append_assoc]
    exact ⟨_, before.skip _ _ rfl⟩
  show open? frames (skipBlanks _) = _
  rw [blank.skip _ _ rfl]
  simp only [open?, opened, read, Option.map_some]
  rfl

variable {below : List Frame} {value : Json}

theorem step_nextItem {items : List Json} (blank : Blank back) :
    step ⟨back ++ ',' :: rest, .array items :: below, some value⟩ =
      some ⟨rest, .array (value :: items) :: below, none⟩ := by
  show close? value _ (skipBlanks _) = _
  rw [blank.skip _ _ rfl]
  rfl

theorem step_closeArray {items : List Json} (blank : Blank back) :
    step ⟨back ++ ']' :: rest, .array items :: below, some value⟩ =
      some ⟨rest, below, some (.array (value :: items).reverse)⟩ := by
  show close? value _ (skipBlanks _) = _
  rw [blank.skip _ _ rfl]
  rfl

theorem step_nextField {fields : List (Text × Json)} {named name next : Text}
    (blank : Blank back) (called : Named named next) :
    step ⟨back ++ ',' :: (named ++ rest), .object fields name :: below, some value⟩ =
      some ⟨rest, .object ((name, value) :: fields) next :: below, none⟩ := by
  show close? value _ (skipBlanks _) = _
  rw [blank.skip _ _ rfl]
  exact Option.map_eq_some_iff.mpr ⟨_, called.name?_eq rest, rfl⟩

theorem step_closeObject {fields : List (Text × Json)} {name : Text} (blank : Blank back) :
    step ⟨back ++ '\x7d' :: rest, .object fields name :: below, some value⟩ =
      some ⟨rest, below, some (.object ((name, value) :: fields).reverse)⟩ := by
  show close? value _ (skipBlanks _) = _
  rw [blank.skip _ _ rfl]
  rfl

end Reader

mutual

/-- A value is read, whatever stands around it, if no digit follows it. -/
theorem Denotes.reaches : ∀ {word : Text} {value : Json}, Denotes word value →
    ∀ {front rest : Text} {frames : List Frame}, Blank front → NoDigit rest →
      Reader.machine.Reaches ⟨front ++ (word ++ rest), frames, none⟩ ⟨rest, frames, some value⟩
  | _, _, .scalar scalar, _, _, _, blank, after => .single (Reader.step_scalar blank scalar after)
  | _, _, .noItems inside, _, _, _, blank, _ => by
    rw [List.cons_append, List.append_assoc]
    exact .single (Reader.step_noItems blank inside)
  | _, _, .noFields inside, _, _, _, blank, _ => by
    rw [List.cons_append, List.append_assoc]
    exact .single (Reader.step_noFields blank inside)
  | _, _, .array inside first others, _, rest, _, blank, _ => by
    simp only [List.cons_append, List.append_assoc]
    apply Machine.Reaches.step (Reader.step_openArray blank inside first)
    exact (first.reaches inside (others.noDigit rest)).trans (others.reaches _)
  | _, _, .object called inside first others, _, rest, _, blank, _ => by
    simp only [List.cons_append, List.append_assoc]
    apply Machine.Reaches.step (Reader.step_openObject blank called)
    exact (first.reaches inside (others.noDigit rest)).trans (others.reaches _)

/-- What follows an item is read up to the end of the array. -/
theorem Items.reaches : ∀ {word : Text} {items : List Json}, Items word items →
    ∀ {rest : Text} {frames : List Frame} {value : Json} (before : List Json),
      Reader.machine.Reaches ⟨word ++ rest, .array before :: frames, some value⟩
        ⟨rest, frames, some (.array (before.reverse ++ value :: items))⟩
  | _, _, .close blank, _, _, value, before => by
    rw [List.append_assoc, ← List.reverse_cons]
    exact .single (Reader.step_closeArray blank)
  | _, _, .more after blank next others, rest, _, value, before => by
    simp only [List.cons_append, List.append_assoc]
    apply Machine.Reaches.step (Reader.step_nextItem after)
    apply (next.reaches blank (others.noDigit rest)).trans
    rw [List.append_cons, ← List.reverse_cons]
    exact others.reaches (value :: before)

/-- What follows a field is read up to the end of the object. -/
theorem Fields.reaches : ∀ {word : Text} {fields : List (Text × Json)}, Fields word fields →
    ∀ {rest name : Text} {frames : List Frame} {value : Json} (before : List (Text × Json)),
      Reader.machine.Reaches ⟨word ++ rest, .object before name :: frames, some value⟩
        ⟨rest, frames, some (.object (before.reverse ++ (name, value) :: fields))⟩
  | _, _, .close blank, _, _, _, value, before => by
    rw [List.append_assoc, ← List.reverse_cons]
    exact .single (Reader.step_closeObject blank)
  | _, _, .more after called blank next others, rest, name, _, value, before => by
    simp only [List.cons_append, List.append_assoc]
    apply Machine.Reaches.step (Reader.step_nextField after called)
    apply (next.reaches blank (others.noDigit rest)).trans
    rw [List.append_cons, ← List.reverse_cons]
    exact others.reaches ((name, value) :: before)

end

theorem Denoted.read?_eq {text : Text} {value : Json} (denoted : Denoted text value) :
    read? text = some value := by
  cases denoted with
  | @mk front word back value before denotes after =>
    have reached : Reader.machine.Reaches ⟨front ++ (word ++ back), [], none⟩
      ⟨back, [], some value⟩ := denotes.reaches before after.noDigit
    have stopped : Reader.machine.step ⟨back, [], some value⟩ = none := by
      show Reader.close? value [] (skipBlanks back) = none
      unfold Reader.close?
      rfl
    have nothing : skipBlanks back = [] := by
      have skipped : skipBlanks (back ++ []) = [] := List.dropWhile_append_of_pos after
      rwa [List.append_nil] at skipped
    unfold read?
    rw [reached.exhaust_eq, Machine.exhaust_of_none _ _ stopped]
    exact if_pos nothing

/-- A text is read as the value that the grammar gives it, and only such texts are read. -/
theorem read?_eq_some_iff {text : Text} {value : Json} :
    read? text = some value ↔ Denoted text value :=
  ⟨denoted_of_read?, Denoted.read?_eq⟩

/-- Codes are read as the characters that they are, alone and in pairs. -/
example : read? "[ 10, \"\\u00e9\\ud83d\\uDE00\\/\" ]\n".toList =
    some (.array [.number 10, .string ['é', '😀', '/']]) := rfl

/-- No text has two values. -/
theorem Denoted.unique {text : Text} {value other : Json} (denoted : Denoted text value)
    (again : Denoted text other) : value = other := by
  have read := denoted.read?_eq
  rw [again.read?_eq] at read
  exact (Option.some.inj read).symm

end Template.Json
