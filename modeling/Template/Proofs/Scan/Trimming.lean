import Template.Proofs.Scan.Bytes
import Template.Proofs.Scan.Reading

set_option autoImplicit false

namespace Template

/-- A blank is no visible character of ASCII. -/
theorem Text.toNat_of_isBlank {char : Char} (blank : isBlank char = true) :
    char.toNat ≤ 32 ∨ 133 ≤ char.toNat := by
  simp only [isBlank, Bool.or_eq_true, Bool.and_eq_true, decide_eq_true_eq, beq_iff_eq] at blank
  omega

/-- Whether a token of this kind can end with a blank. -/
def Kind.mayEndBlank : Kind → Bool
  | .blank | .text | .quoted _ | .expression => true
  | _ => false

theorem Kind.stays_of_mayEndBlank {kind : Kind} (may : kind.mayEndBlank = true) :
    kind.transition = .stay := by
  cases kind <;> first | rfl | cases may

namespace Munch

/-- The last character of a text is in any part at its end. -/
theorem mem_of_concat_eq {part front back : Text} {char : Char}
    (same : part ++ [char] = front ++ back) (filled : back ≠ []) : char ∈ back := by
  have last := congrArg List.getLast? same
  rw [List.getLast?_concat, List.getLast?_append_of_ne_nil front filled] at last
  exact List.mem_of_getLast? last.symm

theorem TagNameChar.visible {char : Char} (named : TagNameChar char) :
    33 ≤ char.toNat ∧ char.toNat ≤ 126 := by
  rcases named with ⟨low, high⟩ | ⟨low, high⟩ | ⟨low, high⟩ | rfl | rfl
  · have low : 65 ≤ char.toNat := low
    have high : char.toNat ≤ 90 := high
    omega
  · have low : 97 ≤ char.toNat := low
    have high : char.toNat ≤ 122 := high
    omega
  · have low : 48 ≤ char.toNat := low
    have high : char.toNat ≤ 57 := high
    omega
  · decide
  · decide

theorem visible_of_all {text : Text}
    (all : text.all (fun char => decide (33 ≤ char.toNat ∧ char.toNat ≤ 126)) = true) :
    ∀ char ∈ text, 33 ≤ char.toNat ∧ char.toNat ≤ 126 := by
  intro char member
  exact of_decide_eq_true (List.all_eq_true.mp all char member)

/-- Whatever is a visible character as a small letter is one as it is. -/
theorem visible_of_toLower {char : Char}
    (range : 33 ≤ char.toLower.toNat ∧ char.toLower.toNat ≤ 126) :
    33 ≤ char.toNat ∧ char.toNat ≤ 126 := by
  rw [toNat_toLower] at range
  split at range <;> omega

/-- Only texts, scripts, quoted texts and blanks end with a blank. -/
theorem mayEndBlank_of_belongs {kind : Kind} {part : Text} {char : Char}
    (belongs : Language kind (part ++ [char])) (blank : Text.isBlank char = true) :
    kind.mayEndBlank = true := by
  have outside := Text.toNat_of_isBlank blank
  have visible : ∀ {front back : Text}, part ++ [char] = front ++ back → back ≠ [] →
      (∀ letter ∈ back, 33 ≤ letter.toNat ∧ letter.toNat ≤ 126) → False := by
    intro front back same filled visible
    have range := visible char (mem_of_concat_eq same filled)
    omega
  cases kind with
  | blank | text | quoted | expression => rfl
  | comment =>
    obtain ⟨body, same, ⟨front, ending, rfl, rfl⟩, -⟩ := belongs
    rw [← List.append_assoc] at same
    exact (visible same (List.cons_ne_nil _ _) (visible_of_all (by decide))).elim
  | openTag | closeTag =>
    obtain ⟨run, same, filled, inside⟩ := belongs
    exact (visible same filled fun letter member => (inside letter member).visible).elim
  | rawOpen element =>
    obtain ⟨first, more, letters, named, same, rfl⟩ := belongs
    have small : ∀ letter ∈ Text.lower letters, 33 ≤ letter.toNat ∧ letter.toNat ≤ 126 := by
      have whole : ∀ letter ∈ element.name.toList, 33 ≤ letter.toNat ∧ letter.toNat ≤ 126 :=
        visible_of_all (by cases element <;> decide)
      rw [named] at whole
      exact (List.forall_mem_cons.mp whole).2
    have filled : letters ≠ [] := by
      rintro rfl
      have long := congrArg List.length named
      cases element <;> cases long
    have split : part ++ [char] = ['<', first] ++ letters := same
    refine (visible split filled fun letter member => ?_).elim
    exact visible_of_toLower (small _ (List.mem_map_of_mem member))
  | rawRest element =>
    obtain ⟨⟨front, ending, same, like⟩, -⟩ := belongs
    have small : ∀ letter ∈ Text.lower ending, 33 ≤ letter.toNat ∧ letter.toNat ≤ 126 := by
      rw [like]
      exact visible_of_all (by cases element <;> decide)
    have filled : ending ≠ [] := by
      rintro rfl
      cases element <;> cases like
    refine (visible same filled fun letter member => ?_).elim
    exact visible_of_toLower (small _ (List.mem_map_of_mem member))
  | attributeText =>
    have inside := belongs.2 char (List.mem_append_right _ List.mem_cons_self)
    rw [inside.1] at blank
    cases blank
  | block sigil =>
    obtain ⟨run, same, filled, inside⟩ := belongs
    rw [(inside char (mem_of_concat_eq same filled)).1] at blank
    cases blank
  | quoteOpen quote | quoteClose quote =>
    have same : part ++ [char] = [] ++ [quote.char] := belongs
    exact (visible same (List.cons_ne_nil _ _) (visible_of_all (by cases quote <;> decide))).elim
  | _ =>
    have same : part ++ [char] = [] ++ _ := belongs
    exact (visible same (List.cons_ne_nil _ _) (visible_of_all (by decide))).elim

/-- Without a blank at its end a token that can end with one is still a token of its kind. -/
theorem belongs_of_concat {kind : Kind} {part : Text} {char : Char}
    (belongs : Language kind (part ++ [char])) (blank : Text.isBlank char = true)
    (filled : part ≠ []) : Language kind part := by
  have may := mayEndBlank_of_belongs belongs blank
  cases kind with
  | blank | text =>
    exact ⟨filled, fun letter member => belongs.2 letter (List.mem_append_left _ member)⟩
  | quoted quote =>
    obtain ⟨-, pieces, spelled, sound⟩ := belongs
    refine ⟨filled, ?_⟩
    rcases List.eq_nil_or_concat pieces with rfl | ⟨before, piece, rfl⟩
    · exact absurd spelled.symm (List.append_ne_nil_of_right_ne_nil _ (List.cons_ne_nil _ _))
    · rw [List.concat_eq_append] at spelled sound
      rw [List.flatten_append, List.flatten_singleton] at spelled
      obtain ⟨earlier, last⟩ := List.forall_mem_append.mp sound
      cases List.forall_mem_singleton.mp last with
      | escape =>
        have quoted := mem_of_concat_eq spelled.symm (List.cons_ne_nil _ _)
        have outside := Text.toNat_of_isBlank blank
        have range : ∀ letter ∈ ['\\', quote.char], 33 ≤ letter.toNat ∧ letter.toNat ≤ 126 :=
          visible_of_all (by cases quote <;> decide)
        have := range char quoted
        omega
      | plain other =>
        obtain ⟨same, -⟩ := List.append_inj' spelled rfl
        exact ⟨before, same, earlier⟩
  | expression =>
    obtain ⟨first, more, rfl⟩ := List.exists_cons_of_ne_nil filled
    refine ⟨filled, belongs.opens, ?_⟩
    intro front back split
    apply belongs.answered front (back ++ [char])
    rw [split, List.append_assoc, List.cons_append]
  | _ => cases may

theorem eq_text_of_content {kind : Kind} (candidate : kind ∈ Mode.content.candidates)
    (may : kind.mayEndBlank = true) : kind = .text := by
  cases kind with
  | text => rfl
  | blank | quoted | expression => simp [Mode.candidates] at candidate
  | _ => cases may

/-- In content a text is taken where it is all that is left. -/
theorem takes_text {image : Text} (belongs : Language .text image) :
    Takes Mode.content.candidates image .text image := by
  refine ⟨belongs, List.prefix_refl _, ?_, [], _, rfl, List.forall_mem_nil _⟩
  intro other _ start starts _
  exact starts.length_le

/-- A blank at the end does not change what is taken before it, unless what is taken reaches up to it
and a token that ends with a blank could take as much. -/
theorem Takes.concat {kinds : List Kind} {image rest : Text} {kind : Kind} {char : Char}
    (takes : Takes kinds (image ++ rest) kind image) (blank : Text.isBlank char = true)
    (apart : rest = [] → ∀ other ∈ kinds, other.mayEndBlank = true → ¬Language other image) :
    Takes kinds (image ++ (rest ++ [char])) kind image := by
  have filled : image ≠ [] := by
    intro empty
    exact (measures kind).filled (empty ▸ takes.belongs)
  -- A start that reaches the blank would already be one without it.
  have within : ∀ other ∈ kinds, ∀ start, start <+: image ++ (rest ++ [char]) →
      Language other start → start <+: image ++ rest := by
    intro other member start starts belongs
    rw [← List.append_assoc] at starts
    rcases List.prefix_concat_iff.mp starts with rfl | inside
    · have shorter := belongs_of_concat belongs blank (List.append_ne_nil_of_left_ne_nil filled _)
      have bounded := takes.longest other member _ (List.prefix_refl _) shorter
      rw [List.length_append] at bounded
      have none : rest = [] := List.length_eq_zero_iff.mp (by omega)
      subst none
      rw [List.append_nil] at shorter
      exact absurd shorter (apart rfl other member (mayEndBlank_of_belongs belongs blank))
    · exact inside
  obtain ⟨before, after, split, earlier⟩ := takes.earliest
  refine ⟨takes.belongs, List.prefix_append _ _, ?_, before, after, split, ?_⟩
  · intro other member start starts belongs
    exact takes.longest other member start (within other member start starts belongs) belongs
  · intro other member start starts belongs
    have candidate : other ∈ kinds := by
      rw [split]
      exact List.mem_append_left _ member
    exact earlier other member start (within other candidate start starts belongs) belongs

/-- But for blanks, each kind that can end with a blank comes in one mode only. -/
theorem top_eq_of_mayEndBlank {mode : Mode} {kind : Kind} (candidate : kind ∈ mode.candidates)
    (other : kind ≠ .blank) (may : kind.mayEndBlank = true) :
    kind = .text ∧ mode = .content ∨ (∃ quote, kind = .quoted quote ∧ mode = .quoted quote) ∨
      kind = .expression ∧ mode = .expression := by
  cases kind with
  | blank => exact absurd rfl other
  | text => cases mode <;> simp [Mode.candidates, Mode.attributeKinds] at candidate ⊢
  | quoted quote =>
    cases mode <;> simp [Mode.candidates, Mode.attributeKinds] at candidate ⊢
    exact candidate.symm
  | expression => cases mode <;> simp [Mode.candidates, Mode.attributeKinds] at candidate ⊢
  | _ => cases may

/-- No token that leads back to content, other than a text, could also be one that can end with a
blank. -/
theorem not_belongs_of_returns {modes : ModeStack} {kind other : Kind} {image : Text}
    (candidate : kind ∈ modes.top.candidates) (rival : other ∈ modes.top.candidates)
    (returns : (modes.apply kind.transition).top = .content) (noText : kind ≠ .text)
    (belongs : Language kind image) (may : other.mayEndBlank = true) : ¬Language other image := by
  intro also
  obtain ⟨mode, below⟩ := modes
  by_cases blank : other = .blank
  · subst blank
    obtain ⟨filled, inside⟩ := also
    rcases List.eq_nil_or_concat image with rfl | ⟨front, char, rfl⟩
    · exact filled rfl
    · rw [List.concat_eq_append] at belongs inside
      have final := inside char (List.mem_append_right _ List.mem_cons_self)
      have stays := Kind.stays_of_mayEndBlank (mayEndBlank_of_belongs belongs final)
      rw [stays] at returns
      have top : mode = .content := returns
      subst top
      simp [Mode.candidates] at rival
  · rcases top_eq_of_mayEndBlank rival blank may with ⟨rfl, top⟩ | ⟨quote, rfl, top⟩ | ⟨rfl, top⟩ <;>
      (have top : mode = _ := top; subst top)
    · simp only [Mode.candidates, List.mem_cons, List.not_mem_nil, or_false] at candidate
      rcases candidate with rfl | rfl | rfl | rfl | rfl | rfl | rfl | rfl
      · exact noText rfl
      · cases returns
      · obtain ⟨body, rfl, -⟩ := belongs
        exact (also.2 '<' List.mem_cons_self).1 rfl
      all_goals cases returns
    · simp only [Mode.candidates, List.mem_cons, List.not_mem_nil, or_false] at candidate
      rcases candidate with rfl | rfl | rfl
      · cases returns
      · cases returns
      · obtain ⟨filled, pieces, spelled, sound⟩ := also
        have closing : image = [quote.char] := belongs
        have unescaped : quote.char ≠ '\\' := by cases quote <;> decide
        have ahead : pieces.flatten ++ [] = quote.char :: [] := by
          rw [List.append_nil, spelled, closing]
        have none := flatten_eq_nil_of_quote unescaped sound ahead
        exact filled (spelled.symm.trans none)
    · simp only [Mode.candidates, List.mem_cons, List.not_mem_nil, or_false] at candidate
      rcases candidate with rfl | rfl | rfl | rfl | rfl | rfl | rfl
      all_goals try cases returns
      have closing : image = ['\x7d'] := belongs
      exact also.answered [] [] closing .nil

end Munch

/-- No token, or one text. -/
def Token.AtMostText (tokens : List Token) : Prop :=
  tokens = [] ∨ ∃ token, tokens = [token] ∧ token.kind = .text

namespace Reads

variable {modes : ModeStack} {point : Point}

theorem text_of_content {image : Text} (content : modes.top = .content)
    (belongs : Munch.Language .text image) :
    Reads modes point image [.place .text image point] := by
  have takes : Munch.Takes modes.top.candidates (image ++ []) .text image := by
    rw [content, List.append_nil]
    exact Munch.takes_text belongs
  have reads := Reads.cons takes (.nil (modes.apply Kind.text.transition) (point.walk image))
  rwa [List.append_nil] at reads

theorem tokens_eq_nil {text : Text} {tokens : List Token} (reads : Reads modes point text tokens)
    (empty : text = []) : tokens = [] := by
  cases reads with
  | nil => rfl
  | @cons _ _ kind image rest _ takes =>
    have none : image = [] := (List.append_eq_nil_iff.mp empty).1
    exact absurd (none ▸ takes.belongs) (Munch.measures kind).filled

/-- A blank is a text where content is read. -/
theorem belongs_text_blank {char : Char} (blank : Text.isBlank char = true) {part : Text}
    (inside : ∀ letter ∈ part, letter ≠ '<' ∧ letter ≠ '\x7b') :
    Munch.Language .text (part ++ [char]) := by
  refine ⟨List.append_ne_nil_of_right_ne_nil _ (List.cons_ne_nil _ _), ?_⟩
  refine List.forall_mem_append.mpr ⟨inside, List.forall_mem_singleton.mpr ⟨?_, ?_⟩⟩
  · rintro rfl
    cases blank
  · rintro rfl
    cases blank

/-- What is read up to content is read with a blank after it. The tokens are the same but for a text
at the end. -/
theorem concat {text : Text} {tokens : List Token} (reads : Reads modes point text tokens)
    (ended : (modes.through (tokens.map Token.kind)).top = .content) {char : Char}
    (blank : Text.isBlank char = true) :
    ∃ front tail more, tokens = front ++ tail ∧ Token.AtMostText tail ∧ Token.AtMostText more ∧
      Reads modes point (text ++ [char]) (front ++ more) := by
  induction reads with
  | nil modes point =>
    have belongs := belongs_text_blank blank (List.forall_mem_nil _)
    exact ⟨[], [], _, rfl, .inl rfl, .inr ⟨_, rfl, rfl⟩, text_of_content ended belongs⟩
  | @cons modes point kind image rest tokens takes further ih =>
    by_cases last : rest = [] ∧ kind = .text
    · -- The blank makes the last text longer.
      obtain ⟨rfl, rfl⟩ := last
      obtain rfl := further.tokens_eq_nil rfl
      have belongs := belongs_text_blank blank takes.belongs.2
      refine ⟨[], _, [.place .text (image ++ [char]) point], rfl, .inr ⟨_, rfl, rfl⟩,
        .inr ⟨_, rfl, rfl⟩, ?_⟩
      rw [List.append_nil]
      exact text_of_content ended belongs
    · obtain ⟨front, tail, more, split, alike, other, reads⟩ := ih ended
      have taken : Munch.Takes modes.top.candidates (image ++ (rest ++ [char])) kind image := by
        apply takes.concat blank
        intro none rival member may
        subst none
        obtain rfl := further.tokens_eq_nil rfl
        exact Munch.not_belongs_of_returns takes.candidate member ended
          (fun same => last ⟨rfl, same⟩) takes.belongs may
      refine ⟨.place kind image point :: front, tail, more, ?_, alike, other, ?_⟩
      · rw [split, List.cons_append]
      · rw [List.append_assoc]
        exact .cons taken reads

/-- What is read up to content with a blank at the end is read without it. -/
theorem of_concat {whole : Text} {tokens : List Token} (reads : Reads modes point whole tokens)
    (ended : (modes.through (tokens.map Token.kind)).top = .content) {text : Text} {char : Char}
    (split : whole = text ++ [char]) (blank : Text.isBlank char = true) :
    ∃ front tail more, tokens = front ++ tail ∧ Token.AtMostText tail ∧ Token.AtMostText more ∧
      Reads modes point text (front ++ more) := by
  induction reads generalizing text with
  | nil => exact absurd split.symm (List.append_ne_nil_of_right_ne_nil _ (List.cons_ne_nil _ _))
  | @cons modes point kind image rest tokens takes further ih =>
    rcases List.eq_nil_or_concat rest with rfl | ⟨less, final, rfl⟩
    · -- The last token ends with the blank, so it is a text.
      obtain rfl := further.tokens_eq_nil rfl
      rw [List.append_nil] at split
      subst split
      have belongs := takes.belongs
      have may := Munch.mayEndBlank_of_belongs belongs blank
      have content : modes.top = .content := by
        have top : (modes.apply kind.transition).top = .content := ended
        rwa [Kind.stays_of_mayEndBlank may] at top
      have candidate := takes.candidate
      rw [content] at candidate
      obtain rfl := Munch.eq_text_of_content candidate may
      by_cases filled : text = []
      · subst filled
        exact ⟨[], _, [], rfl, .inr ⟨_, rfl, rfl⟩, .inl rfl, .nil modes point⟩
      · have shorter := Munch.belongs_of_concat belongs blank filled
        exact ⟨[], _, _, rfl, .inr ⟨_, rfl, rfl⟩, .inr ⟨_, rfl, rfl⟩, text_of_content content shorter⟩
    · rw [List.concat_eq_append] at split ih takes
      rw [← List.append_assoc] at split
      obtain ⟨rfl, last⟩ := List.append_inj' split rfl
      obtain rfl : final = char := (List.cons.inj last).1
      obtain ⟨front, tail, more, same, alike, other, reads⟩ := ih ended rfl
      refine ⟨.place kind image point :: front, tail, more, ?_, alike, other, ?_⟩
      · rw [same, List.cons_append]
      · exact .cons takes.truncate reads

end Reads

end Template
