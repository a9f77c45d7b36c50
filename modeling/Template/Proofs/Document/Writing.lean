import Template.Proofs.Document.Locality
import Template.Proofs.Scan.Trimming

set_option autoImplicit false

namespace Template

/-- Tokens that are read one right after another from a part of a source. -/
def Token.Written (source : Text) (tokens : List Token) : Prop :=
  ∃ modes front part back, source = front ++ part ++ back ∧
    Reads modes (Point.origin.walk front) part tokens

theorem Reads.images_eq {modes : ModeStack} {point : Point} {text : Text} {tokens : List Token}
    (reads : Reads modes point text tokens) : Token.images tokens = text := by
  induction reads with
  | nil => rfl
  | @cons modes point kind image rest tokens takes _ ih => exact congrArg (image ++ ·) ih

/-- A span that starts with a part of a source and goes on to a later place. -/
theorem Span.slice?_from {front part back : Text} {span : Span}
    (start : span.start = Point.origin.walk front)
    (stop : span.stop.Walked (front ++ part ++ back))
    (later : (Point.origin.walk (front ++ part)).offset ≤ span.stop.offset) :
    ∃ rest, rest <+: back ∧ span.slice? (front ++ part ++ back) = some (part ++ rest) := by
  obtain ⟨first, last, split, stop_eq⟩ := stop
  rw [stop_eq, Point.offset_walk, Point.offset_walk] at later
  obtain ⟨rest, back_eq⟩ := Scanner.exists_between split (Nat.le_of_add_le_add_left later)
  have first_eq : first = front ++ (part ++ rest) := by
    rw [back_eq, ← List.append_assoc] at split
    rw [← List.append_assoc]
    exact (List.append_cancel_right split).symm
  refine ⟨rest, ⟨last, back_eq.symm⟩, ?_⟩
  obtain ⟨begins, ends⟩ := span
  cases start
  cases stop_eq
  have source_eq : front ++ part ++ back = front ++ (part ++ rest) ++ last := by
    simp only [back_eq, List.append_assoc]
  rw [first_eq, source_eq]
  exact Span.slice?_walk front (part ++ rest) last

namespace Token.Written

variable {source : Text} {tokens : List Token}

/-- Some of the tokens that stand side by side. -/
theorem within (written : Written source tokens) {run : List Token} (inside : run <:+: tokens) :
    Written source run := by
  obtain ⟨modes, front, part, back, rfl, reads⟩ := written
  obtain ⟨before, after, rfl⟩ := inside
  obtain ⟨earlier, last, rfl, reads, -⟩ := reads.split
  obtain ⟨first, middle, rfl, -, here⟩ := reads.split
  rw [← Point.walk_append] at here
  refine ⟨_, front ++ first, middle, last ++ back, ?_, here⟩
  simp only [List.append_assoc]

theorem append {others : List Token} (written : Written source (tokens ++ others)) :
    Written source tokens ∧ Written source others := by
  constructor
  · exact written.within (List.prefix_append _ _).isInfix
  · exact written.within (List.suffix_append _ _).isInfix

theorem belongs (written : Written source tokens) :
    ∀ token ∈ tokens, Munch.Language token.kind token.image := by
  obtain ⟨modes, front, part, back, -, reads⟩ := written
  exact reads.belongs

/-- A span that covers the tokens covers what they were read from. -/
theorem exists_part (written : Written source tokens) {span : Span} (covers : span.Covers tokens) :
    ∃ front back, source = front ++ images tokens ++ back ∧
      span = ⟨Point.origin.walk front, Point.origin.walk (front ++ images tokens)⟩ := by
  obtain ⟨modes, front, part, back, source_eq, reads⟩ := written
  refine ⟨front, back, ?_, ?_⟩
  · rw [reads.images_eq]
    exact source_eq
  · rw [covers.eq_of_tile reads.tile, reads.images_eq, Point.walk_append]

theorem slice (written : Written source tokens) {span : Span} (covers : span.Covers tokens) :
    span.slice? source = some (images tokens) := by
  obtain ⟨front, back, rfl, rfl⟩ := written.exists_part covers
  exact Span.slice?_walk front (images tokens) back

/-- One of the tokens by itself. -/
theorem alone (written : Written source tokens) {token : Token} (member : token ∈ tokens) :
    Written source [token] := by
  obtain ⟨before, after, rfl⟩ := List.append_of_mem member
  exact written.append.2.within ⟨[], after, rfl⟩

theorem walked (written : Written source tokens) {token : Token} (member : token ∈ tokens) :
    token.span.Ends (Point.Walked source) := by
  obtain ⟨front, back, source_eq, span_eq⟩ :=
    (written.alone member).exists_part (Fragment.ofToken_covers token)
  have span_eq : token.span = _ := span_eq
  rw [span_eq]
  refine ⟨⟨front, images [token] ++ back, ?_, rfl⟩, ⟨_, back, source_eq, rfl⟩⟩
  rw [source_eq, List.append_assoc]

end Token.Written

namespace Munch

theorem TagNameChar.of_toLower {char : Char} (small : TagNameChar char.toLower) :
    TagNameChar char := by
  unfold Char.toLower at small
  split at small
  · next upper => exact .inl upper
  · exact small

/-- The opening of a raw element is that of a tag. -/
theorem openTag_of_rawOpen {known : RawElement} {image : Text}
    (belongs : Language (.rawOpen known) image) : Language .openTag image := by
  obtain ⟨first, more, letters, name_eq, rfl, like⟩ := belongs
  refine ⟨first :: letters, rfl, List.cons_ne_nil _ _, ?_⟩
  have named : ∀ char ∈ known.name.toList, TagNameChar char := by
    intro char member
    have all : known.name.toList.all isTagNameChar = true := by cases known <;> decide
    exact (isTagNameChar_iff char).mp (List.all_eq_true.mp all char member)
  rw [name_eq] at named
  obtain ⟨here, others⟩ := List.forall_mem_cons.mp named
  refine List.forall_mem_cons.mpr ⟨here, ?_⟩
  intro char member
  apply TagNameChar.of_toLower
  apply others
  rw [← like]
  exact List.mem_map_of_mem member

/-- A tag name goes on for as long as it can. -/
theorem Takes.name_ends {mode : Mode} {kind : Kind} {image rest : Text}
    (takes : Takes mode.candidates (image ++ rest) kind image)
    (opens : Language .openTag image) (known : kind = .openTag ∨ ∃ element, kind = .rawOpen element) :
    ∀ char ∈ rest.head?, ¬TagNameChar char := by
  intro char first named
  obtain ⟨before, after, split, -⟩ := takes.earliest
  have member : kind ∈ mode.candidates := by
    rw [split]
    exact List.mem_append_right _ List.mem_cons_self
  have candidate : .openTag ∈ mode.candidates := by
    rcases known with rfl | ⟨element, rfl⟩
    · exact member
    · cases mode with
      | content => decide
      | _ => simp [Mode.candidates, Mode.attributeKinds] at member
  -- With one more character the opening would be longer.
  obtain ⟨run, image_eq, filled, inside⟩ := opens
  have longer : Language .openTag (image ++ [char]) := by
    refine ⟨run ++ [char], ?_, List.append_ne_nil_of_left_ne_nil filled _, ?_⟩
    · rw [image_eq, List.append_assoc]
    · exact List.forall_mem_append.mpr ⟨inside, List.forall_mem_singleton.mpr named⟩
  obtain ⟨more, rfl⟩ : ∃ more, rest = char :: more := List.head?_eq_some_iff.mp first
  have starts : image ++ [char] <+: image ++ char :: more := ⟨more, by simp⟩
  have bound := takes.longest .openTag candidate _ starts longer
  rw [List.length_append] at bound
  exact absurd bound (Nat.not_succ_le_self _)

theorem TagNameChar.not_blank {char : Char} (named : TagNameChar char) :
    ¬Text.isBlank char = true := by
  intro blank
  have range := named.visible
  have outside := Text.toNat_of_isBlank blank
  omega

end Munch

namespace Token

def OpensTag (token : Token) : Prop :=
  token.kind = .openTag ∨ ∃ element, token.kind = .rawOpen element

/-- Tokens of a source in which nothing was passed over. -/
structure Legible (source : Text) (tokens : List Token) : Prop where
  written : Written source tokens
  between : ∃ high, Between 0 high tokens
  /-- What opens a tag goes as far as its name. -/
  names : ∀ token ∈ tokens, token.OpensTag →
    ∃ front back, source = front ++ token.image ++ back ∧
      token.span = ⟨Point.origin.walk front, Point.origin.walk (front ++ token.image)⟩ ∧
      ∀ char ∈ back.head?, ¬Munch.TagNameChar char

theorem OpensTag.language {token : Token} (opens : token.OpensTag)
    (belongs : Munch.Language token.kind token.image) : Munch.Language .openTag token.image := by
  rcases opens with kind | ⟨element, kind⟩
  · rwa [kind] at belongs
  · rw [kind] at belongs
    exact Munch.openTag_of_rawOpen belongs

/-- If a scan passes nothing over, its tokens are written in the source, whatever blanks were left
out at the end. -/
theorem legible_scan {text blanks : Text} (clean : (scan text).faults = [])
    (blank : ∀ char ∈ blanks, Text.isBlank char = true) :
    Legible (text ++ blanks) (scan text).tokens := by
  obtain ⟨reads, -⟩ := scan_eq_iff.mp (congrArg (Scanned.mk (scan text).tokens) clean)
  refine ⟨⟨_, [], text, blanks, rfl, reads⟩, ⟨_, between_scan text⟩, ?_⟩
  intro token member opens
  have language := opens.language (reads.belongs token member)
  obtain ⟨before, after, split⟩ := List.append_of_mem member
  rw [split] at reads
  obtain ⟨front, second, text_eq, -, here⟩ := reads.split
  cases here with
  | @cons modes point kind image rest tokens takes further =>
    refine ⟨front, rest ++ blanks, ?_, ?_, ?_⟩
    · rw [text_eq]
      simp only [place, List.append_assoc]
    · rw [span, after_place, Point.walk_append]
      rfl
    · cases rest with
      | nil =>
        intro char first named
        exact named.not_blank (blank char (List.mem_of_head? first))
      | cons char rest => exact takes.name_ends language opens

/-- A span that covers some tokens ends at a place of the source, after each of them. -/
theorem Legible.reaches {source : Text} {tokens front rest : List Token} {first : Token}
    {span : Span} (legible : Legible source tokens)
    (sub : (front ++ first :: rest).Sublist tokens) (covers : span.Covers (front ++ first :: rest)) :
    span.stop.Walked source ∧ first.after.offset ≤ span.stop.offset := by
  have walked : ∀ token ∈ first :: rest, token.after.Walked source := by
    intro token member
    exact (legible.written.walked (sub.subset (List.mem_append_right _ member))).2
  obtain ⟨high, between⟩ := legible.between
  obtain ⟨middle, -, -, -, further⟩ := between_append.mp (between.sublist sub)
  have stop := covers.stop
  rw [List.getLast?_append_cons, Span.stop_cons] at stop
  have stop := Option.some.inj stop
  cases last : rest.getLast? with
  | none =>
    rw [last] at stop
    rw [← stop]
    exact ⟨walked first List.mem_cons_self, Nat.le_refl _⟩
  | some token =>
    have member := List.mem_of_getLast? last
    have inside := Span.Between.mem further (List.mem_map_of_mem member)
    rw [last] at stop
    rw [← stop]
    exact ⟨walked token (List.mem_cons_of_mem _ member), inside.1.trans inside.2.1⟩

end Token

end Template
