import Template.Proofs.Scan.Scripts

set_option autoImplicit false

namespace Template.Munch

theorem runLength_le (allowed : Char → Bool) (text : Text) :
    runLength allowed text ≤ text.length := (List.takeWhile_prefix allowed).length_le

theorem wordLength_le (word text : Text) : wordLength word text ≤ text.length := by
  unfold wordLength
  split
  · next starts => exact (List.isPrefixOf_iff_prefix.mp starts).length_le
  · exact Nat.zero_le _

theorem headedLength_le (word : Text) (allowed : Char → Bool) (text : Text) :
    headedLength word allowed text ≤ text.length := by
  simp only [headedLength]
  split
  · next starts =>
    have word_le := (List.isPrefixOf_iff_prefix.mp (Bool.and_eq_true_iff.mp starts).1).length_le
    have run_le := runLength_le allowed (text.drop word.length)
    rw [List.length_drop] at run_le
    omega
  · exact Nat.zero_le _

theorem le_of_startsLike {word text : Text} (starts : startsLike word text = true) :
    word.length ≤ text.length := by
  have lengths := congrArg List.length (beq_iff_eq.mp starts)
  rw [Text.lower, List.length_map, List.length_take] at lengths
  omega

theorem throughLike_le (word text : Text) : throughLike word text ≤ text.length := by
  induction text with
  | nil => exact Nat.le_refl _
  | cons char rest ih =>
    rw [throughLike]
    split
    · next starts => exact le_of_startsLike starts
    · cases found : throughLike word rest with
      | zero => exact Nat.zero_le _
      | succ count =>
        rw [found] at ih
        exact Nat.succ_le_succ ih

theorem rawOpenLength_le (name text : Text) : rawOpenLength name text ≤ text.length := by
  unfold rawOpenLength
  split
  · next opens =>
    rw [Bool.and_eq_true] at opens
    have word_le := le_of_startsLike opens.2
    cases text with
    | nil => cases opens.1
    | cons char rest => exact Nat.succ_le_succ word_le
  · exact Nat.zero_le _

theorem commentEndLength_le (text : Text) : commentEndLength text ≤ text.length := by
  induction text with
  | nil => exact Nat.le_refl _
  | cons char rest ih =>
    rw [commentEndLength]
    split
    · next ends => exact (List.isPrefixOf_iff_prefix.mp ends).length_le
    · cases found : commentEndLength rest with
      | zero => exact Nat.zero_le _
      | succ count =>
        rw [found] at ih
        exact Nat.succ_le_succ ih

/-- The body of a comment follows the four characters that open it. -/
theorem eq_of_commentBody? {text body : Text} (opened : commentBody? text = some body) :
    text = ['<', '!', '-', '-'] ++ body := by
  unfold commentBody? at opened
  split at opened
  · cases opened
    rfl
  · cases opened

theorem commentLength_le (text : Text) : commentLength text ≤ text.length := by
  unfold commentLength
  split
  · exact Nat.zero_le _
  · next body opened =>
    have body_le := commentEndLength_le body
    rw [eq_of_commentBody? opened, List.length_append]
    split
    · exact Nat.zero_le _
    · next count found =>
      rw [found] at body_le
      simp only [List.length_cons, List.length_nil]
      omega

theorem quotedLength_le (quote : Char) (text : Text) : quotedLength quote text ≤ text.length := by
  fun_induction quotedLength quote text with
  | case1 => exact Nat.le_refl _
  | case2 => exact Nat.zero_le _
  | case3 => exact Nat.le_refl _
  | case4 char next rest _ ih => exact Nat.add_le_add_right ih 2
  | case5 => exact Nat.zero_le _
  | case6 char next rest _ _ ih => exact Nat.add_le_add_right ih 1

/-- No token reaches past the end of its text. -/
theorem length_le (kind : Kind) (text : Text) : length kind text ≤ text.length := by
  cases kind with
  | blank => exact runLength_le _ _
  | text => exact runLength_le _ _
  | attributeText => exact runLength_le _ _
  | comment => exact commentLength_le _
  | openTag => exact headedLength_le _ _ _
  | closeTag => exact headedLength_le _ _ _
  | block sigil => exact headedLength_le _ _ _
  | rawOpen element => exact rawOpenLength_le _ _
  | rawRest element => exact throughLike_le _ _
  | quoted quote => exact quotedLength_le _ _
  | expression => exact Embedded.length_le _
  | _ => exact wordLength_le _ _

theorem byteLength_eq (kind : Kind) (text : Text) :
    byteLength kind text = Text.size (text.take (length kind text)) := by
  cases kind with
  | rawOpen element =>
    have ascii : ∀ char ∈ element.name.toList, Text.IsAscii char :=
      Text.isAscii_of_all (by cases element <;> decide)
    exact rawOpenBytes_eq ascii text
  | rawRest element =>
    obtain ⟨first, word, shape, ascii⟩ : ∃ first word, element.endTag.toList = first :: word ∧
        ∀ char ∈ first :: word, Text.IsAscii char := by
      cases element <;> exact ⟨_, _, rfl, Text.isAscii_of_all (by decide)⟩
    simp only [byteLength, length, shape]
    exact throughLikeBytes_eq ascii text
  | expression =>
    have found := Embedded.endIn?_append [] text
    rw [List.nil_append, Text.size_nil, Nat.zero_add] at found
    simp only [byteLength, length, found]
    split
    · next empty => rw [empty]; rfl
    · rfl
  | _ => rfl

end Template.Munch
