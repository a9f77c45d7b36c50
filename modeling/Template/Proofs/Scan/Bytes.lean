import Template.Munch.Bytes

set_option autoImplicit false

namespace Template

namespace Text

/-- Whether a character is an ASCII character, which is one byte. -/
def IsAscii (char : Char) : Prop := char.toNat < 128

instance (char : Char) : Decidable (IsAscii char) := inferInstanceAs (Decidable (_ < _))

theorem isAscii_of_all {text : Text} (all : (text.all fun char => IsAscii char) = true) :
    ∀ char ∈ text, IsAscii char :=
  fun char member => of_decide_eq_true (List.all_eq_true.mp all char member)

@[simp] theorem bytes_nil : bytes [] = [] := rfl

theorem bytes_cons (char : Char) (rest : Text) :
    bytes (char :: rest) = String.utf8EncodeChar char ++ bytes rest := rfl

theorem bytes_append (front back : Text) : bytes (front ++ back) = bytes front ++ bytes back :=
  List.flatMap_append

theorem length_bytes (text : Text) : (bytes text).length = size text := by
  induction text with
  | nil => rfl
  | cons char rest ih =>
    rw [bytes_cons, List.length_append, ih, size_cons, String.length_utf8EncodeChar]

theorem utf8EncodeChar_of_ascii {char : Char} (ascii : IsAscii char) :
    String.utf8EncodeChar char = [Embedded.byte char] := by
  have small : char.val.toNat ≤ 127 := Nat.le_of_lt_succ ascii
  simp only [String.utf8EncodeChar, small, ↓reduceIte]
  rfl

theorem utf8Size_of_ascii {char : Char} (ascii : IsAscii char) : char.utf8Size = 1 := by
  rw [← String.length_utf8EncodeChar, utf8EncodeChar_of_ascii ascii]
  rfl

/-- A character that is not ASCII has no byte of an ASCII character. -/
theorem le_of_mem_utf8EncodeChar {char : Char} (other : ¬ IsAscii char) (code : UInt8)
    (member : code ∈ String.utf8EncodeChar char) : 128 ≤ code.toNat := by
  have large : ¬ char.val.toNat ≤ 127 := fun small => other (Nat.lt_succ_of_le small)
  simp only [String.utf8EncodeChar, large, ↓reduceIte] at member
  split at member
  · simp only [List.mem_cons, List.not_mem_nil, or_false] at member
    rcases member with rfl | rfl <;> simp only [UInt8.toNat_ofNat'] <;> omega
  · split at member
    · simp only [List.mem_cons, List.not_mem_nil, or_false] at member
      rcases member with rfl | rfl | rfl <;> simp only [UInt8.toNat_ofNat'] <;> omega
    · simp only [List.mem_cons, List.not_mem_nil, or_false] at member
      rcases member with rfl | rfl | rfl | rfl <;> simp only [UInt8.toNat_ofNat'] <;> omega

theorem utf8EncodeChar_of_not_ascii {char : Char} (other : ¬ IsAscii char) :
    ∃ code more, String.utf8EncodeChar char = code :: more ∧ 128 ≤ code.toNat := by
  cases codes : String.utf8EncodeChar char with
  | nil => exact absurd codes String.utf8EncodeChar_ne_nil
  | cons code more =>
    exact ⟨code, more, rfl, le_of_mem_utf8EncodeChar other code (codes ▸ List.mem_cons_self)⟩

theorem toNat_byte {char : Char} (ascii : IsAscii char) :
    (Embedded.byte char).toNat = char.toNat := by
  change char.toNat % 256 = char.toNat
  exact Nat.mod_eq_of_lt (Nat.lt_trans ascii (by decide))

theorem byte_inj {first second : Char} (firstAscii : IsAscii first) (secondAscii : IsAscii second)
    (same : Embedded.byte first = Embedded.byte second) : first = second := by
  have numbers := congrArg UInt8.toNat same
  rw [toNat_byte firstAscii, toNat_byte secondAscii] at numbers
  exact Char.toNat_inj.mp numbers

/-- Whether a character is a given ASCII character can be told from its first byte. -/
theorem exists_head_byte (char : Char) :
    ∃ code more, String.utf8EncodeChar char = code :: more ∧
      ∀ known, IsAscii known → (code == Embedded.byte known) = (char == known) := by
  by_cases ascii : IsAscii char
  · refine ⟨Embedded.byte char, [], utf8EncodeChar_of_ascii ascii, fun known knownAscii => ?_⟩
    rw [Bool.eq_iff_iff, beq_iff_eq, beq_iff_eq]
    exact ⟨byte_inj ascii knownAscii, congrArg Embedded.byte⟩
  · obtain ⟨code, more, codes, large⟩ := utf8EncodeChar_of_not_ascii ascii
    refine ⟨code, more, codes, fun known knownAscii => ?_⟩
    have byteDiffers : code ≠ Embedded.byte known := by
      rintro rfl
      rw [toNat_byte knownAscii] at large
      exact Nat.not_lt.mpr large knownAscii
    have charDiffers : char ≠ known := by
      rintro rfl
      exact ascii knownAscii
    rw [beq_false_of_ne byteDiffers, beq_false_of_ne charDiffers]

end Text

namespace Munch

open Embedded (byte)
open Text (IsAscii)

theorem toNat_toLower (char : Char) : char.toLower.toNat =
    if 65 ≤ char.toNat ∧ char.toNat ≤ 90 then char.toNat + 32 else char.toNat := by
  unfold Char.toLower
  split
  · next capital =>
    have range : 65 ≤ char.toNat ∧ char.toNat ≤ 90 := capital
    have bound : char.val.toNat ≤ 90 := range.2
    rw [if_pos range]
    change (char.val + 32).toNat = char.val.toNat + 32
    rw [UInt32.toNat_add]
    change (char.val.toNat + 32) % 2 ^ 32 = _
    omega
  · next other =>
    have outside : ¬ (65 ≤ char.toNat ∧ char.toNat ≤ 90) := other
    rw [if_neg outside]

theorem isAscii_toLower_iff (char : Char) : IsAscii char.toLower ↔ IsAscii char := by
  unfold IsAscii
  rw [toNat_toLower]
  split <;> omega

theorem toNat_lowerByte (code : UInt8) : (lowerByte code).toNat =
    if 65 ≤ code.toNat ∧ code.toNat ≤ 90 then code.toNat + 32 else code.toNat := by
  unfold lowerByte
  simp only [UInt8.le_iff_toNat_le]
  change (if 65 ≤ code.toNat ∧ code.toNat ≤ 90 then code + 32 else code).toNat = _
  split
  · rw [UInt8.toNat_add]
    change (code.toNat + 32) % 2 ^ 8 = _
    omega
  · rfl

theorem lowerByte_byte {char : Char} (ascii : IsAscii char) :
    lowerByte (byte char) = byte char.toLower := by
  apply UInt8.toNat_inj.mp
  rw [toNat_lowerByte, Text.toNat_byte ascii,
    Text.toNat_byte ((isAscii_toLower_iff char).mpr ascii), toNat_toLower]

/-- Taking capital letters as small does not make a byte of a longer character an ASCII one. -/
theorem lowerByte_ne_byte {code : UInt8} {char : Char} (large : 128 ≤ code.toNat)
    (ascii : IsAscii char) : lowerByte code ≠ byte char := by
  intro same
  have numbers := congrArg UInt8.toNat same
  rw [toNat_lowerByte, Text.toNat_byte ascii] at numbers
  unfold IsAscii at ascii
  split at numbers <;> omega

/-- Whether a word stands at the start of a text can be told from the bytes. -/
theorem startsLikeBytes_eq {word : Text} (ascii : ∀ char ∈ word, IsAscii char) (text : Text) :
    startsLikeBytes (word.map byte) text.bytes = startsLike word text := by
  induction word generalizing text with
  | nil => rfl
  | cons wanted word ih =>
    have wantedAscii := ascii wanted List.mem_cons_self
    have rest := ih fun char member => ascii char (List.mem_cons_of_mem _ member)
    cases text with
    | nil => rfl
    | cons char text =>
      have agree := rest text
      unfold startsLikeBytes startsLike Text.lower at agree ⊢
      by_cases charAscii : IsAscii char
      · rw [Text.bytes_cons, Text.utf8EncodeChar_of_ascii charAscii]
        simp only [List.map_cons, List.length_cons, List.singleton_append, List.take_succ_cons,
          lowerByte_byte charAscii, List.cons_beq_cons, agree]
        congr 1
        rw [Bool.eq_iff_iff, beq_iff_eq, beq_iff_eq]
        exact ⟨Text.byte_inj ((isAscii_toLower_iff char).mpr charAscii) wantedAscii,
          congrArg byte⟩
      · obtain ⟨code, more, codes, large⟩ := Text.utf8EncodeChar_of_not_ascii charAscii
        have byteDiffers : (lowerByte code == byte wanted) = false :=
          beq_false_of_ne (lowerByte_ne_byte large wantedAscii)
        have charDiffers : (char.toLower == wanted) = false := by
          apply beq_false_of_ne
          rintro rfl
          exact charAscii ((isAscii_toLower_iff char).mp wantedAscii)
        rw [Text.bytes_cons, codes]
        simp only [List.map_cons, List.length_cons, List.cons_append, List.take_succ_cons,
          List.cons_beq_cons, byteDiffers, charDiffers, Bool.false_and]

/-- What is like a word of ASCII characters has one byte for each character. -/
theorem size_take_of_startsLike {word : Text} (ascii : ∀ char ∈ word, IsAscii char) (text : Text)
    (starts : startsLike word text = true) : Text.size (text.take word.length) = word.length := by
  induction word generalizing text with
  | nil => rfl
  | cons wanted word ih =>
    cases text with
    | nil => cases starts
    | cons char text =>
      unfold startsLike Text.lower at starts
      simp only [List.length_cons, List.take_succ_cons, List.map_cons, List.cons_beq_cons,
        Bool.and_eq_true, beq_iff_eq] at starts
      obtain ⟨same, like⟩ := starts
      have charAscii : IsAscii char := by
        rw [← isAscii_toLower_iff, same]
        exact ascii wanted List.mem_cons_self
      have rest := ih (fun other member => ascii other (List.mem_cons_of_mem _ member)) text
        (beq_iff_eq.mpr like)
      rw [List.length_cons, List.take_succ_cons, Text.size_cons, rest,
        Text.utf8Size_of_ascii charAscii, Nat.add_comm]

/-- No place inside a character that is not ASCII is the start of a word. -/
theorem throughLikeBytes_skip {first : Char} (ascii : IsAscii first) (word codes rest : List UInt8)
    (large : ∀ code ∈ codes, 128 ≤ code.toNat) :
    throughLikeBytes (byte first :: word) (codes ++ rest) =
      match throughLikeBytes (byte first :: word) rest with
      | 0 => 0
      | count + 1 => codes.length + count + 1 := by
  induction codes with
  | nil =>
    rw [List.nil_append]
    cases throughLikeBytes (byte first :: word) rest with
    | zero => rfl
    | succ count => simp only [List.length_nil, Nat.zero_add]
  | cons code codes ih =>
    have differs : (lowerByte code == byte first) = false :=
      beq_false_of_ne (lowerByte_ne_byte (large code List.mem_cons_self) ascii)
    have elsewhere : startsLikeBytes (byte first :: word) (code :: (codes ++ rest)) = false := by
      unfold startsLikeBytes
      simp only [List.length_cons, List.take_succ_cons, List.map_cons, List.cons_beq_cons, differs,
        Bool.false_and]
    rw [List.cons_append, throughLikeBytes, elsewhere,
      ih fun other member => large other (List.mem_cons_of_mem _ member)]
    cases throughLikeBytes (byte first :: word) rest with
    | zero => rfl
    | succ count =>
      simp only [Bool.false_eq_true, ↓reduceIte, List.length_cons]
      omega

theorem throughLikeBytes_of_starts {word codes : List UInt8} (some : codes ≠ [])
    (starts : startsLikeBytes word codes = true) : throughLikeBytes word codes = word.length := by
  cases codes with
  | nil => exact absurd rfl some
  | cons code codes => rw [throughLikeBytes, starts, if_pos rfl]

/-- Where a word does not stand, the search goes on after the character. -/
theorem throughLikeBytes_char {first : Char} {word : Text} (ascii : ∀ char ∈ first :: word,
    IsAscii char) (char : Char) (rest : Text)
    (elsewhere : startsLike (first :: word) (char :: rest) = false) :
    throughLikeBytes ((first :: word).map byte) (Text.bytes (char :: rest)) =
      match throughLikeBytes ((first :: word).map byte) rest.bytes with
      | 0 => 0
      | count + 1 => char.utf8Size + count + 1 := by
  by_cases charAscii : IsAscii char
  · have agree := startsLikeBytes_eq ascii (char :: rest)
    rw [elsewhere, Text.bytes_cons, Text.utf8EncodeChar_of_ascii charAscii] at agree
    rw [Text.bytes_cons, Text.utf8EncodeChar_of_ascii charAscii,
      Text.utf8Size_of_ascii charAscii]
    rw [List.singleton_append] at agree ⊢
    rw [throughLikeBytes, agree]
    cases throughLikeBytes ((first :: word).map byte) rest.bytes with
    | zero => rfl
    | succ count =>
      simp only [Bool.false_eq_true, ↓reduceIte]
      omega
  · rw [Text.bytes_cons, List.map_cons, throughLikeBytes_skip (ascii first List.mem_cons_self) _ _ _
      (Text.le_of_mem_utf8EncodeChar charAscii), String.length_utf8EncodeChar]

/-- The first place where a word stands is found in the bytes, and it ends between characters. -/
theorem throughLikeBytes_eq {first : Char} {word : Text} (ascii : ∀ char ∈ first :: word,
    IsAscii char) (text : Text) :
    throughLikeBytes ((first :: word).map byte) text.bytes =
      Text.size (text.take (throughLike (first :: word) text)) := by
  induction text with
  | nil => rfl
  | cons char rest ih =>
    cases starts : startsLike (first :: word) (char :: rest) with
    | true =>
      have filled : Text.bytes (char :: rest) ≠ [] := by
        simp only [Text.bytes_cons, ne_eq, List.append_eq_nil_iff,
          String.utf8EncodeChar_ne_nil, false_and, not_false_eq_true]
      rw [throughLike, starts, if_pos rfl, size_take_of_startsLike ascii _ starts,
        throughLikeBytes_of_starts filled ((startsLikeBytes_eq ascii _).trans starts),
        List.length_map]
    | false =>
      rw [throughLikeBytes_char ascii char rest starts, ih, throughLike, starts]
      cases found : throughLike (first :: word) rest with
      | zero => rfl
      | succ count =>
        cases rest with
        | nil => cases found
        | cons next rest =>
          have positive := next.utf8Size_pos
          simp only [Bool.false_eq_true, ↓reduceIte, List.take_succ_cons, Text.size_cons]
          obtain ⟨total, sum⟩ : ∃ total,
              next.utf8Size + Text.size (rest.take count) = total + 1 :=
            ⟨next.utf8Size + Text.size (rest.take count) - 1, by omega⟩
          rw [sum]
          exact Nat.add_assoc ..

/-- Whether a text starts with a word of ASCII characters can be told from the bytes. -/
theorem isPrefixOf_bytes {word : Text} (ascii : ∀ char ∈ word, IsAscii char) (text : Text) :
    (word.map byte).isPrefixOf text.bytes = word.isPrefixOf text := by
  induction word generalizing text with
  | nil => rfl
  | cons wanted word ih =>
    have wantedAscii := ascii wanted List.mem_cons_self
    have rest := ih fun char member => ascii char (List.mem_cons_of_mem _ member)
    cases text with
    | nil => rfl
    | cons char text =>
      by_cases charAscii : IsAscii char
      · rw [Text.bytes_cons, Text.utf8EncodeChar_of_ascii charAscii]
        simp only [List.map_cons, List.singleton_append, List.isPrefixOf_cons_cons, rest]
        congr 1
        rw [Bool.eq_iff_iff, beq_iff_eq, beq_iff_eq]
        exact ⟨Text.byte_inj wantedAscii charAscii, congrArg byte⟩
      · obtain ⟨code, more, codes, large⟩ := Text.utf8EncodeChar_of_not_ascii charAscii
        have byteDiffers : (byte wanted == code) = false := by
          apply beq_false_of_ne
          rintro rfl
          rw [Text.toNat_byte wantedAscii] at large
          exact Nat.not_lt.mpr large wantedAscii
        have charDiffers : (wanted == char) = false := by
          apply beq_false_of_ne
          rintro rfl
          exact charAscii wantedAscii
        rw [Text.bytes_cons, codes]
        simp only [List.map_cons, List.cons_append, List.isPrefixOf_cons_cons, byteDiffers,
          charDiffers, Bool.false_and]

/-- The opening of a raw element is told from the bytes. -/
theorem rawOpenBytes_eq {name : Text} (ascii : ∀ char ∈ name, IsAscii char) (text : Text) :
    rawOpenBytes (name.map byte) text.bytes =
      Text.size (text.take (rawOpenLength name text)) := by
  have angle : IsAscii '<' := by decide
  have opening : ∀ char ∈ '<' :: name.take 1, IsAscii char := by
    intro char member
    rcases List.mem_cons.mp member with rfl | member
    · exact angle
    · exact ascii char (List.mem_of_mem_take member)
  have agree := isPrefixOf_bytes opening text
  rw [List.map_cons, List.map_take] at agree
  unfold rawOpenBytes rawOpenLength
  rw [agree]
  cases opens : ('<' :: name.take 1).isPrefixOf text with
  | false => rfl
  | true =>
    cases text with
    | nil => cases opens
    | cons char rest =>
      rw [List.isPrefixOf_cons_cons, Bool.and_eq_true, beq_iff_eq] at opens
      obtain ⟨rfl, _⟩ := opens
      rw [Text.bytes_cons, Text.utf8EncodeChar_of_ascii angle, List.singleton_append,
        List.tail_cons, List.tail_cons, startsLikeBytes_eq ascii]
      cases like : startsLike name rest with
      | false => rfl
      | true =>
        simp only [Bool.and_self, ↓reduceIte, List.length_map, List.take_succ_cons, Text.size_cons,
          size_take_of_startsLike ascii rest like, Text.utf8Size_of_ascii angle]
        exact Nat.add_comm _ _

end Munch

end Template
