import Template.Proofs.Scan.Bytes

set_option autoImplicit false

namespace Template.Embedded

open Text (IsAscii)

/-- The quote of a literal is one of the quotes. -/
def State.Quoted : State → Prop
  | code _ => True
  | literal quote _ | escaped quote _ => isQuote quote = true

/-- The bytes after the end of a script whose rest is given, together with where its reading
stands. -/
def State.leave : State → List UInt8 → List UInt8
  | code depth, codes => afterCode depth codes
  | literal quote depth, codes => afterCode depth (afterLiteral (byte quote) codes)
  | escaped quote depth, codes => afterCode depth (afterLiteral (byte quote) (byte '\\' :: codes))

theorem isAscii_of_isQuote {char : Char} (quote : isQuote char = true) : IsAscii char := by
  simp only [isQuote, Bool.or_eq_true, beq_iff_eq] at quote
  rcases quote with (rfl | rfl) | rfl <;> decide

theorem State.Quoted.next {state next : State} {char : Char} (quoted : state.Quoted)
    (read : state.next? char = some next) : next.Quoted := by
  cases state with
  | code depth =>
    simp only [State.next?] at read
    split at read
    · cases read; trivial
    · split at read
      · cases depth <;> cases read
        trivial
      · split at read
        · next quote => cases read; exact quote
        · cases read; trivial
  | literal quote depth =>
    simp only [State.next?] at read
    split at read
    · cases read; exact quoted
    · split at read
      · cases read; trivial
      · cases read; exact quoted
  | escaped quote depth => cases read; exact quoted

theorem afterCode_cons (depth : Nat) (code : UInt8) (rest : List UInt8) :
    afterCode depth (code :: rest) =
      if code = byte '\x7b' then afterCode (depth + 1) rest
      else if code = byte '\x7d' then
        match depth with
        | 0 => code :: rest
        | depth + 1 => afterCode depth rest
      else if isQuoteByte code then afterCode depth (afterLiteral code rest)
      else afterCode depth rest := by
  cases depth <;> rw [afterCode.eq_def]

theorem afterLiteral_close {quote : UInt8} (other : quote ≠ byte '\\') (rest : List UInt8) :
    afterLiteral quote (quote :: rest) = rest := by
  cases rest with
  | nil => rfl
  | cons next rest => rw [afterLiteral, if_neg other, if_pos rfl]

theorem afterLiteral_other {quote code : UInt8} (plain : code ≠ byte '\\') (other : code ≠ quote)
    (rest : List UInt8) : afterLiteral quote (code :: rest) = afterLiteral quote rest := by
  cases rest with
  | nil => rfl
  | cons next rest => rw [afterLiteral, if_neg plain, if_neg other]

theorem afterLiteral_escape (quote code : UInt8) (rest : List UInt8) :
    afterLiteral quote (byte '\\' :: code :: rest) = afterLiteral quote rest := by
  rw [afterLiteral, if_pos rfl]

theorem byte_ne_of_large {code : UInt8} {char : Char} (large : 128 ≤ code.toNat)
    (ascii : IsAscii char) : code ≠ byte char := by
  rintro rfl
  rw [Text.toNat_byte ascii] at large
  exact Nat.not_lt.mpr large ascii

theorem byte_eq_iff {first second : Char} (firstAscii : IsAscii first)
    (secondAscii : IsAscii second) : byte first = byte second ↔ first = second :=
  ⟨Text.byte_inj firstAscii secondAscii, congrArg byte⟩

theorem isQuoteByte_byte {char : Char} (ascii : IsAscii char) :
    isQuoteByte (byte char) = isQuote char := by
  have agree : ∀ quote, IsAscii quote → (byte char == byte quote) = (char == quote) := by
    intro quote quoteAscii
    rw [Bool.eq_iff_iff, beq_iff_eq, beq_iff_eq]
    exact byte_eq_iff ascii quoteAscii
  unfold isQuoteByte isQuote
  rw [agree _ (by decide), agree _ (by decide), agree _ (by decide)]

theorem isQuoteByte_of_large {code : UInt8} (large : 128 ≤ code.toNat) :
    isQuoteByte code = false := by
  simp only [isQuoteByte, Bool.or_eq_false_iff, beq_eq_false_iff_ne]
  exact ⟨⟨byte_ne_of_large large (by decide), byte_ne_of_large large (by decide)⟩,
    byte_ne_of_large large (by decide)⟩

/-- The bytes of characters that are not ASCII are passed over outside literals. -/
theorem afterCode_skip (depth : Nat) (codes rest : List UInt8)
    (large : ∀ code ∈ codes, 128 ≤ code.toNat) :
    afterCode depth (codes ++ rest) = afterCode depth rest := by
  induction codes with
  | nil => rfl
  | cons code codes ih =>
    have here := large code List.mem_cons_self
    rw [List.cons_append, afterCode_cons, if_neg (byte_ne_of_large here (by decide)),
      if_neg (byte_ne_of_large here (by decide)), isQuoteByte_of_large here]
    exact ih fun other member => large other (List.mem_cons_of_mem _ member)

/-- The bytes of characters that are not ASCII are passed over inside literals. -/
theorem afterLiteral_skip {quote : Char} (ascii : IsAscii quote) (codes rest : List UInt8)
    (large : ∀ code ∈ codes, 128 ≤ code.toNat) :
    afterLiteral (byte quote) (codes ++ rest) = afterLiteral (byte quote) rest := by
  induction codes with
  | nil => rfl
  | cons code codes ih =>
    have here := large code List.mem_cons_self
    rw [List.cons_append, afterLiteral_other (byte_ne_of_large here (by decide))
      (byte_ne_of_large here ascii)]
    exact ih fun other member => large other (List.mem_cons_of_mem _ member)

/-- A character that is not ASCII does not change where reading stands, except that it can be
escaped. -/
theorem leave_of_not_ascii {state : State} (quoted : state.Quoted) {char : Char}
    (other : ¬ IsAscii char) (rest : List UInt8) :
    ∃ next, state.next? char = some next ∧
      state.leave (String.utf8EncodeChar char ++ rest) = next.leave rest := by
  have differs : ∀ known, IsAscii known → char ≠ known := by
    rintro known ascii rfl
    exact other ascii
  have large := Text.le_of_mem_utf8EncodeChar other
  cases state with
  | code depth =>
    have noQuote : isQuote char = false := by
      cases quote : isQuote char with
      | false => rfl
      | true => exact absurd (isAscii_of_isQuote quote) other
    refine ⟨.code depth, ?_, afterCode_skip depth _ rest large⟩
    simp only [State.next?, differs '\x7b' (by decide), differs '\x7d' (by decide), noQuote,
      ↓reduceIte, Bool.false_eq_true]
  | literal quote depth =>
    have ascii := isAscii_of_isQuote quoted
    refine ⟨.literal quote depth, ?_, ?_⟩
    · simp only [State.next?, differs '\\' (by decide), differs quote ascii, ↓reduceIte]
    · simp only [State.leave, afterLiteral_skip ascii _ rest large]
  | escaped quote depth =>
    have ascii := isAscii_of_isQuote quoted
    refine ⟨.literal quote depth, rfl, ?_⟩
    cases codes : String.utf8EncodeChar char with
    | nil => exact absurd codes String.utf8EncodeChar_ne_nil
    | cons code more =>
      rw [codes] at large
      simp only [State.leave, List.cons_append, afterLiteral_escape,
        afterLiteral_skip ascii more rest fun code member => large code (.tail _ member)]

/-- An ASCII character is told from its byte. -/
theorem leave_of_ascii {state : State} (quoted : state.Quoted) {char : Char}
    (ascii : IsAscii char) (rest : List UInt8) :
    state.leave (byte char :: rest) =
      match state.next? char with
      | none => byte char :: rest
      | some next => next.leave rest := by
  have same : ∀ known, IsAscii known → (byte char = byte known ↔ char = known) :=
    fun known knownAscii => byte_eq_iff ascii knownAscii
  cases state with
  | code depth =>
    simp only [State.leave, State.next?, afterCode_cons, same '\x7b' (by decide),
      same '\x7d' (by decide), isQuoteByte_byte ascii]
    split
    · rfl
    · split
      · cases depth <;> rfl
      · split <;> rfl
  | literal quote depth =>
    have quoteAscii := isAscii_of_isQuote quoted
    have quotePlain : byte quote ≠ byte '\\' := by
      rw [ne_eq, byte_eq_iff quoteAscii (by decide)]
      rintro rfl
      cases quoted
    by_cases backslash : char = '\\'
    · subst backslash
      rfl
    · have plainByte := mt (same '\\' (by decide)).mp backslash
      by_cases closes : char = quote
      · subst closes
        simp only [State.leave, State.next?, backslash, ↓reduceIte, afterLiteral_close quotePlain]
      · have otherByte := mt (same quote quoteAscii).mp closes
        simp only [State.leave, State.next?, backslash, closes, ↓reduceIte,
          afterLiteral_other plainByte otherByte]
  | escaped quote depth => simp only [State.leave, State.next?, afterLiteral_escape]

theorem leave_char {state : State} (quoted : state.Quoted) (char : Char) (rest : List UInt8) :
    state.leave (String.utf8EncodeChar char ++ rest) =
      match state.next? char with
      | none => String.utf8EncodeChar char ++ rest
      | some next => next.leave rest := by
  by_cases ascii : IsAscii char
  · rw [Text.utf8EncodeChar_of_ascii ascii, List.singleton_append, leave_of_ascii quoted ascii]
  · obtain ⟨next, read, left⟩ := leave_of_not_ascii quoted ascii rest
    rw [left, read]

theorem leave_nil (state : State) : state.leave [] = [] := by
  cases state with
  | code depth => exact afterCode.eq_1 depth
  | literal quote depth => exact afterCode.eq_1 depth
  | escaped quote depth => exact afterCode.eq_1 depth

/-- The bytes that are left after a script are those of the characters that are left. -/
theorem leave_bytes {state : State} (quoted : state.Quoted) (text : Text) :
    state.leave text.bytes = Text.bytes (text.drop (runLength state text)) := by
  induction text generalizing state with
  | nil => exact leave_nil state
  | cons char rest ih =>
    rw [Text.bytes_cons, leave_char quoted, runLength]
    cases read : state.next? char with
    | none => rfl
    | some next => exact ih (quoted.next read)

theorem runLength_le (state : State) (text : Text) : runLength state text ≤ text.length := by
  induction text generalizing state with
  | nil => exact Nat.le_refl _
  | cons char rest ih =>
    rw [runLength]
    split
    · exact Nat.zero_le _
    · exact Nat.succ_le_succ (ih _)

theorem length_le (text : Text) : length text ≤ text.length := by
  cases text with
  | nil => exact Nat.le_refl _
  | cons char rest =>
    rw [length]
    split
    · exact runLength_le _ _
    · exact Nat.zero_le _

/-- Which characters a script may begin with is told from the first byte. -/
theorem isBarredByte_head (char : Char) :
    ∃ code more, String.utf8EncodeChar char = code :: more ∧ isBarredByte code = !opens char := by
  obtain ⟨code, more, codes, agree⟩ := Text.exists_head_byte char
  refine ⟨code, more, codes, ?_⟩
  simp only [isBarredByte, opens, isSigil, Text.isPlainBlank, Bool.not_not, Bool.or_assoc]
  rw [agree '@' (by decide), agree ':' (by decide), agree '/' (by decide), agree '#' (by decide),
    agree ' ' (by decide), agree '\t' (by decide), agree '\n' (by decide),
    agree '\x0c' (by decide), agree '\r' (by decide)]

/-- Between two characters of a text, the search in the bytes finds the script that the characters
hold, and it ends between two characters. -/
theorem endIn?_append (front back : Text) :
    endIn? (front ++ back) front.size =
      if length back = 0 then none
      else some (front.size + Text.size (back.take (length back))) := by
  unfold endIn? end?
  rw [Text.bytes_append, ← Text.length_bytes front, List.drop_left, List.length_append]
  cases back with
  | nil => rfl
  | cons char rest =>
    obtain ⟨code, more, codes, barred⟩ := isBarredByte_head char
    have shape : Text.bytes (char :: rest) = code :: (more ++ Text.bytes rest) := by
      rw [Text.bytes_cons, codes, List.cons_append]
    have quoted : State.Quoted (.code 0) := trivial
    have left : afterCode 0 (code :: (more ++ Text.bytes rest)) = _ :=
      shape ▸ leave_bytes quoted (char :: rest)
    have total := Text.size_append ((char :: rest).take (runLength (.code 0) (char :: rest)))
      ((char :: rest).drop (runLength (.code 0) (char :: rest)))
    rw [List.take_append_drop] at total
    rw [length, Text.length_bytes (char :: rest)]
    simp only [shape, barred, left, Text.length_bytes]
    cases starts : opens char with
    | false => rfl
    | true =>
      simp only [Bool.not_true, Bool.false_eq_true, ↓reduceIte]
      cases taken : runLength (.code 0) (char :: rest) with
      | zero =>
        rw [taken] at total
        rw [List.drop_zero, Nat.add_sub_cancel, if_neg (Nat.lt_irrefl _), if_pos rfl]
      | succ count =>
        have positive := char.utf8Size_pos
        rw [taken, List.take_succ_cons, Text.size_cons, Text.size_cons char (rest.take _)] at total
        have finish : front.size + (char.utf8Size + Text.size rest) -
            Text.size ((char :: rest).drop (count + 1)) =
              front.size + (char.utf8Size + Text.size (rest.take count)) := by omega
        rw [List.take_succ_cons, Text.size_cons, Text.size_cons, if_neg (Nat.succ_ne_zero _),
          finish, if_pos (by omega)]

end Template.Embedded
