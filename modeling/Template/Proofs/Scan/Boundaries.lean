import Template.Proofs.Scan.Languages

set_option autoImplicit false

namespace Template

/-- A byte of an ASCII character stands where a character begins. -/
theorem Text.exists_split_of_byte {text : Text} {before after : List UInt8} {code : UInt8}
    (small : code.toNat < 128) (here : text.bytes = before ++ code :: after) :
    ∃ front back, text = front ++ back ∧ front.size = before.length := by
  induction text generalizing before with
  | nil =>
    rw [bytes_nil] at here
    exact absurd here.symm (List.append_ne_nil_of_right_ne_nil before (List.cons_ne_nil code after))
  | cons char rest ih =>
    rw [bytes_cons] at here
    rcases List.append_eq_append_iff.mp here with
      ⟨more, before_eq, further⟩ | ⟨more, char_eq, further⟩
    · -- The byte belongs to a later character.
      obtain ⟨front, back, rfl, measured⟩ := ih further
      refine ⟨char :: front, back, rfl, ?_⟩
      rw [size_cons, measured, before_eq, List.length_append, String.length_utf8EncodeChar]
    · cases more with
      | nil =>
        obtain ⟨front, back, rfl, measured⟩ :=
          ih (further.symm.trans (List.nil_append (code :: after)).symm)
        refine ⟨char :: front, back, rfl, ?_⟩
        rw [List.append_nil] at char_eq
        rw [size_cons, measured, List.length_nil, ← char_eq, String.length_utf8EncodeChar,
          Nat.add_zero]
      | cons first more =>
        -- The byte is one of this character, so it is all of it.
        obtain ⟨rfl, -⟩ := List.cons.inj further
        have member : code ∈ String.utf8EncodeChar char := by
          rw [char_eq]
          exact List.mem_append_right _ List.mem_cons_self
        by_cases ascii : IsAscii char
        · rw [utf8EncodeChar_of_ascii ascii] at char_eq
          have lengths := congrArg List.length char_eq
          simp only [List.length_append, List.length_cons, List.length_nil] at lengths
          refine ⟨[], char :: rest, rfl, ?_⟩
          rw [size_nil]
          omega
        · have large := le_of_mem_utf8EncodeChar ascii code member
          omega

namespace Embedded

theorem afterLiteral_suffix (quote : UInt8) (codes : List UInt8) :
    afterLiteral quote codes <:+ codes := by
  fun_induction afterLiteral quote codes with
  | case1 => exact List.suffix_refl _
  | case2 => exact List.nil_suffix
  | case3 next rest ih => exact (ih.trans (List.suffix_cons _ _)).trans (List.suffix_cons _ _)
  | case4 => exact List.suffix_cons _ _
  | case5 code next rest _ _ ih => exact ih.trans (List.suffix_cons _ _)

/-- The bytes after a script are the last of those given. -/
theorem afterCode_suffix (depth : Nat) (codes : List UInt8) : afterCode depth codes <:+ codes := by
  fun_induction afterCode depth codes with
  | case1 => exact List.suffix_refl _
  | case2 _ _ ih => exact ih.trans (List.suffix_cons _ _)
  | case3 => exact List.suffix_refl _
  | case4 _ _ _ ih => exact ih.trans (List.suffix_cons _ _)
  | case5 _ code rest _ _ _ ih =>
    exact (ih.trans (afterLiteral_suffix code rest)).trans (List.suffix_cons _ _)
  | case6 _ _ _ _ _ _ ih => exact ih.trans (List.suffix_cons _ _)

/-- A script that does not take all bytes ends at a closing brace. -/
theorem head?_afterCode (depth : Nat) (codes : List UInt8) :
    ∀ code ∈ (afterCode depth codes).head?, code = byte '\x7d' := by
  fun_induction afterCode depth codes with
  | case1 => exact fun _ found => nomatch found
  | case3 =>
    rintro _ ⟨⟩
    rfl
  | case2 | case4 | case5 | case6 => assumption

/-- A script begins with a character that it may begin with and that is not a closing brace. -/
theorem length_eq_zero_iff (char : Char) (rest : Text) :
    length (char :: rest) = 0 ↔
      isSigil char = true ∨ Text.isPlainBlank char = true ∨ char = '\x7d' := by
  have stops : runLength (.code 0) (char :: rest) = 0 ↔ char = '\x7d' := by
    rw [runLength]
    cases read : State.next? (.code 0) char with
    | none => simp only [(State.next?_eq_none.mp read).2]
    | some next =>
      have other : char ≠ '\x7d' := by
        intro closing
        rw [State.next?_eq_none.mpr ⟨rfl, closing⟩] at read
        cases read
      simp only [Nat.add_one_ne_zero, other]
  rw [length]
  by_cases starts : opens char = true
  · obtain ⟨sigil, blank⟩ := opens_iff.mp starts
    simp only [starts, ↓reduceIte, stops, sigil, blank, Bool.false_eq_true, false_or]
  · simp only [if_neg starts, true_iff]
    cases sigil : isSigil char with
    | true => exact .inl rfl
    | false =>
      cases blank : Text.isPlainBlank char with
      | true => exact .inr (.inl rfl)
      | false => exact absurd (opens_iff.mpr ⟨sigil, blank⟩) starts

/-- Wherever the search starts, a script that it finds is not empty and ends between characters of
the text. -/
theorem endIn?_between {text : Text} {start finish : Nat}
    (found : endIn? text start = some finish) :
    start < finish ∧ ∃ front back, text = front ++ back ∧ front.size = finish := by
  unfold endIn? end? at found
  split at found
  · cases found
  · next code rest left =>
    split at found
    · cases found
    · simp only at found
      split at found
      · next longer =>
        cases found
        refine ⟨longer, ?_⟩
        obtain ⟨before, ended⟩ :=
          (afterCode_suffix 0 (code :: rest)).trans (left ▸ List.drop_suffix start text.bytes)
        have stops := head?_afterCode 0 (code :: rest)
        rw [← ended, List.length_append, Nat.add_sub_cancel]
        cases after : afterCode 0 (code :: rest) with
        | nil =>
          rw [after, List.append_nil] at ended
          exact ⟨text, [], (List.append_nil text).symm, by rw [ended, Text.length_bytes]⟩
        | cons brace more =>
          rw [after] at ended stops
          have small : brace.toNat < 128 := by
            rw [stops brace rfl]
            decide
          exact Text.exists_split_of_byte small ended.symm
      · cases found

/-- The search in the bytes of a text for the end of a script is the search over its characters.
From a place between characters there is no script if the text ends there or goes on with a sigil, a
plain blank or a closing brace. Otherwise the script goes on to the first closing brace that comes
in code where no brace is open, or takes the whole text, as the search over characters says. From
any place, also inside a character or past the end, a script that is found is not empty and ends
between characters of the text. -/
theorem endIn?_refines (text : Text) :
    (∀ front back, text = front ++ back → endIn? text front.size =
      match back with
      | [] => none
      | char :: rest =>
        if isSigil char = true ∨ Text.isPlainBlank char = true ∨ char = '\x7d' then none
        else some (front.size +
          Text.size ((char :: rest).take (runLength (.code 0) (char :: rest))))) ∧
    (∀ start, text.size ≤ start → endIn? text start = none) ∧
    ∀ start finish, endIn? text start = some finish →
      start < finish ∧ finish ≤ text.size ∧ ∃ front back, text = front ++ back ∧
        front.size = finish := by
  refine ⟨?_, ?_, ?_⟩
  · rintro front back rfl
    rw [endIn?_append]
    cases back with
    | nil => rfl
    | cons char rest =>
      have nothing := length_eq_zero_iff char rest
      by_cases barred : isSigil char = true ∨ Text.isPlainBlank char = true ∨ char = '\x7d'
      · simp only [nothing.mpr barred, barred, ↓reduceIte]
      · have begun : length (char :: rest) ≠ 0 := mt nothing.mp barred
        have measured : length (char :: rest) = runLength (.code 0) (char :: rest) := by
          rw [length] at begun ⊢
          split at begun
          · next starts => rw [if_pos starts]
          · exact absurd rfl begun
        rw [if_neg begun, measured]
        simp only [if_neg barred]
  · intro start past
    rw [← Text.length_bytes] at past
    rw [endIn?, end?, List.drop_eq_nil_of_le past]
  · intro start finish found
    obtain ⟨further, front, back, rfl, rfl⟩ := endIn?_between found
    refine ⟨further, ?_, front, back, rfl, rfl⟩
    rw [Text.size_append]
    omega

end Embedded

end Template
