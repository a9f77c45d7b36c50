import Template.Proofs.Concrete.Reading.Attributes

set_option autoImplicit false

namespace Template.Concrete

open Terminal (kind)
open Rule

variable {τ : Type} [Terminal τ]

/-- Whether a token of this kind comes after the head of a tag. -/
def endsHead : Option Kind → Bool
  | some .slash | some .angle | some .rawSelfClose | some (.rawAngle _) => true
  | _ => false

theorem eq_of_head {opener : Kind} {tokens rest : List τ} {head : Head τ}
    (read : Concrete.head opener tokens = .ok (head, rest)) :
    tokens = head.yield ++ rest ∧ head.Formed .whole opener rest := by
  simp only [Concrete.head, bind_eq_ok, expect_eq_ok, accept_eq_ok, pure_eq_ok] at read
  obtain ⟨opening, _, ⟨rfl, first⟩, items, _, found, blank, _, ⟨rfl, last, -⟩, rfl, rfl⟩ := read
  obtain ⟨rfl, others⟩ := eq_of_items found
  exact ⟨by rw [Head.yield_append], first, others, last⟩

theorem head_of_formed {opener : Kind} {rest : List τ} {head : Head τ}
    (formed : head.Formed .whole opener rest) (ends : endsHead (kind? rest) = true) :
    Concrete.head opener (head.yield ++ rest) = .ok (head, rest) := by
  have other : kind? rest ≠ some .blank := by
    intro same
    rw [same] at ends
    cases ends
  have tagEnd : startsAttribute rest = false ∧ endsNamed (kind? rest) = true := by
    cases found : kind? rest with
    | none =>
      rw [found] at ends
      cases ends
    | some first =>
      rw [found] at ends
      cases first <;> simp_all [endsHead, startsAttribute, endsNamed]
  have last : startsItem (head.blank.toList ++ rest) = false ∧
      endsNamed (kind? (head.blank.toList ++ rest)) = true := by
    cases found : head.blank with
    | none =>
      simp only [Option.toList_none, List.nil_append, startsItem, tagEnd.1, other, decide_false,
        Bool.false_and, Bool.or_false, tagEnd.2, and_self]
    | some blank =>
      have same : kind blank = .blank := formed.blank blank found
      have first : startsAttribute (blank :: rest) = false := by
        simp only [startsAttribute, kind?_cons, same]
        rfl
      simp only [Option.toList_some, List.singleton_append, startsItem, first, List.tail_cons,
        tagEnd.1, Bool.and_false, Bool.or_false, kind?_cons, same, true_and]
      rfl
  simp only [Concrete.head, bind_eq_ok, expect_eq_ok, accept_eq_ok, pure_eq_ok]
  exact ⟨head.opening, _, ⟨head.yield_append rest, formed.opening⟩, head.items, _,
    items_of_formed formed.items last.1 last.2, head.blank, rest,
    ⟨rfl, formed.blank, fun _ => other⟩, rfl, rfl⟩

def Piece.yield : Piece τ → List τ
  | whole child => child.yield
  | element head angle => head.yield ++ [angle]
  | branch marker => marker.yield

/-- Whether a child is read at once, without its content. -/
def Child.isLeaf : Child τ → Bool
  | .block .. | .void .. | .element .. => false
  | _ => true

/-- What the grammar asks of the beginning of a child, given the tokens after it. -/
def Piece.Formed : Piece τ → List τ → Prop
  | whole child, after => child.isLeaf = true ∧ ∀ depth, child.Formed .whole depth after
  | element head angle, after => head.Formed .whole .openTag (angle :: after) ∧ kind angle = .angle
  | branch marker, _ => marker.Formed .opening

theorem eq_of_tag {tokens rest : List τ} {piece : Piece τ}
    (read : tag tokens = .ok (piece, rest)) :
    tokens = piece.yield ++ rest ∧ piece.Formed rest := by
  obtain ⟨head, middle, found, ending⟩ := bind_eq_ok.mp read
  obtain ⟨rfl, formed⟩ := eq_of_head found
  rw [tagEnd, peek_bind] at ending
  by_cases slashed : kind? middle = some .slash
  · simp only [slashed, bind_eq_ok, expect_eq_ok, pure_eq_ok] at ending
    obtain ⟨slash, _, ⟨rfl, first⟩, angle, _, ⟨rfl, last⟩, rfl, rfl⟩ := ending
    exact ⟨by simp only [Piece.yield, Child.yield, List.append_assoc, List.cons_append,
      List.nil_append], rfl, fun _ => ⟨formed, first, last⟩⟩
  · by_cases closed : kind? middle = some .angle
    · simp only [closed] at ending
      obtain ⟨angle, found, rfl⟩ := map_eq_ok.mp ending
      obtain ⟨rfl, last⟩ := expect_eq_ok.mp found
      exact ⟨by simp only [Piece.yield, List.append_assoc, List.cons_append, List.nil_append],
        formed, last⟩
    · simp only [fail, reduceCtorEq] at ending

theorem tag_of_selfClosed {head : Head τ} {slash angle : τ} {rest : List τ}
    (formed : head.Formed .whole .openTag (slash :: angle :: rest)) (first : kind slash = .slash)
    (last : kind angle = .angle) :
    tag (head.yield ++ slash :: angle :: rest) =
      .ok (.whole (.selfClosed head slash angle), rest) := by
  have ends : endsHead (kind? (slash :: angle :: rest)) = true := by rw [kind?_cons, first]; rfl
  refine bind_eq_ok.mpr ⟨head, _, head_of_formed formed ends, ?_⟩
  rw [tagEnd, peek_bind]
  simp only [kind?_cons, first, bind_eq_ok, expect_eq_ok, pure_eq_ok]
  exact ⟨slash, _, ⟨rfl, first⟩, angle, _, ⟨rfl, last⟩, rfl, rfl⟩

theorem tag_of_angle {head : Head τ} {angle : τ} {rest : List τ}
    (formed : head.Formed .whole .openTag (angle :: rest)) (last : kind angle = .angle) :
    tag (head.yield ++ angle :: rest) = .ok (.element head angle, rest) := by
  have ends : endsHead (kind? (angle :: rest)) = true := by rw [kind?_cons, last]; rfl
  refine bind_eq_ok.mpr ⟨head, _, head_of_formed formed ends, ?_⟩
  rw [tagEnd, peek_bind]
  simp only [kind?_cons, last]
  exact map_eq_ok.mpr ⟨angle, expect_eq_ok.mpr ⟨rfl, last⟩, rfl⟩

theorem rawBody_eq_ok {element : RawElement} {tokens rest : List τ} {body : RawBody τ} :
    rawBody element tokens = .ok (body, rest) ↔
      tokens = body.yield ++ rest ∧ body.Formed element := by
  rw [rawBody, peek_bind]
  constructor
  · intro read
    by_cases slashed : kind? tokens = some .rawSelfClose
    · simp only [slashed] at read
      obtain ⟨closing, found, rfl⟩ := map_eq_ok.mp read
      exact expect_eq_ok.mp found
    · by_cases closed : ∃ other, kind? tokens = some (.rawAngle other)
      · obtain ⟨other, closed⟩ := closed
        simp only [closed] at read
        by_cases same : other = element
        · simp only [same, ↓reduceIte, bind_eq_ok, expect_eq_ok, pure_eq_ok] at read
          obtain ⟨angle, _, ⟨rfl, first⟩, content, _, ⟨rfl, last⟩, rfl, rfl⟩ := read
          exact ⟨rfl, first, last⟩
        · simp only [same, ↓reduceIte, fail, reduceCtorEq] at read
      · have unangled := not_exists.mp closed
        simp only [fail, reduceCtorEq] at read
  · rintro ⟨rfl, formed⟩
    cases body with
    | selfClosed closing =>
      change kind closing = .rawSelfClose at formed
      simp only [RawBody.yield, List.singleton_append, kind?_cons, formed]
      exact map_eq_ok.mpr ⟨closing, expect_eq_ok.mpr ⟨rfl, formed⟩, rfl⟩
    | content angle content =>
      obtain ⟨first, last⟩ := formed
      simp only [RawBody.yield, List.cons_append, List.nil_append, kind?_cons, first, ↓reduceIte,
        bind_eq_ok, expect_eq_ok, pure_eq_ok]
      exact ⟨angle, _, ⟨rfl, first⟩, content, _, ⟨rfl, last⟩, rfl, rfl⟩

theorem eq_of_rawTag {element : RawElement} {tokens rest : List τ} {child : Child τ}
    (read : rawTag element tokens = .ok (child, rest)) :
    tokens = child.yield ++ rest ∧ child.isLeaf = true ∧
      ∀ depth, child.Formed .whole depth rest := by
  obtain ⟨head, middle, found, read⟩ := bind_eq_ok.mp read
  obtain ⟨body, _, ending, read⟩ := bind_eq_ok.mp read
  obtain ⟨rfl, rfl⟩ := pure_eq_ok.mp read
  obtain ⟨rfl, formed⟩ := eq_of_head found
  obtain ⟨rfl, last⟩ := rawBody_eq_ok.mp ending
  exact ⟨by rw [Child.yield, List.append_assoc], rfl, fun _ => ⟨formed, last⟩⟩

theorem rawTag_of_formed {element : RawElement} {head : Head τ} {body : RawBody τ} {rest : List τ}
    (formed : head.Formed .whole (.rawOpen element) (body.yield ++ rest))
    (last : body.Formed element) :
    rawTag element (head.yield ++ (body.yield ++ rest)) = .ok (.raw element head body, rest) := by
  have ends : endsHead (kind? (body.yield ++ rest)) = true := by
    cases body with
    | selfClosed closing =>
      have same : kind? (closing :: rest) = some .rawSelfClose := congrArg some last
      exact congrArg endsHead same
    | content angle content =>
      have same : kind? (angle :: content :: rest) = some (.rawAngle element) :=
        congrArg some last.1
      exact congrArg endsHead same
  exact bind_eq_ok.mpr ⟨head, _, head_of_formed formed ends, bind_eq_ok.mpr
    ⟨body, rest, rawBody_eq_ok.mpr ⟨rfl, last⟩, pure_eq_ok.mpr ⟨rfl, rfl⟩⟩⟩

theorem eq_of_piece {tokens rest : List τ} {piece : Piece τ}
    (read : Concrete.piece tokens = .ok (piece, rest)) :
    tokens = piece.yield ++ rest ∧ piece.Formed rest := by
  generalize chosen : (pieceFor (kind? tokens) (kind? tokens.tail) : Rule τ (Piece τ)) = rule
  have read : rule tokens = .ok (piece, rest) := chosen ▸ read
  unfold pieceFor at chosen
  split at chosen <;> subst chosen
  · exact eq_of_tag read
  · obtain ⟨child, found, rfl⟩ := map_eq_ok.mp read
    exact eq_of_rawTag found
  · obtain ⟨token, found, rfl⟩ := map_eq_ok.mp read
    obtain ⟨rfl, same⟩ := expect_eq_ok.mp found
    exact ⟨rfl, rfl, fun _ => same⟩
  · obtain ⟨token, found, rfl⟩ := map_eq_ok.mp read
    obtain ⟨rfl, same⟩ := expect_eq_ok.mp found
    exact ⟨rfl, rfl, fun _ => same⟩
  · obtain ⟨marker, found, rfl⟩ := map_eq_ok.mp read
    obtain ⟨rfl, formed⟩ := marker_eq_ok.mp found
    exact ⟨rfl, rfl, fun _ => formed⟩
  · obtain ⟨marker, found, rfl⟩ := map_eq_ok.mp read
    exact marker_eq_ok.mp found
  · obtain ⟨script, found, rfl⟩ := map_eq_ok.mp read
    obtain ⟨rfl, formed⟩ := braced_eq_ok.mp found
    exact ⟨rfl, rfl, fun _ => formed⟩
  · simp only [fail, reduceCtorEq] at read

/-- The token after the opening brace of a script is a blank or the script. -/
theorem Braced.Formed.second {script : Braced τ} (formed : script.Formed) (rest : List τ) :
    kind? (script.yield ++ rest).tail = some .blank ∨
      kind? (script.yield ++ rest).tail = some .expression := by
  rw [Braced.yield_append, List.tail_cons]
  cases found : script.blank with
  | none => exact .inr (congrArg some formed.content)
  | some blank => exact .inl (congrArg some (formed.blank blank found))

theorem piece_of_leaf {child : Child τ} {depth : Nat} {rest : List τ} (leaf : child.isLeaf = true)
    (formed : child.Formed .whole depth rest) :
    Concrete.piece (child.yield ++ rest) = .ok (.whole child, rest) := by
  rw [Concrete.piece]
  cases child with
  | text token =>
    have same : kind token = .text := formed
    simp only [Child.yield, List.singleton_append, kind?_cons, same, pieceFor]
    exact map_eq_ok.mpr ⟨token, expect_eq_ok.mpr ⟨rfl, same⟩, rfl⟩
  | comment token =>
    have same : kind token = .comment := formed
    simp only [Child.yield, List.singleton_append, kind?_cons, same, pieceFor]
    exact map_eq_ok.mpr ⟨token, expect_eq_ok.mpr ⟨rfl, same⟩, rfl⟩
  | braced script =>
    have sound : script.Formed := formed
    have first : kind? (script.yield ++ rest) = some .braceOpen := congrArg some sound.opening
    have read : ((Piece.whole ∘ Child.braced) <$> (braced : Rule τ (Braced τ)))
        (script.yield ++ rest) = .ok (.whole (.braced script), rest) :=
      map_eq_ok.mpr ⟨script, braced_eq_ok.mpr ⟨rfl, sound⟩, rfl⟩
    simp only [Child.yield, first]
    rcases sound.second rest with second | second <;> simp only [second, pieceFor] <;> exact read
  | single marker =>
    have sound : marker.Formed .single := formed
    have first : kind? (marker.yield ++ rest) = some .braceOpen := congrArg some sound.opening
    have second : kind? (marker.yield ++ rest).tail = some (.block .single) :=
      congrArg some sound.name
    simp only [Child.yield, first, second, pieceFor]
    exact map_eq_ok.mpr ⟨marker, marker_eq_ok.mpr ⟨rfl, sound⟩, rfl⟩
  | raw element head body =>
    obtain ⟨first, last⟩ := formed
    have opener : kind? (head.yield ++ (body.yield ++ rest)) = some (.rawOpen element) :=
      congrArg some first.opening
    simp only [Child.yield, List.append_assoc, opener, pieceFor]
    exact map_eq_ok.mpr ⟨_, rawTag_of_formed first last, rfl⟩
  | selfClosed head slash angle =>
    obtain ⟨formed, first, last⟩ := formed
    have opener : kind? (head.yield ++ slash :: angle :: rest) = some .openTag :=
      congrArg some formed.opening
    simp only [Child.yield, List.append_assoc, List.cons_append, List.nil_append, opener, pieceFor]
    exact tag_of_selfClosed formed first last
  | block first others finish => cases leaf
  | void head angle => cases leaf
  | element head angle content close => cases leaf

theorem piece_of_angle {head : Head τ} {angle : τ} {rest : List τ}
    (formed : head.Formed .whole .openTag (angle :: rest)) (last : kind angle = .angle) :
    Concrete.piece (head.yield ++ angle :: rest) = .ok (.element head angle, rest) := by
  have opener : kind? (head.yield ++ angle :: rest) = some .openTag := congrArg some formed.opening
  simp only [Concrete.piece, opener, pieceFor]
  exact tag_of_angle formed last

theorem piece_of_marker {marker : Marker τ} {rest : List τ} (formed : marker.Formed .opening) :
    Concrete.piece (marker.yield ++ rest) = .ok (.branch marker, rest) := by
  have first : kind? (marker.yield ++ rest) = some .braceOpen := congrArg some formed.opening
  have second : kind? (marker.yield ++ rest).tail = some (.block .opening) :=
    congrArg some formed.name
  simp only [Concrete.piece, first, second, pieceFor]
  exact map_eq_ok.mpr ⟨marker, marker_eq_ok.mpr ⟨rfl, formed⟩, rfl⟩

end Template.Concrete
