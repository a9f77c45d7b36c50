import Mathlib.Data.List.Forall2
import Template.Problem
import Template.Proofs.Concrete.Relabel

set_option autoImplicit false

namespace Template

open Concrete (build Cause)

/-- Tokens that look the same to the grammar. -/
structure Token.LooksLike (left right : Token) : Prop where
  kind : left.kind = right.kind
  tagName : left.kind = .openTag ∨ left.kind = .closeTag →
    left.tagName.lower = right.tagName.lower
  blockName : left.kind = .block .opening ∨ left.kind = .block .closing →
    left.blockName = right.blockName

/-- What the grammar sees of a token: its kind, and its name if that matters. -/
structure Seen where
  kind : Kind
  name : Text
deriving DecidableEq, Repr

instance : Terminal Seen := ⟨Seen.kind, Seen.name, Seen.name⟩

namespace Token

def seen (token : Token) : Seen where
  kind := token.kind
  name :=
    match token.kind with
    | .openTag | .closeTag => token.tagName.lower
    | .block .opening | .block .closing => token.blockName
    | _ => []

/-- The grammar sees enough of a token. -/
theorem keeps_seen : Terminal.Keeps seen where
  kind _ := rfl
  tagName token tag := by
    change (seen token).name = token.tagName.lower
    rcases tag with same | same <;>
      (change token.kind = _ at same; simp only [seen, same])
  blockName token block := by
    change (seen token).name = token.blockName
    rcases block with same | same <;>
      (change token.kind = _ at same; simp only [seen, same])

/-- What looks the same is seen as the same. -/
theorem looksLike_iff {left right : Token} : left.LooksLike right ↔ left.seen = right.seen := by
  constructor
  · rintro ⟨kind, tagName, blockName⟩
    unfold seen
    rw [← kind]
    congr 1
    split
    · next same => exact tagName (.inl same)
    · next same => exact tagName (.inr same)
    · next same => exact blockName (.inl same)
    · next same => exact blockName (.inr same)
    · rfl
  · intro same
    have kind : left.kind = right.kind := congrArg Seen.kind same
    have name : left.seen.name = right.seen.name := congrArg Seen.name same
    refine ⟨kind, fun tag => ?_, fun block => ?_⟩
    · have other : right.kind = .openTag ∨ right.kind = .closeTag := kind ▸ tag
      exact (keeps_seen.tagName left tag).symm.trans (name.trans (keeps_seen.tagName right other))
    · have other : right.kind = .block .opening ∨ right.kind = .block .closing := kind ▸ block
      exact (keeps_seen.blockName left block).symm.trans
        (name.trans (keeps_seen.blockName right other))

/-- Tokens that look the same one by one are seen as the same. -/
theorem forall_looksLike_iff {left right : List Token} :
    List.Forall₂ LooksLike left right ↔ left.map seen = right.map seen := by
  rw [← List.forall₂_eq_eq_eq, List.forall₂_map_left_iff, List.forall₂_map_right_iff]
  simp only [← looksLike_iff]

end Token

theorem Concrete.Cause.name_map {τ σ : Type} (f : τ → σ) (cause : Cause τ) :
    (cause.map f).name = cause.name := by
  cases cause with
  | mismatch expected found => cases expected <;> rfl
  | _ => rfl

/-- The tree and the faults of tokens that were numbered are those of the tokens, with numbers. -/
theorem build_zipIdx (tokens : List Token) :
    (build tokens.zipIdx).map Prod.fst = build tokens := by
  rw [← Concrete.build_map Terminal.keeps_fst, List.zipIdx_map_fst]

/-- Tokens that look the same one by one have the same tree and the same faults, told by the
numbers of the tokens in them. -/
theorem build_opaque {left right : List Token}
    (alike : List.Forall₂ Token.LooksLike left right) :
    (build left.zipIdx).map Prod.fst = build left ∧
      (build right.zipIdx).map Prod.fst = build right ∧
      (build left.zipIdx).map Prod.snd = (build right.zipIdx).map Prod.snd ∧
      (build left).faults.map (fun fault => fault.cause.name) =
        (build right).faults.map (fun fault => fault.cause.name) := by
  have numbered : ∀ tokens : List Token, (build tokens.zipIdx).map Prod.snd =
      (build (tokens.map Token.seen).zipIdx).map Prod.snd := by
    intro tokens
    rw [List.zipIdx_map, Concrete.build_map Token.keeps_seen.numbered, Concrete.Built.map_map]
    rfl
  have same : (build left.zipIdx).map Prod.snd = (build right.zipIdx).map Prod.snd := by
    rw [numbered, numbered, Token.forall_looksLike_iff.mp alike]
  have names : ∀ tokens : List Token, (build tokens).faults.map (fun fault => fault.cause.name) =
      ((build tokens.zipIdx).map Prod.snd).faults.map (fun fault => fault.cause.name) := by
    intro tokens
    rw [← build_zipIdx tokens]
    simp only [Concrete.Built.map, List.map_map, Function.comp_def, Concrete.Fault.map,
      Cause.name_map]
  refine ⟨build_zipIdx left, build_zipIdx right, same, ?_⟩
  rw [names, names, same]

def loudPage : Text :=
  "<UL id=a>\x7b#if x\x7d<LI>one\x7b:else y\x7d<!--b-->\x7b/for\x7d<P></UL></B>".toList

/-- The same source with other texts, and with names in other letters. -/
def quietPage : Text :=
  "<ul lang=en>\x7b#if z\x7d<li>four\x7b:case 2\x7d<!---->\x7b/for\x7d<p></Ul></b>".toList

theorem build_opaque_pages :
    (build (scan loudPage).tokens.zipIdx).map Prod.snd =
        (build (scan quietPage).tokens.zipIdx).map Prod.snd ∧
      (build (scan quietPage).tokens).faults.map (fun fault => fault.cause.name) =
        ["MismatchedBlockEnd".toList, "UnexpectedToken".toList] := by
  have alike : List.Forall₂ Token.LooksLike (scan loudPage).tokens (scan quietPage).tokens :=
    Token.forall_looksLike_iff.mpr (by decide +kernel)
  obtain ⟨-, -, same, names⟩ := build_opaque alike
  exact ⟨same, names.symm.trans (by decide +kernel)⟩

end Template
