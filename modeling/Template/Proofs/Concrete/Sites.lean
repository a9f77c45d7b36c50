import Template.Proofs.Concrete.Ledger

set_option autoImplicit false

namespace Template.Concrete

variable {τ : Type}

theorem Site.Within.suffix {tokens rest : List τ} {site : Site τ} (within : site.Within rest)
    (after : rest <:+ tokens) : site.Within tokens := by
  cases site with
  | across first last =>
    obtain ⟨run, inside, head, final⟩ := within
    exact ⟨run, inside.trans after.isInfix, head, final⟩
  | before token => exact after.subset within
  | finish => trivial

/-- The tokens that a recovery drops are among those it finds. -/
theorem Site.within_dropped (lost dropped rest : List τ) :
    (Site.dropped dropped rest).Within (lost ++ (dropped ++ rest)) := by
  refine Site.Within.suffix ?_ (List.suffix_append lost _)
  cases dropped with
  | nil => exact Builder.within_at rest
  | cons token more =>
    refine Builder.within_run rfl rfl ?_
    rw [List.getLast?_cons, List.getLastD_eq_getLast?]

theorem infix_append_of_or {first second part : List τ}
    (inside : part <:+: first ∨ part <:+: second) : part <:+: first ++ second := by
  rcases inside with inside | inside
  · exact inside.trans (List.prefix_append first second).isInfix
  · exact inside.trans (List.suffix_append first second).isInfix

mutual

/-- The tokens of a child inside a child stand side by side. -/
theorem Child.yield_infix : ∀ {child : Child τ}, ∀ inner ∈ child.family,
    inner.yield <:+: child.yield
  | .block first others finish, inner, member => by
    rcases List.mem_cons.mp member with rfl | member
    · exact List.infix_rfl
    · refine infix_append_of_or (.inl (infix_append_of_or ?_))
      exact (List.mem_append.mp member).imp (Branch.yield_infix inner) (Branch.yields_infix inner)
  | .element head angle content close, inner, member => by
    rcases List.mem_cons.mp member with rfl | member
    · exact List.infix_rfl
    · rw [Child.yield, List.append_assoc]
      refine infix_append_of_or (.inr (infix_append_of_or (.inl ?_)))
      exact (Child.yields_infix inner member).trans (List.suffix_cons _ _).isInfix
  | .text _, _, member => List.mem_singleton.mp member ▸ List.infix_rfl
  | .comment _, _, member => List.mem_singleton.mp member ▸ List.infix_rfl
  | .braced _, _, member => List.mem_singleton.mp member ▸ List.infix_rfl
  | .single _, _, member => List.mem_singleton.mp member ▸ List.infix_rfl
  | .raw _ _ _, _, member => List.mem_singleton.mp member ▸ List.infix_rfl
  | .selfClosed _ _ _, _, member => List.mem_singleton.mp member ▸ List.infix_rfl
  | .void _ _, _, member => List.mem_singleton.mp member ▸ List.infix_rfl

theorem Branch.yield_infix : ∀ {branch : Branch τ}, ∀ inner ∈ branch.family,
    inner.yield <:+: branch.yield
  | ⟨_, _⟩, inner, member => infix_append_of_or (.inr (Child.yields_infix inner member))

theorem Child.yields_infix : ∀ {children : List (Child τ)}, ∀ inner ∈ Child.families children,
    inner.yield <:+: Child.yields children
  | [], _, member => nomatch member
  | _ :: _, inner, member => infix_append_of_or
    ((List.mem_append.mp member).imp (Child.yield_infix inner) (Child.yields_infix inner))

theorem Branch.yields_infix : ∀ {branches : List (Branch τ)}, ∀ inner ∈ Branch.families branches,
    inner.yield <:+: Branch.yields branches
  | [], _, member => nomatch member
  | _ :: _, inner, member => infix_append_of_or
    ((List.mem_append.mp member).imp (Branch.yield_infix inner) (Branch.yields_infix inner))

end

variable [Terminal τ]

/-- A raw element has the body that its kind asks for. Nothing is asked of other children. -/
def Child.Bodied : Child τ → Prop
  | .raw known _ body => body.Formed known
  | _ => True

theorem Child.AtOnce.bodied {child : Child τ} (atOnce : child.AtOnce) :
    ∀ inner ∈ child.family, inner.Bodied := by
  cases child with
  | block => cases atOnce
  | element head angle content close =>
    obtain ⟨rfl, -⟩ := atOnce
    exact List.forall_mem_singleton.mpr trivial
  | raw known head body => exact List.forall_mem_singleton.mpr atOnce
  | _ => exact List.forall_mem_singleton.mpr trivial

namespace Builder

/-- What is left is an end of what was left. -/
theorem rest_of_move {before after : Builder τ} (move : Move before after) :
    after.rest <:+ before.rest := by
  cases move with
  | drop lost dropped rest cause here =>
    exact here ▸ (List.suffix_append dropped rest).trans (List.suffix_append lost _)
  | note => exact List.suffix_refl _
  | add child rest here =>
    rw [rest_add, here]
    exact List.suffix_append _ _
  | openElement head angle rest here =>
    exact here ▸ (List.suffix_cons angle rest).trans (List.suffix_append _ _)
  | openBlock marker rest here => exact here ▸ List.suffix_append _ _
  | turn below earlier marker next children rest inside here =>
    exact here ▸ List.suffix_append _ _
  | endElement below head angle children close rest inside here =>
    rw [endElement, rest_add, here]
    exact List.suffix_append _ _
  | endBlock below earlier marker children finish rest inside here =>
    rw [endBlock, rest_add, here]
    exact List.suffix_append _ _

theorem rest_of_does {before after : Builder τ} (does : Does before after) :
    after.rest <:+ before.rest :=
  keeps_of_does (fun later => later.rest <:+ before.rest)
    (fun _ _ move earlier => (rest_of_move move).trans earlier) does (List.suffix_refl _)

/-- A fault that a move records concerns tokens that were left. -/
theorem within_of_move {before after : Builder τ} (move : Move before after) :
    ∀ fault ∈ after.faults, fault ∈ before.faults ∨ fault.site.Within before.rest := by
  cases move with
  | drop lost dropped rest cause here =>
    refine List.forall_mem_cons.mpr ⟨.inr ?_, fun fault => .inl⟩
    rw [here]
    exact Site.within_dropped lost dropped rest
  | note cause site within => exact List.forall_mem_cons.mpr ⟨.inr within, fun fault => .inl⟩
  | add => simp only [faults_add]; exact fun fault => .inl
  | openElement => exact fun fault => .inl
  | openBlock => exact fun fault => .inl
  | turn => exact fun fault => .inl
  | endElement => simp only [endElement, faults_add]; exact fun fault => .inl
  | endBlock => simp only [endBlock, faults_add]; exact fun fault => .inl

/-- A child that a move completes has its body. -/
theorem bodied_of_move {before after : Builder τ} (move : Move before after) :
    ∀ child ∈ after.finished, child ∈ before.finished ∨ child.Bodied := by
  cases move with
  | drop | note => exact fun child => .inl
  | add child rest here atOnce =>
    rw [finished_add]
    exact List.forall_mem_append.mpr ⟨fun child => .inl, fun child member =>
      .inr (atOnce.bodied child member)⟩
  | openElement head angle rest here =>
    simp only [finished, List.reverse_cons, List.flatMap_append, List.flatMap_singleton,
      Frame.finished, List.reverse_nil, Child.families, List.append_nil]
    exact fun child => .inl
  | openBlock marker rest here =>
    simp only [finished, List.reverse_cons, List.flatMap_append, List.flatMap_singleton,
      Frame.finished, List.reverse_nil, Child.families, Branch.families, List.append_nil]
    exact fun child => .inl
  | turn below earlier marker next children rest inside here =>
    rw [finished_of_frames inside]
    simp only [finished, List.reverse_cons, List.flatMap_append, List.flatMap_singleton,
      Frame.finished, Branch.families_append, Branch.families, Branch.family, List.append_nil,
      List.reverse_nil, Child.families, List.append_assoc]
    exact fun child => .inl
  | endElement below head angle children close rest inside here =>
    rw [endElement, finished_add, finished_of_frames inside]
    simp only [List.mem_append, Child.family, List.mem_cons, Frame.finished]
    rintro child (member | rfl | member)
    · exact .inl (.inl member)
    · exact .inr trivial
    · exact .inl (.inr member)
  | endBlock below earlier marker children finish rest inside here =>
    rw [endBlock, finished_add, finished_of_frames inside, family_blockOf]
    simp only [List.mem_append, Branch.family, Branch.families, List.append_nil, List.mem_cons,
      Frame.finished]
    rintro child (member | rfl | member)
    · exact .inl (.inl member)
    · refine .inr ?_
      obtain ⟨first, others, -, block, -⟩ := exists_blockOf earlier marker children.reverse
      rw [block]
      trivial
    · exact .inl (.inr member)

structure Sound (tokens : List τ) (builder : Builder τ) : Prop where
  rest : builder.rest <:+ tokens
  within : ∀ fault ∈ builder.faults, fault.site.Within tokens
  bodied : ∀ child ∈ builder.finished, child.Bodied

theorem sound_of_move {tokens : List τ} {before after : Builder τ} (move : Move before after)
    (sound : before.Sound tokens) : after.Sound tokens where
  rest := (rest_of_move move).trans sound.rest
  within := fun fault recorded => (within_of_move move fault recorded).elim (sound.within fault)
    fun within => within.suffix sound.rest
  bodied := fun child member => (bodied_of_move move child member).elim (sound.bodied child) id

end Builder

omit [Terminal τ] in
theorem Accounted.sublist {tokens held rest : List τ} {faults : List (Fault τ)}
    (accounted : Accounted tokens held faults rest) :
    ∃ front, tokens = front ++ rest ∧ held.Sublist front := by
  induction accounted with
  | start => exact ⟨[], rfl, List.Sublist.refl _⟩
  | keep kept before ih =>
    obtain ⟨front, here, sub⟩ := ih
    exact ⟨front ++ kept, by rw [here, List.append_assoc], sub.append (List.Sublist.refl kept)⟩
  | note fault before ih => exact ih
  | drop lost dropped cause before ih =>
    obtain ⟨front, here, sub⟩ := ih
    exact ⟨front ++ (lost ++ dropped), by simp only [here, List.append_assoc],
      sub.trans (List.sublist_append_left _ _)⟩

/-- A tree holds its tokens in the order of the input. -/
theorem yields_sublist (tokens : List τ) : (Child.yields (build tokens).children).Sublist tokens := by
  obtain ⟨front, here, sub⟩ := (accounted_build tokens).sublist
  rw [List.append_nil] at here
  exact here ▸ sub

theorem sound_build (tokens : List τ) :
    (∀ fault ∈ (build tokens).faults, fault.site.Within tokens) ∧
      ∀ child ∈ Child.families (build tokens).children, child.Bodied := by
  have sound : (Builder.machine.exhaust (.start tokens)).Sound tokens := by
    refine Builder.keeps_of_moves (Builder.Sound tokens)
      (fun _ _ move sound => Builder.sound_of_move move sound)
      (Builder.machine.reaches_exhaust (.start tokens)) ?_
    exact ⟨List.suffix_refl _, List.forall_mem_nil _, List.forall_mem_nil _⟩
  refine ⟨fun fault recorded => sound.within fault (List.mem_reverse.mp recorded), ?_⟩
  rw [← finished_exhaust]
  exact sound.bodied

end Template.Concrete
