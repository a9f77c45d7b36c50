import Template.Concrete.Build
import Template.Concrete.Yield

set_option autoImplicit false

namespace Template

instance {τ ι : Type} [Terminal τ] : Terminal (τ × ι) where
  kind token := Terminal.kind token.1
  tagName token := Terminal.tagName token.1
  blockName token := Terminal.blockName token.1

namespace Concrete

variable {τ σ : Type} (f : τ → σ)

def Braced.map (script : Braced τ) : Braced σ :=
  ⟨f script.opening, script.blank.map f, f script.content, f script.closing⟩

def Marker.map (marker : Marker τ) : Marker σ :=
  ⟨f marker.opening, f marker.name, marker.blank.map f, marker.script.map f, f marker.closing⟩

def BlockEnd.map (finish : BlockEnd τ) : BlockEnd σ :=
  ⟨f finish.opening, f finish.name, finish.blank.map f, f finish.closing⟩

def Part.map : Part τ → Part σ
  | text token => text (f token)
  | braced script => braced (script.map f)

def Value.map : Value τ → Value σ
  | quoted quote opening parts closing =>
    quoted quote (f opening) (parts.map (Part.map f)) (f closing)
  | bare parts => bare (parts.map (Part.map f))

def Modifier.map (modifier : Modifier τ) : Modifier σ := ⟨f modifier.pipe, f modifier.name⟩

def Assigned.map (assigned : Assigned τ) : Assigned σ := ⟨f assigned.equal, assigned.value.map f⟩

def Attribute.map : Attribute τ → Attribute σ
  | named name modifiers value =>
    named (f name) (modifiers.map (Modifier.map f)) (value.map (Assigned.map f))
  | braced script => braced (script.map f)

def Item.map (item : Item τ) : Item σ := ⟨item.blank.map f, item.entry.map f⟩

def Head.map (head : Head τ) : Head σ :=
  ⟨f head.opening, head.items.map (Item.map f), head.blank.map f⟩

def CloseTag.map (close : CloseTag τ) : CloseTag σ :=
  ⟨f close.opening, close.blank.map f, f close.angle⟩

def RawBody.map : RawBody τ → RawBody σ
  | selfClosed closing => selfClosed (f closing)
  | content angle rest => content (f angle) (f rest)

mutual

def Child.map : Child τ → Child σ
  | .text token => .text (f token)
  | .comment token => .comment (f token)
  | .braced script => .braced (script.map f)
  | .single marker => .single (marker.map f)
  | .block first others finish =>
    .block (first.map) (Branch.maps others) (finish.map (BlockEnd.map f))
  | .raw element head body => .raw element (head.map f) (body.map f)
  | .selfClosed head slash angle => .selfClosed (head.map f) (f slash) (f angle)
  | .void head angle => .void (head.map f) (f angle)
  | .element head angle content close =>
    .element (head.map f) (f angle) (Child.maps content) (close.map (CloseTag.map f))

def Branch.map : Branch τ → Branch σ
  | ⟨marker, content⟩ => ⟨marker.map f, Child.maps content⟩

def Child.maps : List (Child τ) → List (Child σ)
  | [] => []
  | child :: rest => child.map :: Child.maps rest

def Branch.maps : List (Branch τ) → List (Branch σ)
  | [] => []
  | branch :: rest => branch.map :: Branch.maps rest

end

theorem Child.maps_eq (children : List (Child τ)) :
    Child.maps f children = children.map (Child.map f) := by
  induction children with
  | nil => rfl
  | cons child rest ih => rw [Child.maps, ih, List.map_cons]

theorem Branch.maps_eq (branches : List (Branch τ)) :
    Branch.maps f branches = branches.map (Branch.map f) := by
  induction branches with
  | nil => rfl
  | cons branch rest ih => rw [Branch.maps, ih, List.map_cons]

def Mismatch.map (mismatch : Mismatch τ) : Mismatch σ := ⟨mismatch.expected, mismatch.rest.map f⟩

def Piece.map : Piece τ → Piece σ
  | whole child => whole (child.map f)
  | element head angle => element (head.map f) (f angle)
  | branch marker => branch (marker.map f)

def Cause.map : Cause τ → Cause σ
  | mismatch expected found => mismatch expected (found.map f)
  | unexpected token => unexpected (f token)
  | missingClose name found => missingClose name (found.map f)
  | strayClose name inside => strayClose name inside
  | missingEnd opened found => missingEnd opened (found.map f)
  | wrongEnd opened closed => wrongEnd opened closed
  | tooDeep => tooDeep

def Site.map : Site τ → Site σ
  | across first last => across (f first) (f last)
  | before token => before (f token)
  | finish => finish

def Fault.map (fault : Fault τ) : Fault σ := ⟨fault.cause.map f, fault.site.map f⟩

def Frame.map : Frame τ → Frame σ
  | element head angle children => element (head.map f) (f angle) (children.map (Child.map f))
  | block earlier marker children =>
    block (earlier.map (Branch.map f)) (marker.map f) (children.map (Child.map f))

def Builder.map (builder : Builder τ) : Builder σ :=
  ⟨builder.rest.map f, builder.frames.map (Frame.map f), builder.children.map (Child.map f),
    builder.faults.map (Fault.map f)⟩

def Built.map (built : Built τ) : Built σ :=
  ⟨built.children.map (Child.map f), built.faults.map (Fault.map f)⟩

section Twice

variable {ρ : Type} (g : σ → ρ)

@[simp] theorem Braced.map_map (script : Braced τ) :
    (script.map f).map g = script.map (g ∘ f) := by
  simp only [Braced.map, Option.map_map, Function.comp_apply]

@[simp] theorem Marker.map_map (marker : Marker τ) :
    (marker.map f).map g = marker.map (g ∘ f) := by
  simp only [Marker.map, Option.map_map, Function.comp_apply]

@[simp] theorem BlockEnd.map_map (finish : BlockEnd τ) :
    (finish.map f).map g = finish.map (g ∘ f) := by
  simp only [BlockEnd.map, Option.map_map, Function.comp_apply]

@[simp] theorem Part.map_map (part : Part τ) : (part.map f).map g = part.map (g ∘ f) := by
  cases part <;> simp only [Part.map, Braced.map_map, Function.comp_apply]

@[simp] theorem Value.map_map (value : Value τ) : (value.map f).map g = value.map (g ∘ f) := by
  cases value <;>
    simp only [Value.map, List.map_map, Function.comp_def, Part.map_map]

@[simp] theorem Modifier.map_map (modifier : Modifier τ) :
    (modifier.map f).map g = modifier.map (g ∘ f) := rfl

@[simp] theorem Assigned.map_map (assigned : Assigned τ) :
    (assigned.map f).map g = assigned.map (g ∘ f) := by
  simp only [Assigned.map, Value.map_map, Function.comp_apply]

@[simp] theorem Attribute.map_map (entry : Attribute τ) :
    (entry.map f).map g = entry.map (g ∘ f) := by
  cases entry <;>
    simp only [Attribute.map, List.map_map, Option.map_map, Function.comp_def, Modifier.map_map,
      Assigned.map_map, Braced.map_map]

@[simp] theorem Item.map_map (item : Item τ) : (item.map f).map g = item.map (g ∘ f) := by
  simp only [Item.map, Option.map_map, Attribute.map_map]

@[simp] theorem Head.map_map (head : Head τ) : (head.map f).map g = head.map (g ∘ f) := by
  simp only [Head.map, List.map_map, Option.map_map, Function.comp_def, Item.map_map]

@[simp] theorem CloseTag.map_map (close : CloseTag τ) :
    (close.map f).map g = close.map (g ∘ f) := by
  simp only [CloseTag.map, Option.map_map, Function.comp_apply]

@[simp] theorem RawBody.map_map (body : RawBody τ) :
    (body.map f).map g = body.map (g ∘ f) := by
  cases body <;> rfl

mutual

@[simp] theorem Child.map_map : ∀ child : Child τ, (child.map f).map g = child.map (g ∘ f)
  | .text _ | .comment _ => rfl
  | .braced script => congrArg Child.braced (script.map_map f g)
  | .single marker => congrArg Child.single (marker.map_map f g)
  | .block first others finish => by
    simp only [Child.map, first.map_map, Branch.maps_maps others, Option.map_map,
      Function.comp_def, BlockEnd.map_map]
  | .raw _ _ _ => by simp only [Child.map, Head.map_map, RawBody.map_map]
  | .selfClosed _ _ _ | .void _ _ => by simp only [Child.map, Head.map_map, Function.comp_apply]
  | .element _ _ content _ => by
    simp only [Child.map, Head.map_map, Child.maps_maps content, Option.map_map,
      Function.comp_def, CloseTag.map_map]

theorem Branch.map_map : ∀ branch : Branch τ, (branch.map f).map g = branch.map (g ∘ f)
  | ⟨_, content⟩ => by simp only [Branch.map, Marker.map_map, Child.maps_maps content]

theorem Child.maps_maps : ∀ children : List (Child τ),
    Child.maps g (Child.maps f children) = Child.maps (g ∘ f) children
  | [] => rfl
  | child :: rest => by simp only [Child.maps, child.map_map, Child.maps_maps rest]

theorem Branch.maps_maps : ∀ branches : List (Branch τ),
    Branch.maps g (Branch.maps f branches) = Branch.maps (g ∘ f) branches
  | [] => rfl
  | branch :: rest => by simp only [Branch.maps, branch.map_map, Branch.maps_maps rest]

end

@[simp] theorem Fault.map_map (fault : Fault τ) : (fault.map f).map g = fault.map (g ∘ f) := by
  obtain ⟨cause, site⟩ := fault
  cases cause <;> cases site <;>
    simp only [Fault.map, Cause.map, Site.map, Option.map_map, Function.comp_apply]

/-- Replacing tokens and then those in their place is replacing them once. -/
theorem Built.map_map (built : Built τ) : (built.map f).map g = built.map (g ∘ f) := by
  simp only [Built.map, List.map_map, Function.comp_def, Child.map_map, Fault.map_map]

end Twice

end Concrete

end Template
