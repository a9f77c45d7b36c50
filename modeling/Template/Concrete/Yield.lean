import Template.Concrete

set_option autoImplicit false

namespace Template.Concrete

variable {τ : Type}

def Braced.yield (script : Braced τ) : List τ :=
  script.opening :: script.blank.toList ++ [script.content, script.closing]

def Marker.yield (marker : Marker τ) : List τ :=
  [marker.opening, marker.name] ++ marker.blank.toList ++ marker.script.toList ++ [marker.closing]

def BlockEnd.yield (finish : BlockEnd τ) : List τ :=
  [finish.opening, finish.name] ++ finish.blank.toList ++ [finish.closing]

def Part.yield : Part τ → List τ
  | text token => [token]
  | braced script => script.yield

def Value.yield : Value τ → List τ
  | quoted _ opening parts closing => opening :: parts.flatMap Part.yield ++ [closing]
  | bare parts => parts.flatMap Part.yield

def Modifier.yield (modifier : Modifier τ) : List τ := [modifier.pipe, modifier.name]

def Assigned.yield (assigned : Assigned τ) : List τ := assigned.equal :: assigned.value.yield

def Attribute.yield : Attribute τ → List τ
  | named name modifiers value =>
    name :: modifiers.flatMap Modifier.yield ++ value.toList.flatMap Assigned.yield
  | braced script => script.yield

def Item.yield (item : Item τ) : List τ := item.blank.toList ++ item.entry.yield

def Head.yield (head : Head τ) : List τ :=
  head.opening :: head.items.flatMap Item.yield ++ head.blank.toList

def CloseTag.yield (close : CloseTag τ) : List τ :=
  close.opening :: close.blank.toList ++ [close.angle]

def RawBody.yield : RawBody τ → List τ
  | selfClosed closing => [closing]
  | content angle rest => [angle, rest]

mutual

def Child.yield : Child τ → List τ
  | .text token => [token]
  | .comment token => [token]
  | .braced script => script.yield
  | .single marker => marker.yield
  | .block first others finish =>
    first.yield ++ Branch.yields others ++ finish.toList.flatMap BlockEnd.yield
  | .raw _ head body => head.yield ++ body.yield
  | .selfClosed head slash angle => head.yield ++ [slash, angle]
  | .void head angle => head.yield ++ [angle]
  | .element head angle content close =>
    head.yield ++ angle :: Child.yields content ++ close.toList.flatMap CloseTag.yield

def Branch.yield : Branch τ → List τ
  | ⟨marker, content⟩ => marker.yield ++ Child.yields content

def Child.yields : List (Child τ) → List τ
  | [] => []
  | child :: rest => child.yield ++ Child.yields rest

def Branch.yields : List (Branch τ) → List τ
  | [] => []
  | branch :: rest => branch.yield ++ Branch.yields rest

end

theorem Braced.yield_append (script : Braced τ) (rest : List τ) :
    script.yield ++ rest =
      script.opening :: (script.blank.toList ++ script.content :: script.closing :: rest) := by
  simp only [Braced.yield, List.cons_append, List.append_assoc, List.nil_append]

theorem Marker.yield_append (marker : Marker τ) (rest : List τ) :
    marker.yield ++ rest =
      marker.opening :: marker.name ::
        (marker.blank.toList ++ (marker.script.toList ++ marker.closing :: rest)) := by
  simp only [Marker.yield, List.cons_append, List.append_assoc, List.nil_append]

theorem BlockEnd.yield_append (finish : BlockEnd τ) (rest : List τ) :
    finish.yield ++ rest =
      finish.opening :: finish.name :: (finish.blank.toList ++ finish.closing :: rest) := by
  simp only [BlockEnd.yield, List.cons_append, List.append_assoc, List.nil_append]

theorem CloseTag.yield_append (close : CloseTag τ) (rest : List τ) :
    close.yield ++ rest = close.opening :: (close.blank.toList ++ close.angle :: rest) := by
  simp only [CloseTag.yield, List.cons_append, List.append_assoc, List.nil_append]

theorem Head.yield_append (head : Head τ) (rest : List τ) :
    head.yield ++ rest =
      head.opening :: (head.items.flatMap Item.yield ++ (head.blank.toList ++ rest)) := by
  simp only [Head.yield, List.cons_append, List.append_assoc]

theorem Child.yields_eq (children : List (Child τ)) :
    Child.yields children = children.flatMap Child.yield := by
  induction children with
  | nil => rfl
  | cons child rest ih => rw [Child.yields, ih, List.flatMap_cons]

theorem Branch.yields_eq (branches : List (Branch τ)) :
    Branch.yields branches = branches.flatMap Branch.yield := by
  induction branches with
  | nil => rfl
  | cons branch rest ih => rw [Branch.yields, ih, List.flatMap_cons]

theorem Child.yields_append (first second : List (Child τ)) :
    Child.yields (first ++ second) = Child.yields first ++ Child.yields second := by
  simp only [Child.yields_eq, List.flatMap_append]

theorem Branch.yields_append (first second : List (Branch τ)) :
    Branch.yields (first ++ second) = Branch.yields first ++ Branch.yields second := by
  simp only [Branch.yields_eq, List.flatMap_append]

end Template.Concrete
