import Template.Kind

set_option autoImplicit false

namespace Template

/-- What the scanner is in the middle of. -/
inductive Mode where
  /-- Between tags. -/
  | content
  /-- In an opening or closing tag. -/
  | tag
  /-- In the opening tag of a raw element. -/
  | rawTag (element : RawElement)
  /-- In the content of a raw element. -/
  | rawContent (element : RawElement)
  /-- In a quoted attribute value. -/
  | quoted (quote : Quote)
  /-- Between braces. -/
  | expression
deriving DecidableEq, Repr

/-- What a token does to the stack of modes. -/
inductive Transition where
  | stay
  | push (mode : Mode)
  | pop
  /-- Pops and then pushes. -/
  | replace (mode : Mode)
deriving DecidableEq, Repr

namespace Mode

def attributeKinds : List Kind :=
  [.equal, .pipe, .braceOpen, .quoteOpen .double, .quoteOpen .single, .blank, .attributeText]

/-- The kinds that can come next in a mode, the preferred ones first. -/
def candidates : Mode → List Kind
  | content =>
    [.text, .braceOpen, .comment, .rawOpen .style, .rawOpen .script, .rawOpen .textArea, .openTag,
      .closeTag]
  | tag => [.slash, .colon, .angle] ++ attributeKinds
  | rawTag element => attributeKinds ++ [.rawSelfClose, .slash, .rawAngle element]
  | rawContent element => [.rawRest element]
  | quoted quote => [.braceOpen, .quoted quote, .quoteClose quote]
  | expression =>
    [.blank, .block .single, .block .opening, .block .continuing, .block .closing, .expression,
      .braceClose]

/-- Whether everything up to an end tag is one token. -/
def isRaw : Mode → Bool
  | rawContent _ => true
  | _ => false

def name : Mode → String
  | content => "Content"
  | tag => "Tag"
  | rawTag .script => "ScriptTag"
  | rawTag .style => "StyleTag"
  | rawTag .textArea => "TextAreaTag"
  | rawContent .script => "ScriptContent"
  | rawContent .style => "StyleContent"
  | rawContent .textArea => "TextAreaContent"
  | quoted .double => "DoubleQuoted"
  | quoted .single => "SingleQuoted"
  | expression => "Expression"

end Mode

/-- What a token of this kind does to the stack of modes. -/
def Kind.transition : Kind → Transition
  | openTag | closeTag => .push .tag
  | angle => .pop
  | rawOpen element => .push (.rawTag element)
  | rawAngle element => .replace (.rawContent element)
  | rawRest _ | rawSelfClose => .pop
  | quoteOpen quote => .push (.quoted quote)
  | quoteClose _ => .pop
  | braceOpen => .push .expression
  | braceClose => .pop
  | _ => .stay

/-- The current mode and the modes to return to, the nearest first. There is always a current
mode. -/
structure ModeStack where
  top : Mode
  below : List Mode
deriving DecidableEq, Repr

namespace ModeStack

def initial : ModeStack := ⟨.content, []⟩

def push (stack : ModeStack) (mode : Mode) : ModeStack := ⟨mode, stack.top :: stack.below⟩

/-- Returns to the mode below. The last mode stays. -/
def pop (stack : ModeStack) : ModeStack :=
  match stack.below with
  | [] => stack
  | mode :: below => ⟨mode, below⟩

def apply (stack : ModeStack) : Transition → ModeStack
  | .stay => stack
  | .push mode => stack.push mode
  | .pop => stack.pop
  | .replace mode => stack.pop.push mode

end ModeStack

end Template
