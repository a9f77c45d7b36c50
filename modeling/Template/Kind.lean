set_option autoImplicit false

namespace Template

/-- The elements whose content is plain text up to their end tag. -/
inductive RawElement where
  | script
  | style
  | textArea
deriving DecidableEq, Repr

/-- The two quotes around attribute values. -/
inductive Quote where
  | double
  | single
deriving DecidableEq, Repr

/-- The characters that make a brace open a block instead of an expression. -/
inductive Sigil where
  /-- A block of one clause, as in `{@html}`. -/
  | single
  /-- The first clause of a branching block, as in `{#if}`. -/
  | opening
  /-- A further clause of a branching block, as in `{:else}`. -/
  | continuing
  /-- The end of a branching block, as in `{/if}`. -/
  | closing
deriving DecidableEq, Repr

inductive Kind where
  | blank
  | text
  | comment
  /-- The opening of a tag, `<name`. -/
  | openTag
  /-- The opening of a closing tag, `</name`. -/
  | closeTag
  /-- The opening of a raw element, such as `<script`. -/
  | rawOpen (element : RawElement)
  /-- The `>` after which the content of a raw element begins. -/
  | rawAngle (element : RawElement)
  /-- The content of a raw element together with its end tag. -/
  | rawRest (element : RawElement)
  /-- The `/>` of a raw element without content. -/
  | rawSelfClose
  | slash
  | colon
  | equal
  | pipe
  | angle
  | attributeText
  | quoteOpen (quote : Quote)
  | quoted (quote : Quote)
  | quoteClose (quote : Quote)
  | braceOpen
  | braceClose
  | expression
  | block (sigil : Sigil)
deriving DecidableEq, Repr

namespace RawElement

/-- The name of the element, in small letters. -/
def name : RawElement → String
  | script => "script"
  | style => "style"
  | textArea => "textarea"

/-- The end tag of the element, in small letters. -/
def endTag (element : RawElement) : String := "</" ++ element.name ++ ">"

end RawElement

def Quote.char : Quote → Char
  | double => '"'
  | single => '\''

def Sigil.char : Sigil → Char
  | single => '@'
  | opening => '#'
  | continuing => ':'
  | closing => '/'

def Kind.describe : Kind → String
  | blank => "whitespace"
  | text => "text"
  | comment => "comment"
  | openTag => "open tag"
  | closeTag => "close tag"
  | rawOpen element => "'<" ++ element.name ++ "'"
  | rawAngle _ | angle => "'>'"
  | rawRest element => element.name ++ " content and '" ++ element.endTag ++ "'"
  | rawSelfClose => "'/>'"
  | slash => "'/'"
  | colon => "':'"
  | equal => "'='"
  | pipe => "'|'"
  | attributeText => "attribute text"
  | quoteOpen .double | quoteClose .double => "'\"'"
  | quoteOpen .single | quoteClose .single => "\"'\""
  | quoted _ => "string content"
  | braceOpen => "'\x7b'"
  | braceClose => "'\x7d'"
  | expression => "expression"
  | block .single => "'@' block"
  | block .opening => "'#' block"
  | block .continuing => "':' branch"
  | block .closing => "'/' block end"

end Template
