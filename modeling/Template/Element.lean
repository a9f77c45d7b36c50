import Template.Text

set_option autoImplicit false

namespace Template.Element

def voids : List Text :=
  ["area", "base", "br", "col", "embed", "hr", "img", "input", "keygen", "link", "menuitem", "meta",
    "param", "source", "track", "wbr"].map String.toList

def isVoid (name : Text) : Bool := voids.contains name

/-- The elements before which a paragraph ends by itself. -/
def paragraphStops : List String :=
  ["address", "article", "aside", "blockquote", "details", "div", "dl", "fieldset", "figcaption",
    "figure", "footer", "form", "h1", "h2", "h3", "h4", "h5", "h6", "header", "hr", "main", "menu",
    "nav", "ol", "p", "pre", "section", "table", "ul"]

/-- The elements that may leave out their end tag, each with the elements before which it then
ends. -/
def stopTable : List (Text × List Text) :=
  [("li", ["li"]), ("dt", ["dt", "dd"]), ("dd", ["dd", "dt"]), ("p", paragraphStops),
    ("rt", ["rt", "rp"]), ("rp", ["rt", "rp"]), ("optgroup", ["optgroup"]),
    ("option", ["option", "optgroup"]), ("thead", ["tbody", "tfoot"]),
    ("tbody", ["tbody", "tfoot"]), ("tfoot", ["tbody"]), ("tr", ["tr"]), ("td", ["td", "th"]),
    ("th", ["td", "th"])].map fun (name, stops) => (name.toList, stops.map String.toList)

/-- The elements before which an element ends by itself, if it may leave out its end tag. -/
def stops? (name : Text) : Option (List Text) := stopTable.lookup name

def mayEnd (name : Text) : Bool := (stops? name).isSome

end Template.Element
