import LiveTemplate.Markup.Namespace
import LiveTemplate.Markup.Token.Source

/-!
# LiveTemplate.Markup.Normal

The normal form of HTML, and comparison of HTML by it.

Attributes are sorted, adjacent texts are one, and a tag that ends with a slash
stands for a start and an end tag unless it is void.  Malformed HTML has no normal
form and is equal to nothing, not even to itself.
-/

namespace LiveTemplate

/-- A token without its range. -/
inductive NormalToken where
  | startTag (name : String) (attributes : List (String × String))
  | endTag (name : String)
  | text (text : String)
  | comment (text : String)
deriving DecidableEq, Repr

/-- Attributes are ordered by name, and by value under one name. -/
def attributeLE (a b : String × String) : Bool :=
  a.1 < b.1 || (a.1 == b.1 && a.2 ≤ b.2)

/-- The names and values of attributes, sorted. -/
def sortedAttributes (attributes : List RawAttribute) : List (String × String) :=
  (attributes.map fun a => (a.name, a.value.staticText)).mergeSort attributeLE

/-- Puts a text in front, joining it to a text that comes first there. -/
def NormalToken.consText (s : String) : List NormalToken → List NormalToken
  | .text t :: tokens => .text (s ++ t) :: tokens
  | tokens => .text s :: tokens

/-- The normal form of tokens. -/
def NormalToken.ofTokens : List Token → List NormalToken
  | [] => []
  | .startTag tag :: tokens =>
    let start := NormalToken.startTag tag.name (sortedAttributes tag.attributes)
    if tag.selfClosing && !isVoidTag tag.name then
      start :: .endTag tag.name :: ofTokens tokens
    else start :: ofTokens tokens
  | .endTag name _ :: tokens => .endTag name :: ofTokens tokens
  | .text s _ :: tokens => consText s (ofTokens tokens)
  | .comment s _ :: tokens => .comment s :: ofTokens tokens
  | .mustache _ :: tokens => ofTokens tokens

/-- The normal form of HTML. -/
def normalizeHtml (html : String) : Except ParseError (List NormalToken) :=
  (tokens? .html html).map NormalToken.ofTokens

/-- Whether two HTML texts have the same normal form. -/
def equalHtml (a b : String) : Bool :=
  match normalizeHtml a, normalizeHtml b with
  | .ok x, .ok y => x == y
  | _, _ => false

theorem equalHtml_comm (a b : String) : equalHtml a b = equalHtml b a := by
  unfold equalHtml
  cases normalizeHtml a <;> cases normalizeHtml b <;> simp [Bool.beq_comm]

end LiveTemplate
