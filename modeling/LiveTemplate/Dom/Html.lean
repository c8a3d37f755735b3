import LiveTemplate.Dom.Arena
import LiveTemplate.Dom.Builder
import LiveTemplate.Markup.Token.Source

/-!
# LiveTemplate.Dom.Html

Reading HTML into a document.

1. A tag which is void in XHTML, or ends with a slash, has no content.
2. An end tag closes the innermost open element of exactly its name and all that
   was opened inside it.  An end tag of no open element is ignored.
3. Of attributes with one name the last value counts, in the place of the first.
4. HTML with a fault is inserted as the text it is.
-/

namespace LiveTemplate

/-- The element a start tag creates below a node that hands down `inherited`. -/
def NodeData.ofStartTag (tag : StartTag) (inherited : Namespace) : NodeData :=
  .element tag.name (Namespace.ofElement tag.name inherited)
    (.ofPairs (tag.attributes.map fun a => (a.name, a.value.staticText)))

namespace Builder

/-- The namespace that the innermost open node hands down; `root` at the top. -/
def inherited (root : Namespace) (b : Builder) : Namespace :=
  match b.opened with
  | [] => root
  | o :: _ => o.data.nsBelow

/-- Adds a token of HTML. -/
def html (root : Namespace) (b : Builder) : Token → Builder
  | .startTag tag =>
    let data := NodeData.ofStartTag tag (b.inherited root)
    if data.hasContent && !tag.selfClosing then b.enter data else b.leaf data
  | .endTag name _ => b.leaveThrough fun data => data.tag? == some name
  | .text s _ => b.leaf (.text s)
  | .comment s _ => b.leaf (.comment s)
  | .mustache _ => b

end Builder

/-- The trees HTML describes, below a node that hands down `root`. -/
def forestOfHtml (root : Namespace) (html : String) : List Markup :=
  match tokens? .html html with
  | .ok tokens => (tokens.foldl (Builder.html root) {}).finish
  | .error _ => [.node () (.text html) []]

/-- Reads HTML as the content of an element, or of none, into a new fragment. -/
def Dom.parseHtml (dom : Dom) (html : String) (context : Option NodeId) : NodeId × Dom :=
  dom.plantFragment (forestOfHtml (dom.nsBelow context) html)

end LiveTemplate
