import LiveTemplate.Dict
import LiveTemplate.Markup.Namespace
import LiveTemplate.Text.Reference

/-!
# LiveTemplate.Dom.Tree

Trees of elements, texts, comments and fragments, and the HTML they are written as.

A tree is labelled: with node numbers when it is a view of a document, with nothing
when it is only a shape.
-/

namespace LiveTemplate

/-- What a node is apart from its place. -/
inductive NodeData where
  | element (tag : String) (ns : Namespace) (attributes : Dict String)
  | text (text : String)
  | comment (text : String)
  | fragment
deriving Repr, DecidableEq, Inhabited

namespace NodeData

def isText : NodeData → Bool
  | text _ => true
  | _ => false

def isElement : NodeData → Bool
  | element .. => true
  | _ => false

def isFragment : NodeData → Bool
  | fragment => true
  | _ => false

/-- The tag of an element. -/
def tag? : NodeData → Option String
  | element tag _ _ => some tag
  | _ => none

/-- The namespace of an element. -/
def ns? : NodeData → Option Namespace
  | element _ ns _ => some ns
  | _ => none

/-- The content of a text or of a comment. -/
def text? : NodeData → Option String
  | text s | comment s => some s
  | _ => none

/-- The namespace children of the node are created in.  Below anything but an element this is
XHTML. -/
def nsBelow : NodeData → Namespace
  | element tag ns _ => ns.below tag
  | _ => .xhtml

/-- Whether nodes can be written below this one. -/
def hasContent : NodeData → Bool
  | element tag ns _ => !(ns == .xhtml && isVoidTag tag)
  | fragment => true
  | text _ | comment _ => false

/-- Changes the attributes of an element. -/
def mapAttributes (f : Dict String → Dict String) : NodeData → NodeData
  | element tag ns attributes => element tag ns (f attributes)
  | data => data

/-- Changes the content of a text or of a comment. -/
def setText (s : String) : NodeData → NodeData
  | text _ => text s
  | comment _ => comment s
  | data => data

end NodeData

/-- A tree whose nodes are labelled. -/
inductive Tree (α : Type) where
  | node (label : α) (data : NodeData) (children : List (Tree α))

namespace Tree

variable {α : Type}

def label : Tree α → α
  | node l _ _ => l

def data : Tree α → NodeData
  | node _ d _ => d

def children : Tree α → List (Tree α)
  | node _ _ cs => cs

end Tree

/-- A tree without labels. -/
abbrev Markup := Tree Unit

/-! ## HTML -/

/-- An attribute as written. -/
def attributeHtml (name value : String) : List Char :=
  ' ' :: name.toList ++ '=' :: '"' :: escape .value value.toList ++ ['"']

/-- The start tag of an element. -/
def startTagHtml (tag : String) (attributes : Dict String) : List Char :=
  '<' :: tag.toList ++ attributes.entries.flatMap (fun (name, value) => attributeHtml name value) ++
    ['>']

/-- What is written of a node before and after its children. -/
def NodeData.html (content : List Char) : NodeData → List Char
  | .text s => escape .content s.toList
  | .comment s => ['<', '!', '-', '-'] ++ s.toList ++ ['-', '-', '>']
  | .fragment => content
  | .element tag ns attributes =>
    if (NodeData.element tag ns attributes).hasContent then
      startTagHtml tag attributes ++ content ++ ['<', '/'] ++ tag.toList ++ ['>']
    else startTagHtml tag attributes

mutual

/-- The HTML of a tree.  A fragment is written as its children; an XHTML element with a void
tag has neither content nor end tag. -/
def Tree.html {α : Type} : Tree α → List Char
  | .node _ data children => data.html (forestHtml children)

/-- The HTML of trees, one after the other. -/
def forestHtml {α : Type} : List (Tree α) → List Char
  | [] => []
  | t :: ts => t.html ++ forestHtml ts

end

theorem forestHtml_append {α : Type} (ts us : List (Tree α)) :
    forestHtml (ts ++ us) = forestHtml ts ++ forestHtml us := by
  induction ts with
  | nil => simp [forestHtml]
  | cons t ts ih => simp [forestHtml, ih]

end LiveTemplate
