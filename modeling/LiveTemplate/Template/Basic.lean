import LiveTemplate.Expr.Basic
import LiveTemplate.Markup.Namespace
import LiveTemplate.Text.Cut

/-!
# LiveTemplate.Template.Basic

Templates: trees of elements, text, comments, mustaches, blocks and components.

A body is a list of nodes with the block params that are bound in it.  A template
is the outermost body; a block has a body and possibly an inverse, the part behind
`else`; a component has a body.
-/

namespace LiveTemplate

/-- What a template keeps, and which tags it takes for components. -/
structure TemplateOptions where
  /-- Tags with a dash invoke components; otherwise they are elements like any other. -/
  components : Bool := true
  keepComments : Bool := true
deriving DecidableEq, Repr, Inhabited

/-- A mustache that shows a value, as text or as markup. -/
structure Insertion where
  call : Call
  escaped : Bool
  span : Span
deriving Inhabited

/-- A part of an attribute value. -/
inductive AttributePart where
  | text (text : String)
  | insertion (insertion : Insertion)

/-- An attribute value: a text, a mustache without quotes, or parts to be joined. -/
inductive AttributeValue where
  | static (text : String)
  | bare (insertion : Insertion)
  | joined (parts : List AttributePart)

/-- Whether the value is known before rendering. -/
def AttributeValue.isStatic : AttributeValue → Bool
  | static _ => true
  | bare _ | joined _ => false

structure Attribute where
  name : String
  value : AttributeValue
  span : Span

/-- What an element is apart from its children. -/
structure ElementTag where
  name : String
  ns : Namespace
  attributes : List Attribute
  modifiers : List Call
  /-- The element has no end tag: its tag is void or ends with a slash. -/
  selfClosing : Bool

/-- What a component is apart from its body. -/
structure ComponentTag where
  name : String
  attributes : List Attribute

/-- A list of nodes with the block params bound in it. -/
structure Body (Node : Type) where
  children : List Node := []
  blockParams : List String := []
  span : Span := {}

/-- A node of a template. -/
inductive Node where
  | text (text : String) (span : Span)
  | comment (text : String) (span : Span)
  | insertion (insertion : Insertion)
  | element (tag : ElementTag) (children : List Node) (span : Span)
  | block (call : Call) (body : Body Node) (inverse : Option (Body Node)) (span : Span)
  | component (tag : ComponentTag) (body : Body Node) (span : Span)

/-- A template is its outermost body. -/
abbrev Template := Body Node

/-- The range of a node. -/
def Node.span : Node → Span
  | text _ span | comment _ span | element _ _ span | block _ _ _ span | component _ _ span => span
  | insertion i => i.span

end LiveTemplate
