import LiveTemplate.Markup.Mustache

/-!
# LiveTemplate.Markup.Token

The tokens of a source: tags, text, comments and mustaches, in the order in which
they stand there.

Names are kept as written.  References are decoded in text and in attribute
values, never in comments and mustaches.
-/

namespace LiveTemplate

/-- A piece of an attribute value. -/
inductive Chunk where
  | text (text : String)
  | mustache (mustache : Mustache)
deriving DecidableEq, Repr

/-- An attribute value as written: absent, between quotes, or bare. -/
inductive RawValue where
  | empty
  | quoted (chunks : List Chunk)
  | unquoted (chunks : List Chunk)
deriving DecidableEq, Repr

/-- An attribute as written.  Its range goes from its name to the end of its value. -/
structure RawAttribute where
  name : String
  value : RawValue
  span : Span
deriving DecidableEq, Repr

/-- A start tag.  `modifiers` are the mustaches between its attributes. -/
structure StartTag where
  name : String
  attributes : List RawAttribute
  modifiers : List Mustache
  selfClosing : Bool
  span : Span
deriving DecidableEq, Repr

/-- A token of a source. -/
inductive Token where
  | startTag (tag : StartTag)
  | endTag (name : String) (span : Span)
  | text (text : String) (span : Span)
  | comment (text : String) (span : Span)
  | mustache (mustache : Mustache)
deriving DecidableEq, Repr

namespace Chunk

/-- The static text of a piece; a mustache has none. -/
def staticText : Chunk → String
  | text s => s
  | mustache _ => ""

end Chunk

namespace RawValue

def chunks : RawValue → List Chunk
  | empty => []
  | quoted cs => cs
  | unquoted cs => cs

/-- The static text of a value, its mustaches left out. -/
def staticText (v : RawValue) : String :=
  String.join (v.chunks.map Chunk.staticText)

end RawValue

/-- The range of a token. -/
def Token.span : Token → Span
  | startTag tag => tag.span
  | endTag _ span => span
  | text _ span => span
  | comment _ span => span
  | mustache m => m.span

end LiveTemplate
