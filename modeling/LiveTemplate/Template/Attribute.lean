import LiveTemplate.Expr.Parser
import LiveTemplate.Markup.Token
import LiveTemplate.Template.Basic

/-!
# LiveTemplate.Template.Attribute

The calls, attributes and modifiers of a template from their tokens.

1. Only block openings bind block params.
2. Mustache comments vanish, and the texts around them become one.
3. A value that is a single mustache without quotes stays a mustache; with quotes,
   or with anything beside it, its parts are joined.
4. An attribute value holds no blocks, and only calls may stand between attributes.
-/

namespace LiveTemplate

/-- The call of a mustache that binds no block params. -/
def Mustache.call (m : Mustache) : Except ParseError Call := do
  let e ← Expression.ofContent m.content m.span
  if e.blockParams.isEmpty then .ok e.call
  else .error ⟨.invalidExpression (trimString m.content) .blockParamsOutsideBlock, m.span⟩

/-- The value a mustache shows. -/
def Mustache.insertion (m : Mustache) : Except ParseError Insertion := do
  let call ← m.call
  .ok { call, escaped := m.kind == .escaped, span := m.span }

/-- Puts a text in front of parts, joining it to a text that comes first there. -/
def AttributePart.consText (s : String) : List AttributePart → List AttributePart
  | .text t :: parts => .text (s ++ t) :: parts
  | parts => .text s :: parts

/-- The parts of the value of the attribute `name`. -/
def AttributePart.ofChunks (name : String) : List Chunk → Except ParseError (List AttributePart)
  | [] => .ok []
  | .text s :: chunks => do
    let parts ← ofChunks name chunks
    .ok (consText s parts)
  | .mustache m :: chunks =>
    match m.kind with
    | .comment => ofChunks name chunks
    | .escaped | .unescaped => do
      let i ← m.insertion
      let parts ← ofChunks name chunks
      .ok (.insertion i :: parts)
    | .opening | .otherwise | .closing => .error ⟨.invalidAttribute name .blockInValue, m.span⟩

/-- The value made of parts that stood between quotes or not. -/
def AttributeValue.ofParts (quoted : Bool) : List AttributePart → AttributeValue
  | [] => .static ""
  | [.text s] => .static s
  | [.insertion i] => if quoted then .joined [.insertion i] else .bare i
  | parts => .joined parts

/-- Whether a value stands between quotes. -/
def RawValue.isQuoted : RawValue → Bool
  | quoted _ => true
  | empty | unquoted _ => false

def Attribute.ofRaw (raw : RawAttribute) : Except ParseError Attribute := do
  let parts ← AttributePart.ofChunks raw.name raw.value.chunks
  .ok { name := raw.name, value := .ofParts raw.value.isQuoted parts, span := raw.span }

/-- The call of a mustache between attributes. -/
def Mustache.modifier (m : Mustache) : Except ParseError Call :=
  match m.kind with
  | .escaped => m.call
  | _ => .error ⟨.invalidAttribute (trimString m.content) .notACall, m.span⟩

/-- The mustaches that are no comments. -/
def withoutComments (ms : List Mustache) : List Mustache := ms.filter (·.kind != .comment)

end LiveTemplate
