import LiveTemplate.Markup.Token.Source
import LiveTemplate.Template.Attribute

/-!
# LiveTemplate.Template.Parser

Templates from tokens.

Elements, components and blocks are properly nested.  What is open is kept as a
list of `Frame`s, innermost first; each holds what opened and the nodes that stand
before it.  The nodes read since the innermost opening are kept last first.

1. Adjacent texts become one node; its range ends where the last of them does.
2. An end tag closes the innermost element or component, if their names agree up
   to the case of ASCII letters.  Void elements have no end tag.
3. A block closing names the path that its opening calls.
4. `else` stands directly in a block, once, and with nothing behind it.
5. The first fault in document order is reported.
-/

namespace LiveTemplate

/-- What is open, with the range of its tag or the start of its mustache.  A block keeps its
body once `else` has been read. -/
inductive Opening where
  | element (tag : ElementTag) (span : Span)
  | component (tag : ComponentTag) (span : Span)
  | block (call : Call) (blockParams : List String) (body : Option Template) (lo : Nat)

/-- Where the opening begins. -/
def Opening.lo : Opening → Nat
  | element _ span | component _ span => span.lo
  | block _ _ _ lo => lo

/-- The fault of an opening that is not closed. -/
def Opening.unclosed : Opening → ParseError.Cause
  | element tag _ => .unclosedElement tag.name
  | component tag _ => .unclosedElement tag.name
  | block call _ _ _ => .unclosedBlock call.path

/-- An opening, the nodes before it, last first, and the namespace around it. -/
structure Frame where
  opening : Opening
  before : List Node
  ns : Namespace

/-- A template under construction: the nodes since the innermost opening, last first, the
namespace they inherit, and what is open around them, innermost first. -/
structure Construction where
  nodes : List Node := []
  ns : Namespace := .xhtml
  frames : List Frame := []

namespace Construction

/-- Adds a node. -/
def push (s : Construction) (node : Node) : Construction := { s with nodes := node :: s.nodes }

/-- Adds a text, to the text before it if there is one. -/
def pushText (s : Construction) (text : String) (span : Span) : Construction :=
  match s.nodes with
  | .text before ⟨lo, _⟩ :: nodes => { s with nodes := .text (before ++ text) ⟨lo, span.hi⟩ :: nodes }
  | _ => s.push (.text text span)

/-- Opens something whose children inherit `ns`. -/
def enter (s : Construction) (opening : Opening) (ns : Namespace) : Construction :=
  { nodes := [], ns, frames := ⟨opening, s.nodes, s.ns⟩ :: s.frames }

/-- Closes the innermost frame and leaves `node` in its place. -/
def leave (frame : Frame) (frames : List Frame) (node : Node) : Construction :=
  { nodes := node :: frame.before, ns := frame.ns, frames }

/-- The nodes since the innermost opening, in order. -/
def children (s : Construction) : List Node := s.nodes.reverse

/-! ## tags -/

def startComponent (s : Construction) (tag : StartTag) (attributes : List Attribute) :
    Except ParseError Construction :=
  match withoutComments tag.modifiers with
  | m :: _ => .error ⟨.invalidAttribute (trimString m.content) .modifierOnComponent, m.span⟩
  | [] =>
    let component : ComponentTag := { name := tag.name, attributes }
    .ok <|
      if tag.selfClosing then s.push (.component component {} tag.span)
      else s.enter (.component component tag.span) s.ns

def startElement (s : Construction) (tag : StartTag) (attributes : List Attribute) :
    Except ParseError Construction := do
  let modifiers ← (withoutComments tag.modifiers).mapM Mustache.modifier
  let ns := Namespace.ofElement tag.name s.ns
  let element : ElementTag :=
    { name := tag.name, ns, attributes, modifiers
      selfClosing := tag.selfClosing || isVoidTag tag.name }
  .ok <|
    if element.selfClosing then s.push (.element element [] tag.span)
    else s.enter (.element element tag.span) (ns.below tag.name)

def startTag (options : TemplateOptions) (s : Construction) (tag : StartTag) :
    Except ParseError Construction := do
  let attributes ← tag.attributes.mapM Attribute.ofRaw
  if options.components && isComponentTag tag.name then s.startComponent tag attributes
  else s.startElement tag attributes

def endTag (s : Construction) (name : String) (span : Span) : Except ParseError Construction :=
  if isVoidTag name then .error ⟨.voidEndTag name, span⟩
  else
    match s.frames with
    | [] => .error ⟨.unexpectedEndTag name, span⟩
    | frame :: frames =>
      match frame.opening with
      | .element tag start =>
        if sameTag tag.name name then
          .ok (leave frame frames (.element tag s.children ⟨start.lo, span.hi⟩))
        else .error ⟨.mismatchedEndTag tag.name name, span⟩
      | .component tag start =>
        if sameTag tag.name name then
          .ok (leave frame frames
            (.component tag { children := s.children, span := ⟨start.hi, span.lo⟩ }
              ⟨start.lo, span.hi⟩))
        else .error ⟨.mismatchedEndTag tag.name name, span⟩
      | .block call _ _ lo => .error ⟨.unclosedBlock call.path, ⟨lo, span.hi⟩⟩

/-! ## mustaches -/

def insert (s : Construction) (m : Mustache) : Except ParseError Construction := do
  let i ← m.insertion
  .ok (s.push (.insertion i))

def openBlock (s : Construction) (m : Mustache) : Except ParseError Construction := do
  let e ← Expression.ofContent m.content m.span
  .ok (s.enter (.block e.call e.blockParams none m.span.lo) s.ns)

def otherwise (s : Construction) (m : Mustache) : Except ParseError Construction :=
  match s.frames with
  | ⟨.block call blockParams none lo, before, ns⟩ :: frames =>
    let chained := trimString m.content
    if chained.isEmpty then
      let body : Template := { children := s.children, blockParams, span := ⟨lo, m.span.lo⟩ }
      .ok { s with
        nodes := []
        frames := ⟨.block call blockParams (some body) lo, before, ns⟩ :: frames }
    else .error ⟨.invalidExpression ("else " ++ chained) .chainedElse, m.span⟩
  | _ => .error ⟨.unexpectedElse, m.span⟩

/-- The block whose last part has the nodes `children`. -/
def block (call : Call) (blockParams : List String) (body : Option Template) (children : List Node)
    (inside whole : Span) : Node :=
  match body with
  | some body => .block call body (some { children, span := inside }) whole
  | none => .block call { children, blockParams, span := inside } none whole

def closeBlock (s : Construction) (m : Mustache) : Except ParseError Construction :=
  let found := trimString m.content
  match s.frames with
  | [] => .error ⟨.unexpectedBlockClose found, m.span⟩
  | frame :: frames =>
    match frame.opening with
    | .block call blockParams body lo =>
      if call.path = found then
        .ok (leave frame frames
          (block call blockParams body s.children ⟨lo, m.span.lo⟩ ⟨lo, m.span.hi⟩))
      else .error ⟨.mismatchedBlockClose call.path found, m.span⟩
    | opening => .error ⟨opening.unclosed, ⟨opening.lo, m.span.hi⟩⟩

/-! ## the whole -/

/-- Adds a token. -/
def step (options : TemplateOptions) (s : Construction) : Token → Except ParseError Construction
  | .text text span => .ok (s.pushText text span)
  | .comment text span => .ok (if options.keepComments then s.push (.comment text span) else s)
  | .startTag tag => s.startTag options tag
  | .endTag name span => s.endTag name span
  | .mustache m =>
    match m.kind with
    | .comment => .ok s
    | .escaped | .unescaped => s.insert m
    | .opening => s.openBlock m
    | .otherwise => s.otherwise m
    | .closing => s.closeBlock m

/-- The template, once nothing is open; `length` is that of the source. -/
def finish (s : Construction) (length : Nat) : Except ParseError Template :=
  match s.frames with
  | [] => .ok { children := s.children, span := ⟨0, length⟩ }
  | frame :: _ => .error ⟨frame.opening.unclosed, ⟨frame.opening.lo, length⟩⟩

end Construction

/-- The template of a reading of a source of `length` bytes.  A fault of a token comes after
those of the tokens before it. -/
def Template.ofReading (options : TemplateOptions) (reading : Reading) (length : Nat) :
    Except ParseError Template := do
  let s ← reading.tokens.foldlM (Construction.step options) {}
  match reading.error? with
  | some e => .error e
  | none => s.finish length

/-- The template a source holds. -/
def Template.ofSource (options : TemplateOptions) (source : String) : Except ParseError Template :=
  Template.ofReading options (.ofSource .template source) (byteLength source.toList)

end LiveTemplate
