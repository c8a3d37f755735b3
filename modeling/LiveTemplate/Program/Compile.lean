import LiveTemplate.Program.Basic
import LiveTemplate.Program.Builtin
import LiveTemplate.Template.Parser

/-!
# LiveTemplate.Program.Compile

Programs from templates.

1. Every node of a template becomes exactly one node of the static tree, so the
   indices of a node among its siblings lead to it there too.
2. An element's static attributes are set when it is built.  Its modifiers come
   first among its sites, then its dynamic attributes, then the sites below it.
3. An element takes the namespace its tag fixes, or the one that an element around
   it in the same body has determined; otherwise it is decided by where the program
   is rendered.
4. Bodies are compiled on their own, each in front of its inverse.
-/

namespace LiveTemplate

/-! ## values -/

/-- A mustache as a param: a bare path stands for its value, all else for a call. -/
def Insertion.param (i : Insertion) : Param :=
  if i.call.isSimplePath then .id i.call.path else .call i.call

def AttributePart.param : AttributePart → Param
  | text s => .string s
  | insertion i => i.param

/-- An attribute of a component as a param: joined parts are a call of the joining helper. -/
def AttributeValue.param : AttributeValue → Param
  | static s => .string s
  | bare i => i.param
  | joined parts => .call { path := Builtin.concat.name, params := parts.map AttributePart.param }

/-! ## elements -/

/-- Sets the attribute, if its value is static. -/
def Attribute.instruction? (a : Attribute) : Option Instruction :=
  match a.value with
  | .static s => some (.setAttribute a.name s)
  | .bare _ | .joined _ => none

/-- The site of the attribute, if its value is dynamic. -/
def Attribute.action? (a : Attribute) : Option Action :=
  match a.value with
  | .static _ => none
  | .bare i => some (.attr a.name false [i.param])
  | .joined parts => some (.attr a.name true (parts.map AttributePart.param))

/-- The namespace of an element, where it is known before rendering; `around` is what the
elements around it have determined. -/
def knownNamespace (tag : String) (around : Option Namespace) : Option Namespace :=
  (Namespace.fixedBy? tag).or around

/-- The namespace an element hands down, where it is known before rendering. -/
def knownNamespaceBelow (tag : String) (own : Option Namespace) : Option Namespace :=
  match own with
  | some ns => some (ns.below tag)
  | none => if isIntegrationPoint tag then some .xhtml else none

/-- Sites at one node. -/
def Program.sitesAt (path : List Nat) (actions : List Action) : Program :=
  actions.foldr (fun action p => Program.site ⟨path, action⟩ ++ p) {}

/-- Opens an element, sets its static attributes and registers its own sites. -/
def ElementTag.compile (tag : ElementTag) (path : List Nat) (ns : Option Namespace) : Program :=
  { build := .openElement tag.name ns :: tag.attributes.filterMap Attribute.instruction? } ++
    .sitesAt path
      (tag.modifiers.map Action.modifier ++ tag.attributes.filterMap Attribute.action?)

/-! ## nodes -/

/-- Whether a mustache calls for a partial. -/
def Call.isPartial (c : Call) : Bool := c.path == Builtin.renderPartial.name && c.literal.isNone

/-- A place where content is shown. -/
def Insertion.compile (i : Insertion) (path : List Nat) : Program :=
  let site := Program.instruction .placeholder ++ .site ⟨path, .content i.call i.escaped⟩
  if i.call.isPartial then { site with features := site.features.union (.singleton .partials) }
  else site

mutual

/-- Compiles the node at `path`, below elements which have determined the namespace `ns`;
`base` is the number of bodies before it. -/
def Node.compile (path : List Nat) (ns : Option Namespace) (base : Nat) : Node → Program
  | .text s _ => .instruction (.text s)
  | .comment s _ => .instruction (.comment s)
  | .insertion i => i.compile path
  | .element tag children _ =>
    let own := knownNamespace tag.name ns
    tag.compile path own ++
      compileNodes path (knownNamespaceBelow tag.name own) 0 base children ++
      .instruction .closeElement
  | .block call body inverse _ =>
    let bodies := compileBody body :: compileInverse inverse
    { build := [.placeholder], children := bodies } ++
      .site ⟨path, .block call base (inverse.map fun _ => base + 1)⟩
  | .component tag body _ =>
    { build := [.placeholder], children := [compileBody body] } ++
      .site ⟨path, .component tag.name (tag.attributes.map fun a => (a.name, a.value.param)) base⟩

/-- Compiles siblings, from the one at `index` on. -/
def compileNodes (parent : List Nat) (ns : Option Namespace) (index base : Nat) :
    List Node → Program
  | [] => {}
  | node :: nodes =>
    let first := node.compile (parent ++ [index]) ns base
    first ++ compileNodes parent ns (index + 1) (base + first.children.length) nodes

/-- Compiles a body on its own. -/
def compileBody : Body Node → Program
  | ⟨children, blockParams, _⟩ => { compileNodes [] none 0 0 children with blockParams }

/-- The program of an inverse, if there is one. -/
def compileInverse : Option (Body Node) → List Program
  | some body => [compileBody body]
  | none => []

end

/-- The program of a template. -/
def Template.compile (t : Template) : Program := compileBody t

/-- The program of a source. -/
def Program.ofSource (options : TemplateOptions) (source : String) : Except ParseError Program :=
  (Template.ofSource options source).map Template.compile

end LiveTemplate
