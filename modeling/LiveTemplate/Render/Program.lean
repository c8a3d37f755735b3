import LiveTemplate.Render.Hooks

/-!
# LiveTemplate.Render.Program

Rendering programs.

1. The static tree is built first, below a new fragment.
2. The nodes of all sites are found before any of them is rendered, since rendering
   moves nodes.
3. The sites are rendered in order.  Content, blocks and components get a morph.
4. A fragment that then holds nothing but one element gives way to the element.
-/

namespace LiveTemplate

/-! ## building -/

/-- Adds what an instruction builds, below a place that hands down `root`. -/
def Builder.instruction (root : Namespace) (b : Builder) : Instruction → Builder
  | .openElement tag ns => b.enter (.element tag (ns.getD root) {})
  | .setAttribute name value => b.modifyInnermost (·.mapAttributes (·.set name value))
  | .closeElement => b.leave
  | .text s => b.leaf (.text s)
  | .comment s => b.leaf (.comment s)
  | .placeholder => b.leaf (.text "")

/-- The static trees of a program, below a place that hands down `root`. -/
def Program.forest (root : Namespace) (p : Program) : List Markup :=
  (p.build.foldl (Builder.instruction root) {}).finish

/-- The node that child indices lead to, and its parent.  Where there is no such child, the way
ends. -/
def Dom.resolve (dom : Dom) (node parent : NodeId) : List Nat → NodeId × NodeId
  | [] => (node, parent)
  | index :: path =>
    match (dom.children node)[index]? with
    | some child => dom.resolve child node path
    | none => (node, parent)

/-- The node of a site, and the element as whose content HTML is read there. -/
structure Target where
  node : NodeId
  context : Option NodeId

/-- The target of a site below a fragment that is rendered in `context`. -/
def Site.target (s : Site) (dom : Dom) (fragment : NodeId) (context : Option NodeId) : Target :=
  let (node, parent) := dom.resolve fragment fragment s.path
  { node, context := if parent = fragment then context else some parent }

/-! ## sites -/

variable {σ : Type}

/-- The value of a part of an attribute; paths are left to the hook. -/
def evaluatePart (hooks : Hooks σ) (scope : Scope) : Param → Render σ Value
  | .call c => evaluateCall hooks scope c
  | literal => pure literal.literalValue

/-- Renders a site.  The result is the morph it got. -/
def Program.renderSite (p : Program) (hooks : Hooks σ) (scope : Scope) (action : Action)
    (target : Target) : Render σ (Option MorphId) :=
  match action with
  | .content call escaped => do
    let morph ← Render.addMorph (.create target.node escaped target.context)
    let (params, hash) ← evaluateArguments hooks scope call
    hooks.content morph call.path scope params hash
      { Invocation.ofCall call scope with morph := some morph, context := target.context }
    return some morph
  | .block call program inverse => do
    let morph ← Render.addMorph (.create target.node true target.context)
    let (params, hash) ← evaluateArguments hooks scope call
    let body := p.children[program]?
    hooks.content morph call.path scope params hash
      { Invocation.ofCall call scope with
        morph := some morph
        context := target.context
        blockParams := (body.map (·.blockParams.length)).filter (· != 0)
        body
        inverse := inverse.bind (p.children[·]?) }
    return some morph
  | .component tag hash program => do
    let morph ← Render.addMorph (.create target.node true target.context)
    hooks.component morph tag scope hash
      { morph := some morph
        context := target.context
        hashTypes := hash.map fun (key, value) => (key, value.type)
        scope
        body := p.children[program]? }
    return some morph
  | .attr name quoted parts => do
    let values ← parts.mapM (evaluatePart hooks scope)
    hooks.attr target.node name quoted scope values
      { element := some target.node, paramTypes := parts.map Param.type, scope }
    return none
  | .modifier call => do
    let (params, hash) ← evaluateArguments hooks scope call
    hooks.element target.node call.path scope params hash
      { Invocation.ofCall call scope with element := some target.node }
    return none

/-! ## renders -/

/-- The root of a render: a single element, or a fragment with everything. -/
inductive Root where
  | single (node : NodeId)
  | sequence (node : NodeId)
deriving DecidableEq, Repr

def Root.node : Root → NodeId
  | single id | sequence id => id

/-- The result of a render: its root, and its morphs in the order of their sites. -/
structure Rendered where
  root : Root
  morphs : List MorphId

/-- Takes an only element out of a fragment. -/
def Dom.unwrap (dom : Dom) (fragment : NodeId) : Root × Dom :=
  match dom.children fragment with
  | [only] =>
    if (dom.data only).isElement then (.single only, dom.removeChild fragment only)
    else (.sequence fragment, dom)
  | _ => (.sequence fragment, dom)

/-- Renders the sites of a program below a fragment that it has built. -/
def Program.renderSites (p : Program) (hooks : Hooks σ) (scope : Scope) (fragment : NodeId)
    (context : Option NodeId) : Render σ (List MorphId) := do
  if p.isStatic then return []
  let targets ← Render.read fun w => p.sites.map fun s =>
    (s.action, s.target w.dom fragment context)
  let morphs ← targets.mapM fun (action, target) => p.renderSite hooks scope action target
  return morphs.filterMap id

/-- Renders a program, to be inserted into the element `context`. -/
def Program.render (p : Program) (hooks : Hooks σ) (scope : Scope) (context : Option NodeId) :
    Render σ Rendered := do
  let fragment ← Render.runDom fun dom => dom.plantFragment (p.forest (dom.nsBelow context))
  let morphs ← p.renderSites hooks scope fragment context
  let root ← Render.runDom fun dom => dom.unwrap fragment
  return { root, morphs }

end LiveTemplate
