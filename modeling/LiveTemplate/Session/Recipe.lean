import LiveTemplate.Render.Environment
import LiveTemplate.Session.Journal

/-!
# LiveTemplate.Session.Recipe

Helpers that are described by data, and what they do.

Every call of such a helper is written into the journal before it does anything.
-/

namespace LiveTemplate

/-- What a helper does.  `args` are given to the block params of the body. -/
inductive Recipe where
  /-- Yields a value. -/
  | const (value : Datum)
  /-- Yields its first param. -/
  | first
  /-- Yields the text of its first param and an exclamation mark. -/
  | shout
  /-- Yields whether its first param is true. -/
  | truthy
  /-- Yields the value of the path in its hash, or its first param without one. -/
  | lookup
  /-- Yields the type of the hash pair its first param names. -/
  | hashType
  /-- Yields the number of block params. -/
  | blockParams
  /-- Renders the body in the same context. -/
  | body (args : List Datum)
  /-- Renders the inverse in the same context. -/
  | inverse (args : List Datum)
  /-- Renders the body if its first param is true, the inverse otherwise. -/
  | choose
  /-- Renders the body with its first param as the context. -/
  | within
  /-- Renders the body for every item of its first param, or the inverse if there is none. -/
  | each
  /-- Renders the body and yields its HTML between parentheses behind a text. -/
  | serialize (before : String) (args : List Datum)
  /-- Renders the body as the content of a new element. -/
  | inElement (tag : String) (ns : Namespace) (args : List Datum)
  /-- Renders the body and appends a text to it. -/
  | append
  /-- Sets an attribute of the element it is used on. -/
  | setAttribute (name : String)
  /-- Sets an entry of the context through the hook. -/
  | set
  /-- Changes how the morph shows values. -/
  | escaping (escaped : Bool)
  | nothing

namespace Recipe

/-- Makes values from their descriptions. -/
def values (names : Dict ObjectId) (data : List Datum) : Render Journal (List Value) :=
  modifyGet fun w =>
    let (values, heap) := makeItems names data w.heap
    (values, { w with heap })

/-- Makes a value from its description. -/
def value (names : Dict ObjectId) (datum : Datum) : Render Journal Value :=
  modifyGet fun w =>
    let (value, heap) := datum.make names w.heap
    (value, { w with heap })

/-- Renders the body for items, from the one at `index` on, and appends what it renders to
`parent`. -/
def renderItems (hooks : Hooks Journal) (i : Invocation) (parent : NodeId) :
    Nat → List Value → Render Journal Unit
  | _, [] => pure ()
  | index, item :: items => do
    match ← i.render hooks item none [item, .number (Float.ofNat index)] with
    | .node id => Render.changeDom fun dom => dom.appendChild parent id
    | _ => pure ()
    renderItems hooks i parent (index + 1) items

/-- What a helper does, once its call has been written down. -/
def perform (names : Dict ObjectId) (recipe : Recipe) (hooks : Hooks Journal) : HelperFn Journal :=
  fun scope params hash i =>
    let first := params.head?.getD .undefined
    let this := scope.context
    match recipe with
    | .const datum => value names datum
    | .first => return first
    | .shout => return .string (first.text ++ "!")
    | .truthy => return .bool first.isTruthy
    | .lookup =>
      match hash.get? "path" with
      | some path => Render.read fun w => scope.lookup w.heap path.text
      | none => return first
    | .hashType =>
      return ((i.hashType? first.text).map fun t => Value.string t.name).getD .null
    | .blockParams => return (i.blockParams.map fun n => Value.number (Float.ofNat n)).getD .null
    | .body args => do i.render hooks this none (← values names args)
    | .inverse args => do i.renderInverse hooks this none (← values names args)
    | .choose =>
      if first.isTruthy then i.render hooks this none [] else i.renderInverse hooks this none []
    | .within => i.render hooks first none [first]
    | .each =>
      match first with
      | .list (item :: items) => do
        let fragment ← Render.runDom fun dom => dom.create .fragment
        renderItems hooks i fragment 0 (item :: items)
        return .node fragment
      | _ => i.renderInverse hooks this none []
    | .serialize before args => do
      let html ← match ← i.render hooks this none (← values names args) with
        | .node id => Render.read fun w => w.dom.html id
        | _ => pure ""
      return .string (before ++ "(" ++ html ++ ")")
    | .inElement tag ns args => do
      let element ← Render.runDom fun dom => dom.create (.element tag ns {})
      i.render hooks this (some element) (← values names args)
    | .append => do
      match ← i.render hooks this none [] with
      | .node id =>
        let text := ((hash.get? "text").getD .undefined).text
        Render.changeDom fun dom =>
          let (added, dom) := dom.create (.text text)
          dom.appendChild id added
        return .node id
      | _ => return .undefined
    | .setAttribute name => do
      match i.element with
      | some element => Render.changeDom fun dom => dom.setAttribute element name first.text
      | none => pure ()
      return .undefined
    | .set => do
      hooks.set scope first.text ((params[1]?).getD .undefined)
      return .undefined
    | .escaping escaped => do
      match i.morph with
      | some morph => modify fun w => w.modifyMorph morph fun m => { m with escaped }
      | none => pure ()
      return first
    | .nothing => return .undefined

/-- The helper that is described, under the name it is registered with. -/
def run (names : Dict ObjectId) (name : String) (recipe : Recipe) (hooks : Hooks Journal) :
    HelperFn Journal := fun scope params hash i => do
  Render.record fun w =>
    .helper name (w.outline scope.context) (w.arguments params hash) (w.invocation i)
  recipe.perform names hooks scope params hash i

end Recipe

end LiveTemplate
