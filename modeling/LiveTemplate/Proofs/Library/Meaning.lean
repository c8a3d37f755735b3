import LiveTemplate.Proofs.Render.Trees

/-!
# LiveTemplate.Proofs.Library.Meaning

What templates mean where partials are registered, and helpers that render what they enclose.

1. Calls in arguments have values.  A partial that is called there has a node for its value,
   which counts as one and the same node here, since no text tells nodes apart.
2. Nodes stand for trees, once it is known what trees the partials stand for
   (`nodesShown`).  A mustache that calls a partial stands for its trees, and a block whose
   helper renders what it encloses for those of its body.
3. Rendering nodes calls partials, each in a scope (`nodesRequests`), and what the nodes stand
   for depends on no other partials (`nodesShown_congr`).  Where no chain of calls is endless,
   partials have a meaning: they stand for what their templates do (`meaning_eq`).
-/

namespace LiveTemplate

variable {σ : Type}

/-! ## libraries -/

/-- A helper that renders the body of its call, in the scope around it. -/
def passThrough (hooks : Hooks σ) : HelperFn σ := fun scope _ _ invocation =>
  invocation.render hooks scope.context none []

/-- Partials, and the names of helpers that render what they enclose. -/
structure Library where
  partials : Dict Template := {}
  yields : List String := []

/-- What a name calls. -/
inductive Callee where
  | passThrough
  | builtin (b : Builtin)
  | path

/-- Requests of partials: their name, and the scope they are rendered in. -/
abbrev Request := String × Scope

/-- The trees that partials stand for: by name and scope, where a namespace is handed down. -/
abbrev Meaning := String → Scope → Namespace → List Markup

/-- The name of the partial that the params of a call ask for. -/
def partialName (params : List Value) : String := (params.head?.map Value.text).getD ""

/-- The attributes of a component, as the pairs of a hash. -/
def ComponentTag.pairs (tag : ComponentTag) : List (String × Param) :=
  tag.attributes.map fun a => (a.name, a.value.param)

/-- The value without what tells nodes apart. -/
def Value.erase : Value → Value
  | .node _ => .node default
  | value => value

theorem Value.erase_of_not_isNode {value : Value} (h : value.isNode = false) :
    value.erase = value := by
  cases value <;> first | rfl | cases h

@[simp] theorem Value.text_erase (value : Value) : value.erase.text = value.text := by
  cases value <;> rfl

@[simp] theorem Value.isNullish_erase (value : Value) :
    value.erase.isNullish = value.isNullish := by
  cases value <;> rfl

theorem joinedText_erase (values : List Value) :
    joinedText (values.map Value.erase) = joinedText values := by
  rw [joinedText, List.map_map, joinedText]
  congr 2
  funext value
  exact value.text_erase

theorem partialName_erase (params : List Value) :
    partialName (params.map Value.erase) = partialName params := by
  cases params with
  | nil => rfl
  | cons value values => exact value.text_erase

namespace Library

/-- The environment in which the library is registered, and nothing else. -/
def environment (lib : Library) : Environment σ where
  helpers := ⟨lib.yields.map fun name => (name, passThrough)⟩
  partials := ⟨lib.partials.entries.map fun entry => (entry.1, entry.2.compile)⟩

variable (lib : Library)

/-- What a name calls: registered helpers come before builtin ones. -/
def callee (name : String) : Callee :=
  if name ∈ lib.yields then .passThrough
  else
    match Builtin.ofName? name with
    | some b => .builtin b
    | none => .path

/-! ## values -/

section Values

variable (scope : Scope) (heap : Heap)

/-- The value of a call in arguments. -/
def calledValue (path : String) (params : List Value) : Value :=
  match lib.callee path with
  | .passThrough | .builtin .setAttribute => .undefined
  | .builtin .concat => .string (joinedText params)
  | .builtin .renderPartial =>
    if lib.partials.contains (partialName params) then .node default else .undefined
  | .path => scope.lookup heap path

/-- The partial that a call renders, if it is registered. -/
def calledRequests (path : String) (params : List Value) : List String :=
  match lib.callee path with
  | .builtin .renderPartial =>
    if lib.partials.contains (partialName params) then [partialName params] else []
  | _ => []

mutual

/-- The value of a param. -/
def paramValue : Param → Value
  | .id path => scope.lookup heap path
  | .call c => callValue c
  | .string s => .string s
  | .number x => .number x
  | .boolean b => .bool b

/-- The value of a call in parentheses. -/
def callValue : Call → Value
  | ⟨_, some literal, _, _⟩ => literal.literalValue
  | ⟨path, none, params, _⟩ => lib.calledValue scope heap path (paramValues params)

/-- The values of params, in order. -/
def paramValues : List Param → List Value
  | [] => []
  | p :: ps => paramValue p :: paramValues ps

end

mutual

/-- The partials that are rendered when a param is evaluated. -/
def paramRequests : Param → List String
  | .call c => callRequests c
  | .id _ | .string _ | .number _ | .boolean _ => []

/-- The partials that are rendered when a call in parentheses is evaluated. -/
def callRequests : Call → List String
  | ⟨_, some _, _, _⟩ => []
  | ⟨path, none, params, hash⟩ =>
    paramsRequests params ++ pairsRequests hash ++
      lib.calledRequests path (lib.paramValues scope heap params)

/-- The partials that are rendered when params are evaluated. -/
def paramsRequests : List Param → List String
  | [] => []
  | p :: ps => paramRequests p ++ paramsRequests ps

/-- The partials that are rendered when a hash is evaluated. -/
def pairsRequests : List (String × Param) → List String
  | [] => []
  | (_, p) :: pairs => paramRequests p ++ pairsRequests pairs

end

/-- The partials that are rendered when the arguments of a call are evaluated. -/
def argumentRequests (call : Call) : List String :=
  lib.paramsRequests scope heap call.params ++ lib.pairsRequests scope heap call.hash

/-- The partials that are rendered for a mustache, a block or a modifier. -/
def contentRequests (call : Call) : List String :=
  lib.argumentRequests scope heap call ++
    lib.calledRequests call.path (lib.paramValues scope heap call.params)

/-! ## attributes -/

/-- Sets an attribute whose value is dynamic.  A nullish value without quotes removes it. -/
def setAttribute (a : Attribute) (attributes : Dict String) : Dict String :=
  match a.value with
  | .static _ => attributes
  | .bare i =>
    let value := lib.paramValue scope heap i.param
    if value.isNullish then attributes.erase a.name else attributes.set a.name value.text
  | .joined parts =>
    attributes.set a.name
      (joinedText (parts.map fun part => lib.paramValue scope heap part.param))

/-- What a modifier makes of the attributes of its element. -/
def modify (call : Call) (attributes : Dict String) : Dict String :=
  match lib.callee call.path, lib.paramValues scope heap call.params with
  | .builtin .setAttribute, name :: values => attributes.set name.text (joinedText values)
  | _, _ => attributes

/-- The attributes of an element: first the static ones, then what modifiers make of them, and then
the dynamic ones. -/
def attributes (tag : ElementTag) : Dict String :=
  tag.attributes.foldl (fun d a => lib.setAttribute scope heap a d)
    (tag.modifiers.foldl (fun d call => lib.modify scope heap call d) tag.staticAttributes)

/-- Sets attributes to the texts of values, one after the other; nullish values set none. -/
def setParams : List (String × Param) → Dict String → Dict String
  | [], attributes => attributes
  | (name, p) :: pairs, attributes =>
    let value := lib.paramValue scope heap p
    setParams pairs (if value.isNullish then attributes else attributes.set name value.text)

/-- The partials that are rendered when a dynamic attribute is evaluated. -/
def attributeRequests (a : Attribute) : List String :=
  match a.value with
  | .static _ => []
  | .bare i => lib.paramRequests scope heap i.param
  | .joined parts => parts.flatMap fun part => lib.paramRequests scope heap part.param

/-- The partials that are rendered for the modifiers and attributes of an element. -/
def tagRequests (tag : ElementTag) : List String :=
  tag.modifiers.flatMap (lib.contentRequests scope heap) ++
    tag.attributes.flatMap (lib.attributeRequests scope heap)

end Values

/-! ## nodes -/

section Nodes

variable (heap : Heap)

mutual

/-- The partials that are rendered when a node is, and the scopes they are rendered in. -/
def nodeRequests (scope : Scope) : Node → List Request
  | .text .. | .comment .. => []
  | .insertion i => (lib.contentRequests scope heap i.call).map (·, scope)
  | .element tag children _ =>
    (lib.tagRequests scope heap tag).map (·, scope) ++ nodesRequests scope children
  | .block call body _ _ =>
    (lib.contentRequests scope heap call).map (·, scope) ++
      match lib.callee call.path with
      | .passThrough => bodyRequests scope body
      | .builtin _ | .path => []
  | .component tag body _ =>
    (lib.pairsRequests scope heap tag.pairs).map (·, scope) ++
      match lib.callee tag.name with
      | .passThrough | .path => bodyRequests scope body
      | .builtin _ => (lib.calledRequests tag.name []).map (·, scope)

/-- The partials that are rendered when a body is.  Its block params are undefined. -/
def bodyRequests (scope : Scope) : Body Node → List Request
  | ⟨children, blockParams, _⟩ => nodesRequests (scope.bind blockParams []) children

/-- The partials that are rendered when nodes are. -/
def nodesRequests (scope : Scope) : List Node → List Request
  | [] => []
  | node :: nodes => nodeRequests scope node ++ nodesRequests scope nodes

end

variable (meaning : Meaning)

/-- The trees that show what a name calls, with the given params and with a body that stands for
`enclosed`; `value` is that of the name where it is a path. -/
def calledTrees (scope : Scope) (escaped : Bool) (ns : Namespace) (path : String)
    (params : List Value) (value : Value) (enclosed : List Markup) : List Markup :=
  match lib.callee path with
  | .passThrough => enclosed
  | .builtin .renderPartial =>
    if lib.partials.contains (partialName params) then meaning (partialName params) scope ns
    else []
  | .builtin .concat => valueTrees escaped ns (.string (joinedText params))
  | .builtin .setAttribute => []
  | .path => valueTrees escaped ns value

/-- The trees that show a mustache or a block whose body stands for `enclosed`.  A literal stands
for its text. -/
def contentTrees (scope : Scope) (escaped : Bool) (ns : Namespace) (call : Call)
    (enclosed : List Markup) : List Markup :=
  lib.calledTrees meaning scope escaped ns call.path (lib.paramValues scope heap call.params)
    (if call.literal.isSome then .string call.path else scope.lookup heap call.path) enclosed

/-- The trees that show a component whose body stands for `enclosed`, where a namespace is handed
down to it. -/
def componentTrees (scope : Scope) (inherited : Namespace) (tag : ComponentTag)
    (enclosed : Namespace → List Markup) : List Markup :=
  match lib.callee tag.name with
  | .path =>
    let ns := Namespace.ofElement tag.name inherited
    [.node () (.element tag.name ns (lib.setParams scope heap tag.pairs {}))
      (enclosed (ns.below tag.name))]
  | .passThrough | .builtin _ =>
    lib.calledTrees meaning scope true inherited tag.name [] .undefined (enclosed inherited)

mutual

/-- The trees a node stands for.  `around` is the namespace that the elements around it have
determined, `root` the one handed down where none has, and `inherited` the one that the node above
it hands down. -/
def nodeShown (scope : Scope) (root : Namespace) (around : Option Namespace)
    (inherited : Namespace) : Node → List Markup
  | .text s _ => [.node () (.text s) []]
  | .comment s _ => [.node () (.comment s) []]
  | .insertion i =>
    lib.contentTrees heap meaning scope i.escaped inherited i.call [] ++ [.node () (.text "") []]
  | .element tag children _ =>
    let own := knownNamespace tag.name around
    let ns := own.getD root
    [.node () (.element tag.name ns (lib.attributes scope heap tag))
      (nodesShown scope root (knownNamespaceBelow tag.name own) (ns.below tag.name) children)]
  | .block call body _ _ =>
    lib.contentTrees heap meaning scope true inherited call (bodyShown scope inherited body) ++
      [.node () (.text "") []]
  | .component tag body _ =>
    lib.componentTrees heap meaning scope inherited tag (fun ns => bodyShown scope ns body) ++
      [.node () (.text "") []]

/-- The trees a body stands for, below a place that hands down `ns`.  Its block params are
undefined. -/
def bodyShown (scope : Scope) (ns : Namespace) : Body Node → List Markup
  | ⟨children, blockParams, _⟩ => nodesShown (scope.bind blockParams []) ns none ns children

/-- The trees nodes stand for, one after the other. -/
def nodesShown (scope : Scope) (root : Namespace) (around : Option Namespace)
    (inherited : Namespace) : List Node → List Markup
  | [] => []
  | node :: nodes =>
    nodeShown scope root around inherited node ++ nodesShown scope root around inherited nodes

end

/-- The trees a template stands for in a scope, below a place that hands down `ns`. -/
def shown (scope : Scope) (ns : Namespace) (t : Template) : List Markup :=
  lib.nodesShown heap meaning scope ns none ns t.children

/-! ### what nodes stand for depends on -/

variable {lib heap meaning} {meaning' : Meaning}

theorem calledTrees_congr {scope : Scope} {path : String} {params : List Value}
    (h : ∀ name ∈ lib.calledRequests path params, ∀ ns,
      meaning name scope ns = meaning' name scope ns)
    (escaped : Bool) (ns : Namespace) (value : Value) (enclosed : List Markup) :
    lib.calledTrees meaning scope escaped ns path params value enclosed =
      lib.calledTrees meaning' scope escaped ns path params value enclosed := by
  rw [calledRequests] at h
  rw [calledTrees, calledTrees]
  cases hcallee : lib.callee path with
  | passThrough => rfl
  | path => rfl
  | builtin b =>
    cases b with
    | setAttribute => rfl
    | concat => rfl
    | renderPartial =>
      rw [hcallee] at h
      simp only at h ⊢
      split at h
      · next hregistered =>
        rw [if_pos hregistered, if_pos hregistered]
        exact h _ (List.mem_singleton_self _) ns
      · next hregistered => rw [if_neg hregistered, if_neg hregistered]

theorem contentTrees_congr {scope : Scope} {call : Call}
    (h : ∀ r ∈ (lib.contentRequests scope heap call).map (·, scope), ∀ ns,
      meaning r.1 r.2 ns = meaning' r.1 r.2 ns)
    (escaped : Bool) (ns : Namespace) (enclosed : List Markup) :
    lib.contentTrees heap meaning scope escaped ns call enclosed =
      lib.contentTrees heap meaning' scope escaped ns call enclosed := by
  refine calledTrees_congr (fun name hname ns => ?_) escaped ns _ enclosed
  exact h (name, scope) (List.mem_map_of_mem (List.mem_append_right _ hname)) ns

mutual

/-- A node stands for the same where partials that are rendered for it do. -/
theorem nodeShown_congr : (node : Node) → (scope : Scope) →
    (∀ r ∈ lib.nodeRequests heap scope node, ∀ ns, meaning r.1 r.2 ns = meaning' r.1 r.2 ns) →
    (root : Namespace) → (around : Option Namespace) → (inherited : Namespace) →
      lib.nodeShown heap meaning scope root around inherited node =
        lib.nodeShown heap meaning' scope root around inherited node
  | .text .., _, _, _, _, _ => rfl
  | .comment .., _, _, _, _, _ => rfl
  | .insertion i, scope, h, root, around, inherited => by
    rw [nodeRequests] at h
    rw [nodeShown, nodeShown, contentTrees_congr h]
  | .element tag children _, scope, h, root, around, inherited => by
    rw [nodeRequests, List.forall_mem_append] at h
    rw [nodeShown, nodeShown, nodesShown_congr children scope h.2]
  | .block call body _ _, scope, h, root, around, inherited => by
    rw [nodeRequests, List.forall_mem_append] at h
    rw [nodeShown, nodeShown, contentTrees_congr h.1]
    congr 1
    rw [contentTrees, contentTrees, calledTrees, calledTrees]
    cases hcallee : lib.callee call.path with
    | builtin b => cases b <;> rfl
    | path => rfl
    -- Only a helper that renders what it encloses asks for the partials of the body.
    | passThrough =>
      rw [hcallee] at h
      exact bodyShown_congr body scope h.2 inherited
  | .component tag body _, scope, h, root, around, inherited => by
    rw [nodeRequests, List.forall_mem_append] at h
    rw [nodeShown, nodeShown]
    congr 1
    rw [componentTrees, componentTrees]
    cases hcallee : lib.callee tag.name with
    | path =>
      rw [hcallee] at h
      simp only
      rw [bodyShown_congr body scope h.2]
    | passThrough =>
      rw [hcallee] at h
      simp only
      rw [bodyShown_congr body scope h.2, calledTrees, calledTrees, hcallee]
    | builtin b =>
      rw [hcallee] at h
      simp only
      have hsame : ∀ name ∈ lib.calledRequests tag.name [], ∀ ns,
          meaning name scope ns = meaning' name scope ns :=
        fun name hname ns => h.2 (name, scope) (List.mem_map_of_mem hname) ns
      rw [calledTrees_congr hsame]
      rw [calledTrees, calledTrees, hcallee]
      cases b <;> rfl

theorem bodyShown_congr : (body : Body Node) → (scope : Scope) →
    (∀ r ∈ lib.bodyRequests heap scope body, ∀ ns, meaning r.1 r.2 ns = meaning' r.1 r.2 ns) →
    (ns : Namespace) →
      lib.bodyShown heap meaning scope ns body = lib.bodyShown heap meaning' scope ns body
  | ⟨children, blockParams, _⟩, scope, h, ns => by
    rw [bodyRequests] at h
    rw [bodyShown, bodyShown, nodesShown_congr children _ h]

/-- Nodes stand for the same where partials that are rendered for them do. -/
theorem nodesShown_congr : (nodes : List Node) → (scope : Scope) →
    (∀ r ∈ lib.nodesRequests heap scope nodes, ∀ ns, meaning r.1 r.2 ns = meaning' r.1 r.2 ns) →
    (root : Namespace) → (around : Option Namespace) → (inherited : Namespace) →
      lib.nodesShown heap meaning scope root around inherited nodes =
        lib.nodesShown heap meaning' scope root around inherited nodes
  | [], _, _, _, _, _ => rfl
  | node :: nodes, scope, h, root, around, inherited => by
    rw [nodesRequests, List.forall_mem_append] at h
    rw [nodesShown, nodesShown, nodeShown_congr node scope h.1, nodesShown_congr nodes scope h.2]

end

end Nodes

/-! ## partials -/

section Partials

variable (heap : Heap)

/-- A partial is asked for by another while that is rendered. -/
def AskedBy (r' r : Request) : Prop :=
  ∃ t, lib.partials.get? r.1 = some t ∧ r' ∈ lib.nodesRequests heap r.2 t.children

/-- No chain of partials that ask for one another is endless, among those that nodes ask for. -/
def Settled (scope : Scope) (nodes : List Node) : Prop :=
  ∀ r ∈ lib.nodesRequests heap scope nodes, Acc (lib.AskedBy heap) r

open Classical in
/-- The trees that a partial stands for, by recursion along the chains of partials that ask for one
another. -/
noncomputable def meaningAt (r : Request) (h : Acc (lib.AskedBy heap) r) :
    Namespace → List Markup :=
  h.rec fun r _ below ns =>
    match lib.partials.get? r.1 with
    | some t =>
      lib.shown heap (fun name scope ns =>
        if hr : lib.AskedBy heap (name, scope) r then below (name, scope) hr ns else []) r.2 ns t
    | none => []

open Classical in
/-- The meaning of the partials of a library. -/
noncomputable def meaning : Meaning := fun name scope ns =>
  if h : Acc (lib.AskedBy heap) (name, scope) then lib.meaningAt heap (name, scope) h ns else []

variable {lib heap}

open Classical in
/-- A partial stands for what its template does. -/
theorem meaning_eq {name : String} {scope : Scope} {t : Template}
    (ht : lib.partials.get? name = some t) (h : Acc (lib.AskedBy heap) (name, scope))
    (ns : Namespace) :
    lib.meaning heap name scope ns = lib.shown heap (lib.meaning heap) scope ns t := by
  have hunfold : lib.meaningAt heap (name, scope) h ns =
      lib.shown heap (fun name' scope' ns =>
        if lib.AskedBy heap (name', scope') (name, scope) then
          lib.meaning heap name' scope' ns else []) scope ns t := by
    cases h with
    | intro _ hbelow =>
      show (match lib.partials.get? name with | some t => _ | none => _) = _
      rw [ht]
      show lib.shown heap _ scope ns t = _
      congr 1
      funext name' scope' ns
      by_cases hr : lib.AskedBy heap (name', scope') (name, scope)
      · rw [dif_pos hr, if_pos hr, meaning, dif_pos (hbelow _ hr)]
        rfl
      · rw [dif_neg hr, if_neg hr]
  rw [meaning, dif_pos h, hunfold]
  refine nodesShown_congr t.children scope (fun r hr ns => ?_) ns none ns
  exact if_pos ⟨t, ht, hr⟩

end Partials

end Library

end LiveTemplate
