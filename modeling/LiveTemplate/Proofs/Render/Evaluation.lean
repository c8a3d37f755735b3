import LiveTemplate.Proofs.Program.Skeleton
import LiveTemplate.Proofs.Render.Sites

/-!
# LiveTemplate.Proofs.Render.Evaluation

What a template means when no helpers and no partials are registered, read off the
template: the value of a mustache, the attributes of an element, and the HTML of nodes.

1. A path stands for what the scope has there.  Of the calls only those of the joining
   helper have a value of their own.
2. The static attributes of an element come first, then the dynamic ones are set one
   after the other.
3. `evaluateNodes` prints nodes in one pass, without building anything.

The second half shows that the hooks of such an environment compute these values, and
do nothing else to the world.
-/

namespace LiveTemplate

/-! ## values -/

section Values

variable (scope : Scope) (heap : Heap)

/-- The value of a call of `path`, where no helper is registered. -/
def calledValue (path : String) (params : List Value) : Value :=
  match Builtin.ofName? path with
  | some .concat => .string (joinedText params)
  | some .setAttribute | some .renderPartial => .undefined
  | none => scope.lookup heap path

mutual

/-- The value of a param. -/
def Param.value : Param → Value
  | .id path => scope.lookup heap path
  | .call c => c.value
  | .string s => .string s
  | .number x => .number x
  | .boolean b => .bool b

/-- The value of a call in parentheses, or in an attribute. -/
def Call.value : Call → Value
  | ⟨_, some literal, _, _⟩ => literal.literalValue
  | ⟨path, none, params, _⟩ => calledValue scope heap path (paramValues params)

/-- The values of params, in order. -/
def paramValues : List Param → List Value
  | [] => []
  | p :: ps => p.value :: paramValues ps

end

/-- The value of a part as the attribute hook gets it: paths are left as they are. -/
def Param.partValue : Param → Value
  | .call c => c.value scope heap
  | p => p.literalValue

/-- The value that a mustache shows: a literal stands for its text, unless it is the name of a
helper. -/
def Insertion.value (i : Insertion) : Value :=
  if i.call.literal.isSome ∧ Builtin.ofName? i.call.path = none then .string i.call.path
  else calledValue scope heap i.call.path (paramValues scope heap i.call.params)

/-! ## attributes -/

/-- The value of a mustache in an attribute. -/
def Insertion.attributeValue (i : Insertion) : Value :=
  if i.call.isSimplePath then scope.lookup heap i.call.path else i.call.value scope heap

/-- The value of a part of an attribute. -/
def AttributePart.value : AttributePart → Value
  | .text s => .string s
  | .insertion i => i.attributeValue scope heap

/-- Sets an attribute whose value is dynamic.  A nullish value without quotes removes it. -/
def Attribute.evaluate (a : Attribute) (attributes : Dict String) : Dict String :=
  match a.value with
  | .static _ => attributes
  | .bare i =>
    let value := i.attributeValue scope heap
    if value.isNullish then attributes.erase a.name else attributes.set a.name value.text
  | .joined parts =>
    attributes.set a.name (joinedText (parts.map (AttributePart.value scope heap)))

/-- The attributes of an element: the static ones, and then the dynamic ones. -/
def ElementTag.evaluate (tag : ElementTag) : Dict String :=
  tag.attributes.foldl (fun attributes a => a.evaluate scope heap attributes) tag.staticAttributes

/-! ## nodes -/

/-- The HTML of a mustache, where HTML is read in the namespace `ns`. -/
def Insertion.evaluate (ns : Namespace) (i : Insertion) : List Char :=
  let value := i.value scope heap
  if value.isNullish then []
  else if i.escaped then escape .content value.text.toList
  else forestHtml (forestOfHtml ns value.text)

mutual

/-- The HTML of a node below a place that hands down the namespace `inherited`. -/
def Node.evaluate (inherited : Namespace) : Node → List Char
  | .text s _ => escape .content s.toList
  | .comment s _ => "<!--".toList ++ s.toList ++ "-->".toList
  | .insertion i => i.evaluate scope heap inherited
  | .element tag children _ =>
    let ns := Namespace.ofElement tag.name inherited
    let start := startTagHtml tag.name (tag.evaluate scope heap)
    if ns = .xhtml ∧ isVoidTag tag.name then start
    else start ++ evaluateNodes (ns.below tag.name) children ++ "</".toList ++ tag.name.toList ++
      ">".toList
  | .block .. | .component .. => []

/-- The HTML of nodes, one after the other. -/
def evaluateNodes (inherited : Namespace) : List Node → List Char
  | [] => []
  | node :: nodes => node.evaluate inherited ++ evaluateNodes inherited nodes

end

end Values

/-! ## plain templates -/

mutual

/-- A node without blocks, components, modifiers and integration points at any depth. -/
def Node.IsPlain : Node → Prop
  | .text .. | .comment .. | .insertion _ => True
  | .element tag children _ =>
    tag.modifiers = [] ∧ isIntegrationPoint tag.name = false ∧ ArePlain children
  | .block .. | .component .. => False

/-- Nodes that are plain. -/
def ArePlain : List Node → Prop
  | [] => True
  | node :: nodes => node.IsPlain ∧ ArePlain nodes

end

/-- No path of a scope leads to a node. -/
def Scope.NodeFree (scope : Scope) (heap : Heap) : Prop :=
  ∀ path, (scope.lookup heap path).isNode = false

/-- A scope is node-free if its values have a property that nodes do not have, and that entries and
items inherit. -/
theorem Scope.nodeFree_of_closed {scope : Scope} {heap : Heap} {P : Value → Prop}
    (hnode : ∀ value, P value → value.isNode = false) (hundefined : P .undefined)
    (hget : ∀ value segment, P value → P (value.get heap segment)) (hcontext : P scope.context)
    (hframes : ∀ frame ∈ scope.frames, ∀ pair ∈ frame, P pair.2) : scope.NodeFree heap := by
  have hfollow : ∀ segments value, P value → P (follow heap value segments) := by
    intro segments
    induction segments with
    | nil => exact fun value h => h
    | cons segment rest ih =>
      intro value h
      rw [follow]
      split
      · exact hundefined
      · exact ih _ (hget value segment h)
  have hlocal : ∀ name value, scope.local? name = some value → P value := by
    intro name value h
    obtain ⟨frame, hframe, h⟩ := List.exists_of_findSome?_eq_some h
    obtain ⟨l₁, l₂, rfl, -⟩ := List.lookup_eq_some_iff.1 h
    exact hframes _ hframe (name, value) (by simp)
  have hhead : ∀ name, P (scope.head heap name) := by
    intro name
    rw [head]
    split
    · exact hcontext
    · cases hname : scope.local? name with
      | none => exact hget _ _ hcontext
      | some value => exact hlocal name value hname
  intro path
  rw [lookup]
  split
  · exact hnode _ hcontext
  · exact hnode _ (hfollow _ _ (hhead _))

/-- No path of a string leads to a node. -/
theorem Scope.nodeFree_string (s : String) (heap : Heap) :
    Scope.NodeFree { context := .string s } heap := by
  refine nodeFree_of_closed (P := fun value => (∃ s, value = .string s) ∨ (∃ x, value = .number x) ∨
    value = .undefined) ?_ (.inr (.inr rfl)) ?_ (.inl ⟨s, rfl⟩) (by simp)
  · rintro value (⟨s, rfl⟩ | ⟨x, rfl⟩ | rfl) <;> rfl
  · rintro value segment (⟨s, rfl⟩ | ⟨x, rfl⟩ | rfl)
    · rw [Value.get]
      split
      · exact .inr (.inl ⟨_, rfl⟩)
      · exact .inr (.inr rfl)
    · exact .inr (.inr rfl)
    · exact .inr (.inr rfl)

/-- Of a node-free scope mustaches show no nodes. -/
theorem isNode_insertionValue {scope : Scope} {heap : Heap} (h : scope.NodeFree heap)
    (i : Insertion) : (i.value scope heap).isNode = false := by
  rw [Insertion.value]
  split
  · rfl
  · rw [calledValue]
    split
    · rfl
    · rfl
    · rfl
    · exact h i.call.path

/-! ## hooks without helpers and partials -/

namespace Hooks

variable {σ : Type}

/-- Hooks that know the builtin helpers only, and no partials. -/
structure Plain (hooks : Hooks σ) : Prop where
  lookupHelper : ∀ name scope w,
    hooks.lookupHelper name scope w = some ((Builtin.ofName? name).map .builtin, w)
  simple : ∀ scope path w, hooks.simple scope path w = some (scope.lookup w.heap path, w)
  renderPartial : ∀ scope params hash invocation w,
    hooks.renderPartial scope params hash invocation w = some (.undefined, w)

/-- The default hooks are plain where nothing is registered. -/
theorem plain_defaults (self : Hooks σ) : (Hooks.defaults {} self).Plain :=
  ⟨fun _ _ _ => rfl, fun _ _ _ => rfl, fun _ _ _ _ _ => rfl⟩

/-- A builtin helper has the value of a call, on no element. -/
theorem run_builtin {self : Hooks σ} (hself : self.Plain) {b : Builtin} {path : String}
    (hb : Builtin.ofName? path = some b) (scope : Scope) (params : List Value) (hash : Hash)
    {invocation : Invocation} (helement : invocation.element = none) (w : World σ) :
    b.run self scope params hash invocation w = some (calledValue scope w.heap path params, w) := by
  rw [calledValue, hb]
  cases b with
  | setAttribute =>
    simp only [Builtin.run, helement]
    rfl
  | renderPartial => exact hself.renderPartial scope params hash invocation w
  | concat => rfl

/-- The value of a call in parentheses. -/
theorem subexpr_defaults {self : Hooks σ} (hself : self.Plain) (path : String) (scope : Scope)
    (params : List Value) (hash : Hash) {invocation : Invocation}
    (helement : invocation.element = none) (w : World σ) :
    (Hooks.defaults {} self).subexpr path scope params hash invocation w =
      some (calledValue scope w.heap path params, w) := by
  show (self.lookupHelper path scope >>= _) w = _
  rw [Render.bind_apply, hself.lookupHelper, Option.bind_some]
  cases hb : Builtin.ofName? path with
  | none =>
    rw [calledValue, hb]
    exact hself.simple scope path w
  | some b => exact run_builtin hself hb scope params hash helement w

/-- A mustache shows the value of its call, or the text of its literal. -/
theorem content_defaults {self : Hooks σ} (hself : self.Plain) (morph : MorphId) (path : String)
    (scope : Scope) (params : List Value) (hash : Hash) {invocation : Invocation}
    (helement : invocation.element = none) (w : World σ) :
    (Hooks.defaults {} self).content morph path scope params hash invocation w =
      some ((), w.updateMorph morph
        (if invocation.isLiteral ∧ Builtin.ofName? path = none then .string path
          else calledValue scope w.heap path params)) := by
  refine (Render.bind_of_eq (hself.lookupHelper path scope w)).trans ?_
  cases hb : Builtin.ofName? path with
  | none =>
    show (if invocation.isLiteral then _ else self.simple scope path >>= _) w = _
    by_cases hliteral : invocation.isLiteral
    · rw [if_pos hliteral, if_pos ⟨hliteral, rfl⟩]
      rfl
    · rw [if_neg hliteral, if_neg (fun h => hliteral h.1), calledValue, hb]
      exact (Render.bind_of_eq (hself.simple scope path w)).trans rfl
  | some b =>
    have hnot : ¬(invocation.isLiteral = true ∧ some b = none) := fun h => Option.some_ne_none b h.2
    rw [if_neg hnot]
    exact (Render.bind_of_eq (run_builtin hself hb scope params hash helement w)).trans rfl

/-! ### arguments -/

/-- Hooks whose calls in parentheses have the value of the call. -/
def Calling (hooks : Hooks σ) : Prop :=
  ∀ path scope params hash (invocation : Invocation) w, invocation.element = none →
    hooks.subexpr path scope params hash invocation w =
      some (calledValue scope w.heap path params, w)

mutual

/-- Params are evaluated to their values. -/
theorem evaluateParam_eq {hooks : Hooks σ} (hplain : hooks.Plain) (hcalling : hooks.Calling)
    (scope : Scope) (w : World σ) : (p : Param) →
      evaluateParam hooks scope p w = some (p.value scope w.heap, w)
  | .id path => hplain.simple scope path w
  | .call c => evaluateCall_eq hplain hcalling scope w c
  | .string _ => rfl
  | .number _ => rfl
  | .boolean _ => rfl

theorem evaluateCall_eq {hooks : Hooks σ} (hplain : hooks.Plain) (hcalling : hooks.Calling)
    (scope : Scope) (w : World σ) : (c : Call) →
      evaluateCall hooks scope c w = some (c.value scope w.heap, w)
  | ⟨path, some literal, params, hash⟩ => rfl
  | ⟨path, none, params, hash⟩ => by
    obtain ⟨pairs, hpairs⟩ := evaluatePairs_eq hplain hcalling scope w hash
    rw [evaluateCall, Render.bind_apply, evaluateParams_eq hplain hcalling scope w params,
      Option.bind_some, Render.bind_apply, hpairs, Option.bind_some, hcalling _ _ _ _ _ _ rfl]
    rfl

theorem evaluateParams_eq {hooks : Hooks σ} (hplain : hooks.Plain) (hcalling : hooks.Calling)
    (scope : Scope) (w : World σ) : (ps : List Param) →
      evaluateParams hooks scope ps w = some (paramValues scope w.heap ps, w)
  | [] => rfl
  | p :: ps => by
    rw [evaluateParams, Render.bind_apply, evaluateParam_eq hplain hcalling scope w p,
      Option.bind_some, Render.bind_apply, evaluateParams_eq hplain hcalling scope w ps]
    rfl

/-- The pairs of a hash are evaluated as well. -/
theorem evaluatePairs_eq {hooks : Hooks σ} (hplain : hooks.Plain) (hcalling : hooks.Calling)
    (scope : Scope) (w : World σ) : (pairs : List (String × Param)) →
      ∃ values, evaluatePairs hooks scope pairs w = some (values, w)
  | [] => ⟨[], rfl⟩
  | (key, p) :: pairs => by
    obtain ⟨values, hvalues⟩ := evaluatePairs_eq hplain hcalling scope w pairs
    refine ⟨(key, p.value scope w.heap) :: values, ?_⟩
    rw [evaluatePairs, Render.bind_apply, evaluateParam_eq hplain hcalling scope w p,
      Option.bind_some, Render.bind_apply, hvalues]
    rfl

end

/-- The arguments of a call are evaluated. -/
theorem evaluateArguments_eq {hooks : Hooks σ} (hplain : hooks.Plain) (hcalling : hooks.Calling)
    (scope : Scope) (w : World σ) (call : Call) :
    ∃ hash, evaluateArguments hooks scope call w =
      some ((paramValues scope w.heap call.params, hash), w) := by
  obtain ⟨pairs, hpairs⟩ := evaluatePairs_eq hplain hcalling scope w call.hash
  refine ⟨.ofPairs pairs, ?_⟩
  rw [evaluateArguments, Render.bind_apply, evaluateParams_eq hplain hcalling scope w call.params,
    Option.bind_some, Render.bind_apply, evaluateHash, Render.bind_apply, hpairs]
  rfl

/-! ### attributes -/

/-- The part of an attribute is evaluated unless it is a path. -/
theorem evaluatePart_eq {hooks : Hooks σ} (hplain : hooks.Plain) (hcalling : hooks.Calling)
    (scope : Scope) (w : World σ) (p : Param) :
    evaluatePart hooks scope p w = some (p.partValue scope w.heap, w) := by
  cases p with
  | call c => exact evaluateCall_eq hplain hcalling scope w c
  | id path => rfl
  | string s => rfl
  | number x => rfl
  | boolean b => rfl

theorem evaluateParts_eq {hooks : Hooks σ} (hplain : hooks.Plain) (hcalling : hooks.Calling)
    (scope : Scope) (w : World σ) (parts : List Param) :
    parts.mapM (evaluatePart hooks scope) w =
      some (parts.map (Param.partValue scope w.heap), w) := by
  induction parts with
  | nil => rfl
  | cons p parts ih =>
    rw [List.mapM_cons]
    refine (Render.bind_of_eq (evaluatePart_eq hplain hcalling scope w p)).trans ?_
    exact (Render.bind_of_eq ih).trans rfl

/-- The texts of the parts of an attribute, those of paths being looked up. -/
theorem partTexts_eq {self : Hooks σ} (hself : self.Plain) (scope : Scope) (w : World σ)
    (parts : List Param) :
    partTexts self scope (parts.map (Param.partValue scope w.heap)) (parts.map Param.type) w =
      some (parts.map fun p => (p.value scope w.heap).text, w) := by
  induction parts with
  | nil => rfl
  | cons p parts ih =>
    rw [List.map_cons, List.map_cons, partTexts, List.head?_cons, List.tail_cons]
    by_cases hid : p.type = .id
    · obtain ⟨path, rfl⟩ : ∃ path, p = .id path := by
        cases p <;> first | exact ⟨_, rfl⟩ | cases hid
      refine (Render.bind_of_eq (hself.simple scope path w)).trans ?_
      exact (Render.bind_of_eq ih).trans rfl
    · have hvalue : p.partValue scope w.heap = p.value scope w.heap := by
        cases p <;> first | rfl | exact absurd rfl hid
      rw [if_neg (fun h => hid (Option.some.inj h)), hvalue]
      refine (Render.bind_of_eq (Render.pure_apply _ w)).trans ?_
      exact (Render.bind_of_eq ih).trans rfl

/-- Parts are joined as their texts are. -/
theorem concat_defaults {self : Hooks σ} (hself : self.Plain) (scope : Scope) (w : World σ)
    (parts : List Param) {invocation : Invocation}
    (htypes : invocation.paramTypes = parts.map Param.type) :
    (Hooks.defaults {} self).concat scope (parts.map (Param.partValue scope w.heap)) invocation w =
      some (.string (joinedText (parts.map (Param.value scope w.heap))), w) := by
  have htexts := partTexts_eq hself scope w parts
  rw [← htypes] at htexts
  refine (Render.bind_of_eq htexts).trans ?_
  rw [joinedText, List.map_map]
  rfl

/-- Hooks that join the parts of an attribute as their texts are. -/
def Joining (hooks : Hooks σ) : Prop :=
  ∀ scope (w : World σ) (parts : List Param) (invocation : Invocation),
    invocation.paramTypes = parts.map Param.type →
      hooks.concat scope (parts.map (Param.partValue scope w.heap)) invocation w =
        some (.string (joinedText (parts.map (Param.value scope w.heap))), w)

/-- The value of an attribute: joined if it is quoted, its only part otherwise. -/
theorem attributeValue_joined {self : Hooks σ} (hjoining : self.Joining) (scope : Scope)
    (w : World σ) (parts : List Param) {invocation : Invocation}
    (htypes : invocation.paramTypes = parts.map Param.type) :
    attributeValue self true scope (parts.map (Param.partValue scope w.heap)) invocation w =
      some (.string (joinedText (parts.map (Param.value scope w.heap))), w) :=
  hjoining scope w parts invocation htypes

theorem attributeValue_bare {self : Hooks σ} (hself : self.Plain) (scope : Scope) (w : World σ)
    (p : Param) {invocation : Invocation} (htypes : invocation.paramTypes = [p.type]) :
    attributeValue self false scope [p.partValue scope w.heap] invocation w =
      some (p.value scope w.heap, w) := by
  simp only [attributeValue, htypes]
  cases p with
  | id path => exact hself.simple scope path w
  | call c => rfl
  | string s => rfl
  | number x => rfl
  | boolean b => rfl

end Hooks

/-! ### sites -/

section Sites

variable {σ : Type} (p : Program) (scope : Scope) (target : Target) (w : World σ)

theorem value_param (heap : Heap) (i : Insertion) :
    i.param.value scope heap = i.attributeValue scope heap := by
  rw [Insertion.param, Insertion.attributeValue]
  split <;> rfl

theorem value_partParam (heap : Heap) (part : AttributePart) :
    part.param.value scope heap = part.value scope heap := by
  cases part with
  | text s => rfl
  | insertion i => exact value_param scope heap i

/-- Changes the attributes of an element. -/
def Dom.changeAttributes (dom : Dom) (id : NodeId) (f : Dict String → Dict String) : Dom :=
  dom.modify id fun r => { r with data := r.data.mapAttributes f }

/-- What the attribute hook does with a value: a nullish one removes the attribute. -/
theorem Dom.changeAttributes_value (dom : Dom) (id : NodeId) (name : String) (v : Value) :
    (if v.isNullish then dom.removeAttribute id name else dom.setAttribute id name v.text) =
      dom.changeAttributes id fun attributes =>
        if v.isNullish then attributes.erase name else attributes.set name v.text := by
  split <;> rfl

/-- The site of a dynamic attribute sets the attribute. -/
theorem renderSite_attribute {self : Hooks σ} (hself : self.Plain) (hjoining : self.Joining)
    {a : Attribute} {action : Action} (haction : a.action? = some action) :
    p.renderSite (.defaults {} self) scope action target w =
      some (none, { w with
        dom := w.dom.changeAttributes target.node (a.evaluate scope w.heap) }) := by
  have hplain := Hooks.plain_defaults self
  have hcalling : (Hooks.defaults {} self).Calling :=
    fun path scope params hash _ w h => Hooks.subexpr_defaults hself path scope params hash h w
  rw [Attribute.action?] at haction
  cases hvalue : a.value with
  | static s => simp [hvalue] at haction
  | bare i =>
    rw [hvalue] at haction
    cases haction
    have hparts := Hooks.evaluateParts_eq hplain hcalling scope w [i.param]
    refine (Render.bind_of_eq hparts).trans ?_
    refine (Render.bind_of_eq (Render.bind_of_eq
      (Hooks.attributeValue_bare hself scope w i.param rfl))).trans ?_
    rw [value_param]
    have hevaluate : a.evaluate scope w.heap = fun attributes =>
        if (i.attributeValue scope w.heap).isNullish then attributes.erase a.name
        else attributes.set a.name (i.attributeValue scope w.heap).text := by
      funext attributes
      simp only [Attribute.evaluate, hvalue]
    rw [hevaluate, ← Dom.changeAttributes_value]
    rfl
  | joined parts =>
    rw [hvalue] at haction
    cases haction
    have hparts := Hooks.evaluateParts_eq hplain hcalling scope w (parts.map AttributePart.param)
    refine (Render.bind_of_eq hparts).trans ?_
    refine (Render.bind_of_eq (Render.bind_of_eq
      (Hooks.attributeValue_joined hjoining scope w (parts.map AttributePart.param) rfl))).trans ?_
    have hvalues : (parts.map AttributePart.param).map (Param.value scope w.heap) =
        parts.map (AttributePart.value scope w.heap) := by
      rw [List.map_map]
      exact List.map_congr_left fun part _ => value_partParam scope w.heap part
    have hevaluate : a.evaluate scope w.heap = fun attributes =>
        attributes.set a.name (joinedText (parts.map (AttributePart.value scope w.heap))) := by
      funext attributes
      simp only [Attribute.evaluate, hvalue]
    rw [hvalues, hevaluate]
    rfl

/-- The site of a mustache shows its value in a new morph. -/
theorem renderSite_content {self : Hooks σ} (hself : self.Plain) (i : Insertion) :
    p.renderSite (.defaults {} self) scope (.content i.call i.escaped) target w =
      some (some ⟨w.morphs.size⟩,
        (w.addMorph (.create target.node i.escaped target.context)).2.updateMorph ⟨w.morphs.size⟩
          (i.value scope w.heap)) := by
  have hplain := Hooks.plain_defaults self
  have hcalling : (Hooks.defaults {} self).Calling :=
    fun path scope params hash _ w h => Hooks.subexpr_defaults hself path scope params hash h w
  obtain ⟨hash, hargs⟩ := Hooks.evaluateArguments_eq hplain hcalling scope
    (w.addMorph (.create target.node i.escaped target.context)).2 i.call
  exact Program.renderSite_content_of hargs
    (Hooks.content_defaults hself ⟨w.morphs.size⟩ i.call.path scope _ hash rfl _)

end Sites

end LiveTemplate
