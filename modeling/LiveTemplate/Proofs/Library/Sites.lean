import LiveTemplate.Proofs.Library.Evaluating
import LiveTemplate.Proofs.Render.Components

/-!
# LiveTemplate.Proofs.Library.Sites

The sites of a node, rendered with the hooks of a library.

Attributes and modifiers change the attributes of their element, each after its arguments have
been evaluated.  Mustaches, blocks and components are shown in a new morph as the trees they
stand for.
-/

namespace LiveTemplate

variable {σ : Type}

namespace Library

variable {lib : Library} {heap : Heap} {meaning : Meaning} {least depth : Nat} {scope : Scope}
  {w : World σ} (p : Program) {target : Target}

/-! ## attributes -/

/-- The value of a part as the attribute hook gets it: paths are left as they are. -/
def partValue (lib : Library) (scope : Scope) (heap : Heap) : Param → Value
  | .call c => lib.callValue scope heap c
  | p => p.literalValue

theorem exists_evaluatePart (hscope : scope.NodeFree heap) (hdepth : least ≤ depth)
    (hheap : w.heap = heap) (part : Param)
    (hserves : ∀ name ∈ lib.paramRequests scope heap part,
      lib.Serves σ heap meaning least (name, scope)) :
    ∃ v w', evaluatePart (lib.environment.hooks (depth + 2)) scope part w = some (v, w') ∧
      w.Grows w' ∧ v.erase = lib.partValue scope heap part := by
  cases part with
  | call c => exact exists_evaluateCall hscope hdepth c w hheap hserves
  | id path => exact ⟨_, w, rfl, .refl w, rfl⟩
  | string s => exact ⟨_, w, rfl, .refl w, rfl⟩
  | number x => exact ⟨_, w, rfl, .refl w, rfl⟩
  | boolean b => exact ⟨_, w, rfl, .refl w, rfl⟩

/-- The parts of an attribute are evaluated, up to paths. -/
theorem exists_evaluateParts (hscope : scope.NodeFree heap) (hdepth : least ≤ depth)
    (hheap : w.heap = heap) (parts : List Param)
    (hserves : ∀ part ∈ parts, ∀ name ∈ lib.paramRequests scope heap part,
      lib.Serves σ heap meaning least (name, scope)) :
    ∃ vs w', parts.mapM (evaluatePart (lib.environment.hooks (depth + 2)) scope) w =
        some (vs, w') ∧ w.Grows w' ∧
      vs.map Value.erase = parts.map (lib.partValue scope heap) := by
  induction parts generalizing w with
  | nil => exact ⟨[], w, rfl, .refl w, rfl⟩
  | cons part parts ih =>
    rw [List.forall_mem_cons] at hserves
    obtain ⟨v, w₁, hpart, hgrows₁, hvalue⟩ :=
      exists_evaluatePart hscope hdepth hheap part hserves.1
    obtain ⟨vs, w₂, hparts, hgrows₂, hvalues⟩ := ih (hgrows₁.heap.trans hheap) hserves.2
    refine ⟨v :: vs, w₂, ?_, hgrows₁.trans hgrows₂, ?_⟩
    · rw [List.mapM_cons]
      refine (Render.bind_of_eq hpart).trans ?_
      exact (Render.bind_of_eq hparts).trans rfl
    · rw [List.map_cons, hvalue, hvalues, List.map_cons]

theorem eq_string_of_erase {value : Value} {s : String} (h : value.erase = .string s) :
    value = .string s := by
  cases value <;> first | exact h | cases h

/-- The text of a part is that of its value, once it is looked up if it is a path. -/
theorem exists_partText (depth : Nat) (hheap : w.heap = heap) {part : Param} {value : Value}
    (hvalue : value.erase = lib.partValue scope heap part) :
    ∃ v, (if part.type = .id then
          (lib.environment.hooks (depth + 1)).simple scope value.text
        else pure value : Render σ Value) w = some (v, w) ∧
      v.text = (lib.paramValue scope heap part).text ∧
      v.isNullish = (lib.paramValue scope heap part).isNullish := by
  have hother : value.erase = lib.paramValue scope heap part → value.text =
      (lib.paramValue scope heap part).text ∧
      value.isNullish = (lib.paramValue scope heap part).isNullish := by
    intro h
    rw [← h]
    exact ⟨value.text_erase.symm, value.isNullish_erase.symm⟩
  cases part with
  | id path =>
    obtain rfl := eq_string_of_erase hvalue
    refine ⟨scope.lookup w.heap path, rfl, ?_⟩
    rw [hheap]
    exact ⟨rfl, rfl⟩
  | call c => exact ⟨value, rfl, hother hvalue⟩
  | string s => exact ⟨value, rfl, hother hvalue⟩
  | number x => exact ⟨value, rfl, hother hvalue⟩
  | boolean b => exact ⟨value, rfl, hother hvalue⟩

theorem partTexts_eq (depth : Nat) (hheap : w.heap = heap) (parts : List Param) {values : List Value}
    (hvalues : values.map Value.erase = parts.map (lib.partValue scope heap)) :
    Hooks.partTexts (lib.environment.hooks (depth + 1)) scope values (parts.map Param.type) w =
      some (parts.map fun part => (lib.paramValue scope heap part).text, w) := by
  induction parts generalizing values with
  | nil =>
    obtain rfl := List.map_eq_nil_iff.1 hvalues
    rfl
  | cons part parts ih =>
    obtain ⟨value, values, rfl, hvalue, hvalues⟩ := List.map_eq_cons_iff.1 hvalues
    obtain ⟨v, hrun, htext, -⟩ := exists_partText (w := w) depth hheap hvalue
    rw [List.map_cons, Hooks.partTexts, List.head?_cons, List.tail_cons]
    simp only [Option.some.injEq]
    have hrest : (do
        let texts ← Hooks.partTexts (lib.environment.hooks (depth + 1)) scope values
          (parts.map Param.type)
        return v.text :: texts : Render σ (List String)) w = some
          ((lib.paramValue scope heap part).text ::
            parts.map fun part => (lib.paramValue scope heap part).text, w) := by
      refine (Render.bind_of_eq (ih hvalues)).trans ?_
      rw [htext]
      rfl
    split at hrun
    · next hid =>
      rw [if_pos hid]
      exact (Render.bind_of_eq hrun).trans hrest
    · next hid =>
      rw [if_neg hid]
      exact (Render.bind_of_eq hrun).trans hrest

/-- The value of an attribute: joined if it is quoted, its only part otherwise. -/
theorem exists_attributeValue (depth : Nat) (hheap : w.heap = heap) {a : Attribute} {name : String}
    {quoted : Bool} {parts : List Param} (haction : a.action? = some (.attr name quoted parts))
    {values : List Value} (hvalues : values.map Value.erase = parts.map (lib.partValue scope heap))
    (invocation : Invocation) (htypes : invocation.paramTypes = parts.map Param.type) :
    ∃ v, Hooks.attributeValue (lib.environment.hooks (depth + 2)) quoted scope values
        invocation w = some (v, w) ∧
      lib.setAttribute scope heap a = fun d =>
        if v.isNullish then d.erase name else d.set name v.text := by
  rw [Attribute.action?] at haction
  cases hvalue : a.value with
  | static s => simp [hvalue] at haction
  | bare i =>
    rw [hvalue] at haction
    cases haction
    obtain ⟨value, rest, rfl, hpart, hrest⟩ := List.map_eq_cons_iff.1 hvalues
    obtain rfl := List.map_eq_nil_iff.1 hrest
    obtain ⟨v, hrun, htext, hnull⟩ := exists_partText (w := w) (depth + 1) hheap hpart
    refine ⟨v, ?_, ?_⟩
    · simp only [Hooks.attributeValue, htypes, List.map_cons]
      cases htype : i.param.type <;> rw [htype] at hrun <;> exact hrun
    · funext d
      simp only [setAttribute, hvalue, htext, hnull]
  | joined parts' =>
    rw [hvalue] at haction
    cases haction
    refine ⟨.string (joinedText ((parts'.map AttributePart.param).map
      (lib.paramValue scope heap))), ?_, ?_⟩
    · have htexts := partTexts_eq (w := w) depth hheap _ hvalues
      rw [← htypes] at htexts
      refine (Render.bind_of_eq htexts).trans ?_
      simp only [joinedText, List.map_map]
      rfl
    · funext d
      simp only [setAttribute, hvalue, List.map_map]
      rfl

/-- The site of a dynamic attribute sets the attribute. -/
theorem exists_renderSite_attribute (hscope : scope.NodeFree heap) (hdepth : least ≤ depth)
    (hheap : w.heap = heap) {a : Attribute} {action : Action} (haction : a.action? = some action)
    (hserves : ∀ name ∈ lib.attributeRequests scope heap a,
      lib.Serves σ heap meaning least (name, scope)) :
    ∃ w₁, p.renderSite (lib.environment.hooks (depth + 4)) scope action target w =
        some (none, { w₁ with
          dom := w₁.dom.changeAttributes target.node (lib.setAttribute scope heap a) }) ∧
      w.Grows w₁ := by
  obtain ⟨name, quoted, parts, rfl, hrequests⟩ : ∃ name quoted parts,
      action = .attr name quoted parts ∧ ∀ part ∈ parts, ∀ r ∈ lib.paramRequests scope heap part,
        r ∈ lib.attributeRequests scope heap a := by
    rw [Attribute.action?] at haction
    rw [attributeRequests]
    cases hvalue : a.value with
    | static s => simp [hvalue] at haction
    | bare i =>
      rw [hvalue] at haction
      cases haction
      exact ⟨_, _, _, rfl, by simp⟩
    | joined parts =>
      rw [hvalue] at haction
      cases haction
      refine ⟨_, _, _, rfl, fun part hpart r hr => ?_⟩
      obtain ⟨part', hpart', rfl⟩ := List.mem_map.1 hpart
      exact List.mem_flatMap.2 ⟨part', hpart', hr⟩
  obtain ⟨values, w₁, hparts, hgrows, hvalues⟩ := exists_evaluateParts (w := w) hscope
    (Nat.le_trans hdepth (Nat.le_add_right depth 2)) hheap parts
    fun part hpart r hr => hserves r (hrequests part hpart r hr)
  obtain ⟨v, hvalue, hset⟩ := exists_attributeValue (w := w₁) (depth + 1)
    (hgrows.heap.trans hheap) haction hvalues
    { element := some target.node, paramTypes := parts.map Param.type, scope } rfl
  refine ⟨w₁, ?_, hgrows⟩
  refine (Render.bind_of_eq hparts).trans ?_
  refine (Render.bind_of_eq (Render.bind_of_eq hvalue)).trans ?_
  rw [hset, ← Dom.changeAttributes_value]
  rfl

/-- None but the attribute helper changes attributes. -/
theorem modify_eq_id {call : Call} (h : lib.callee call.path ≠ .builtin .setAttribute) :
    lib.modify scope heap call = id := by
  funext attributes
  rw [modify]
  split
  · next hcallee _ => exact absurd hcallee h
  · rfl

/-- Whatever is called at an element, the world grows and then attributes change. -/
theorem exists_called_element (hdepth : least ≤ depth) (hheap : w.heap = heap) {call : Call}
    {values : List Value}
    (hvalues : values.map Value.erase = lib.paramValues scope heap call.params) (hash : Hash)
    (element : NodeId)
    (hserves : ∀ name ∈ lib.calledRequests call.path (lib.paramValues scope heap call.params),
      lib.Serves σ heap meaning least (name, scope)) :
    ∃ w' v, called (lib.environment.hooks (depth + 1)) call.path scope values hash
        { Invocation.ofCall call scope with element := some element } (pure .undefined) w =
          some (v, { w' with
            dom := w'.dom.changeAttributes element (lib.modify scope heap call) }) ∧
      w.Grows w' := by
  rw [called_eq]
  by_cases hset : lib.callee call.path = .builtin .setAttribute
  · refine ⟨w, .undefined, ?_, .refl w⟩
    rw [hset]
    cases values with
    | nil =>
      have hmodify : lib.modify scope heap call = id := by
        funext d
        rw [modify, hset, ← hvalues]
        rfl
      rw [hmodify, Dom.changeAttributes_id]
      rfl
    | cons name values =>
      have hmodify : lib.modify scope heap call = (·.set name.text (joinedText values)) := by
        funext d
        simp only [modify, hset, ← hvalues, List.map_cons, Value.text_erase, joinedText_erase]
      rw [hmodify]
      rfl
  · rw [modify_eq_id hset]
    simp only [Dom.changeAttributes_id]
    cases hcallee : lib.callee call.path with
    | passThrough => exact ⟨w, .undefined, rfl, .refl w⟩
    | path => exact ⟨w, .undefined, rfl, .refl w⟩
    | builtin b =>
      cases b with
      | concat => exact ⟨w, .string (joinedText values), rfl, .refl w⟩
      | setAttribute => exact absurd hcallee hset
      | renderPartial =>
        rw [← hvalues, calledRequests_erase, calledRequests, hcallee] at hserves
        obtain ⟨v, w', hrun, hgrows, -, -⟩ := exists_renderPartial hdepth hheap values hash
          { Invocation.ofCall call scope with element := some element } none rfl (by simp)
          (fun hregistered => hserves _ (by simp [hregistered])) true
        exact ⟨w', v, hrun, hgrows⟩

/-- The site of a modifier makes of the attributes what the modifier does. -/
theorem exists_renderSite_modifier (hscope : scope.NodeFree heap) (hdepth : least ≤ depth)
    (hheap : w.heap = heap) {call : Call}
    (hserves : ∀ name ∈ lib.contentRequests scope heap call,
      lib.Serves σ heap meaning least (name, scope)) :
    ∃ w₁, p.renderSite (lib.environment.hooks (depth + 4)) scope (.modifier call) target w =
        some (none, { w₁ with
          dom := w₁.dom.changeAttributes target.node (lib.modify scope heap call) }) ∧
      w.Grows w₁ := by
  rw [contentRequests, List.forall_mem_append] at hserves
  have hdepth' := Nat.le_trans hdepth (Nat.le_add_right depth 2)
  obtain ⟨values, hash, w₁, harguments, hgrows, hvalues⟩ := exists_evaluateArguments (w := w)
    hscope hdepth' hheap call hserves.1
  obtain ⟨w₂, v, hcall, hgrows'⟩ := exists_called_element hdepth' (hgrows.heap.trans hheap)
    hvalues hash target.node hserves.2
  refine ⟨w₂, ?_, hgrows.trans hgrows'⟩
  refine (Render.bind_of_eq harguments).trans ?_
  exact (Render.bind_of_eq (element_of_called lib.environment hcall)).trans rfl

/-! ## content -/

/-- What a mustache or a block calls is shown as the trees it stands for. -/
theorem exists_content (hscope : scope.NodeFree heap) (hdepth : least ≤ depth)
    (hheap : w.heap = heap) {call : Call} {values : List Value}
    (hvalues : values.map Value.erase = lib.paramValues scope heap call.params) (hash : Hash)
    {invocation : Invocation} (hinvocation : invocation.scope = scope)
    (helement : invocation.element = none) (hliteral : invocation.isLiteral = call.literal.isSome)
    (hplace : ((invocation.morph.bind w.morph?).bind (·.context)).or invocation.context =
      invocation.context)
    (hcontext : ∀ id, invocation.context = some id → id.index < w.dom.size)
    (hserves : ∀ name ∈ lib.calledRequests call.path (lib.paramValues scope heap call.params),
      lib.Serves σ heap meaning least (name, scope))
    (enclosed : List Markup)
    (henclosed : lib.callee call.path = .passThrough →
      invocation.body = none ∧ enclosed = [] ∨
        ∃ body trees, invocation.body = some (compileBody body) ∧
          lib.Renders σ heap least body (scope.bind body.blockParams []) trees ∧
          enclosed = trees (w.dom.nsBelow invocation.context))
    (morph : MorphId) (escaped : Bool) :
    ∃ w₁ v, (lib.environment.hooks (depth + 2)).content morph call.path scope values hash
        invocation w = some ((), w₁.updateMorph morph v) ∧ w.Grows w₁ ∧
      v.Presents w.dom w₁.dom escaped (w.dom.nsBelow invocation.context)
        (lib.contentTrees heap meaning scope escaped (w.dom.nsBelow invocation.context) call
          enclosed) := by
  rw [← hvalues, calledRequests_erase] at hserves
  obtain ⟨v, w₁, hcall, hgrows, hpresents⟩ := exists_called_presents hdepth hheap call.path values
    hash invocation
    (if invocation.isLiteral then pure (.string call.path)
      else (lib.environment.hooks (depth + 1)).simple scope call.path)
    (if call.literal.isSome then .string call.path else scope.lookup heap call.path) enclosed
    hinvocation helement hplace hcontext hserves henclosed
    (fun _ => by
      rw [hliteral]
      cases call.literal with
      | none =>
        refine ⟨?_, hscope call.path⟩
        rw [← hheap]
        rfl
      | some literal => exact ⟨rfl, rfl⟩) escaped
  refine ⟨w₁, v, content_of_called lib.environment hcall morph, hgrows, ?_⟩
  rw [contentTrees, ← hvalues, calledTrees_erase]
  exact hpresents

/-- A new morph shows things for the element as whose content HTML is read. -/
theorem place_new {w₁ : World σ} {anchor : NodeId} {escaped : Bool} {context : Option NodeId}
    (hgrows : (w.addMorph (.create anchor escaped context)).2.Grows w₁) :
    (((some (⟨w.morphs.size⟩ : MorphId)).bind w₁.morph?).bind (·.context)).or context =
      context := by
  rw [Option.bind_some, hgrows.morph?_new]
  exact Option.or_self

/-- Once its morph has been added, the arguments of a mustache or of a block are evaluated, and what
it calls is shown as the trees it stands for. -/
theorem exists_arguments_content (hscope : scope.NodeFree heap) (hdepth : least ≤ depth)
    (hheap : w.heap = heap) (call : Call) (escaped : Bool)
    (hcontext : ∀ id, target.context = some id → id.index < w.dom.size)
    (hserves : ∀ name ∈ lib.contentRequests scope heap call,
      lib.Serves σ heap meaning least (name, scope))
    (invocation : Invocation) (enclosed : List Markup) (hinvocation : invocation.scope = scope)
    (helement : invocation.element = none) (hliteral : invocation.isLiteral = call.literal.isSome)
    (hmorph : invocation.morph = some ⟨w.morphs.size⟩)
    (hplace : invocation.context = target.context)
    (henclosed : lib.callee call.path = .passThrough →
      invocation.body = none ∧ enclosed = [] ∨
        ∃ body trees, invocation.body = some (compileBody body) ∧
          lib.Renders σ heap least body (scope.bind body.blockParams []) trees ∧
          enclosed = trees (w.dom.nsBelow target.context)) :
    ∃ values hash w₁ w₂ v,
      evaluateArguments (lib.environment.hooks (depth + 4)) scope call
        (w.addMorph (.create target.node escaped target.context)).2 = some ((values, hash), w₁) ∧
      (lib.environment.hooks (depth + 4)).content ⟨w.morphs.size⟩ call.path scope values hash
        invocation w₁ = some ((), w₂.updateMorph ⟨w.morphs.size⟩ v) ∧
      (w.addMorph (.create target.node escaped target.context)).2.Grows w₂ ∧
      v.Presents w.dom w₂.dom escaped (w₂.dom.nsBelow target.context)
        (lib.contentTrees heap meaning scope escaped (w.dom.nsBelow target.context) call
          enclosed) := by
  rw [contentRequests, List.forall_mem_append] at hserves
  have hdepth' := Nat.le_trans hdepth (Nat.le_add_right depth 2)
  obtain ⟨values, hash, w₁, harguments, hgrows, hvalues⟩ := exists_evaluateArguments
    (w := (w.addMorph (.create target.node escaped target.context)).2) hscope hdepth' hheap call
    hserves.1
  have hcontext₁ : ∀ id, target.context = some id → id.index < w₁.dom.size :=
    fun id hid => Nat.lt_of_lt_of_le (hcontext id hid) hgrows.dom.size_le
  have hns : w₁.dom.nsBelow target.context = w.dom.nsBelow target.context :=
    hgrows.nsBelow_eq hcontext
  obtain ⟨w₂, v, hcontent, hgrows', hpresents⟩ := exists_content (w := w₁)
    hscope hdepth' (hgrows.heap.trans hheap) hvalues hash hinvocation helement hliteral
    (by rw [hmorph, hplace]; exact place_new hgrows) (by rw [hplace]; exact hcontext₁) hserves.2
    enclosed (by rw [hplace, hns]; exact henclosed) ⟨w.morphs.size⟩ escaped
  rw [hplace, hns] at hpresents
  refine ⟨values, hash, w₁, w₂, v, harguments, hcontent, hgrows.trans hgrows', ?_⟩
  rw [hgrows'.nsBelow_eq hcontext₁, hns]
  exact hpresents.mono hgrows.dom.size_le

/-- The site of a mustache shows it as the trees it stands for. -/
theorem exists_renderSite_content (hscope : scope.NodeFree heap) (hdepth : least ≤ depth)
    (hheap : w.heap = heap) (call : Call) (escaped : Bool)
    (hcontext : ∀ id, target.context = some id → id.index < w.dom.size)
    (hserves : ∀ name ∈ lib.contentRequests scope heap call,
      lib.Serves σ heap meaning least (name, scope)) :
    ∃ w₁ v, p.renderSite (lib.environment.hooks (depth + 4)) scope (.content call escaped) target
        w = some (some ⟨w.morphs.size⟩, w₁.updateMorph ⟨w.morphs.size⟩ v) ∧
      (w.addMorph (.create target.node escaped target.context)).2.Grows w₁ ∧
      v.Presents w.dom w₁.dom escaped (w₁.dom.nsBelow target.context)
        (lib.contentTrees heap meaning scope escaped (w.dom.nsBelow target.context) call []) := by
  obtain ⟨values, hash, w₁, w₂, v, harguments, hcontent, hgrows, hpresents⟩ :=
    exists_arguments_content (w := w) hscope hdepth hheap call escaped hcontext hserves
      { Invocation.ofCall call scope with
        morph := some ⟨w.morphs.size⟩, context := target.context }
      [] rfl rfl rfl rfl rfl fun _ => .inl ⟨rfl, rfl⟩
  exact ⟨w₂, v, Program.renderSite_content_of harguments hcontent, hgrows, hpresents⟩

/-- The site of a block shows it as the trees it stands for. -/
theorem exists_renderSite_block (hscope : scope.NodeFree heap) (hdepth : least ≤ depth)
    (hheap : w.heap = heap) (call : Call) {body : Body Node} {program : Nat}
    (hbody : p.children[program]? = some (compileBody body)) (inverse : Option Nat)
    (hcontext : ∀ id, target.context = some id → id.index < w.dom.size)
    (hserves : ∀ name ∈ lib.contentRequests scope heap call,
      lib.Serves σ heap meaning least (name, scope))
    {trees : Namespace → List Markup}
    (hrenders : lib.callee call.path = .passThrough →
      lib.Renders σ heap least body (scope.bind body.blockParams []) trees) :
    ∃ w₁ v, p.renderSite (lib.environment.hooks (depth + 4)) scope (.block call program inverse)
        target w = some (some ⟨w.morphs.size⟩, w₁.updateMorph ⟨w.morphs.size⟩ v) ∧
      (w.addMorph (.create target.node true target.context)).2.Grows w₁ ∧
      v.Presents w.dom w₁.dom true (w₁.dom.nsBelow target.context)
        (lib.contentTrees heap meaning scope true (w.dom.nsBelow target.context) call
          (trees (w.dom.nsBelow target.context))) := by
  obtain ⟨values, hash, w₁, w₂, v, harguments, hcontent, hgrows, hpresents⟩ :=
    exists_arguments_content (w := w) hscope hdepth hheap call true hcontext hserves
      { Invocation.ofCall call scope with
        morph := some ⟨w.morphs.size⟩
        context := target.context
        blockParams := (p.children[program]?.map (·.blockParams.length)).filter (· != 0)
        body := p.children[program]?
        inverse := inverse.bind (p.children[·]?) }
      (trees (w.dom.nsBelow target.context)) rfl rfl rfl rfl rfl
      fun hcallee => .inr ⟨body, trees, hbody, hrenders hcallee, rfl⟩
  exact ⟨w₂, v, Program.renderSite_block_of harguments hcontent, hgrows, hpresents⟩

/-! ## components -/

/-- The attributes of a component are set one after the other on a new element. -/
theorem exists_setAttributes (hscope : scope.NodeFree heap) (hdepth : least ≤ depth)
    {base : World σ} {element : NodeId} {tag : String} {ns : Namespace}
    (pairs : List (String × Param))
    (hserves : ∀ name ∈ lib.pairsRequests scope heap pairs,
      lib.Serves σ heap meaning least (name, scope))
    {attributes : Dict String} (hheap : w.heap = heap) (hgrows : base.Grows w)
    (helement : base.dom.Loose w.dom (.node element (.element tag ns attributes) [])) :
    ∃ w', Hooks.setAttributes (lib.environment.hooks (depth + 2)) scope element pairs w =
        some ((), w') ∧ base.Grows w' ∧
      base.dom.Loose w'.dom
        (.node element (.element tag ns (lib.setParams scope heap pairs attributes)) []) := by
  induction pairs generalizing w attributes with
  | nil => exact ⟨w, rfl, hgrows, helement⟩
  | cons pair pairs ih =>
    obtain ⟨name, p⟩ := pair
    rw [pairsRequests, List.forall_mem_append] at hserves
    obtain ⟨v, w₁, hparam, hgrows₁, hvalue⟩ :=
      exists_evaluateParam hscope hdepth p w hheap hserves.1
    have hheap₁ := hgrows₁.heap.trans hheap
    rw [Hooks.setAttributes, setParams, ← hvalue, Value.isNullish_erase, Value.text_erase]
    by_cases hnull : v.isNullish = true
    · obtain ⟨w', hrun, hresult⟩ :=
        ih hserves.2 hheap₁ (hgrows.trans hgrows₁) (helement.extend hgrows₁.dom)
      refine ⟨w', ?_, by rw [if_pos hnull]; exact hresult⟩
      refine (Render.bind_of_eq hparam).trans ?_
      rw [hnull]
      exact hrun
    · have hnew : base.dom.size ≤ element.index := helement.fresh _ List.mem_cons_self
      obtain ⟨w', hrun, hresult⟩ := ih
        (w := { w₁ with dom := w₁.dom.changeAttributes element (·.set name v.text) })
        hserves.2 hheap₁ ((hgrows.trans hgrows₁).changeAttributes hnew _)
        ((helement.extend hgrows₁.dom).changeAttributes (·.set name v.text))
      refine ⟨w', ?_, by rw [if_neg hnull]; exact hresult⟩
      refine (Render.bind_of_eq hparam).trans ?_
      rw [Bool.eq_false_iff.2 hnull]
      exact hrun

/-- A component without a helper is shown as an element with its body in it. -/
theorem exists_componentFallback (hscope : scope.NodeFree heap) (hdepth : least ≤ depth)
    (hheap : w.heap = heap) (tag : ComponentTag) {body : Body Node}
    {trees : Namespace → List Markup}
    (hserves : ∀ name ∈ lib.pairsRequests scope heap tag.pairs,
      lib.Serves σ heap meaning least (name, scope))
    (hrenders : lib.Renders σ heap least body (scope.bind body.blockParams []) trees)
    {morph : MorphId} {m : Morph} (hmorph : w.morph? morph = some m) (invocation : Invocation)
    (hinvocation : invocation.scope = scope)
    (hbody : invocation.body = some (compileBody body)) :
    let ns := Namespace.ofElement tag.name (w.dom.nsBelow m.context)
    ∃ w' t, (lib.environment.hooks (depth + 3)).componentFallback morph tag.name scope tag.pairs
        invocation w = some (.node t.label, w') ∧ w.Grows w' ∧ w.dom.Loose w'.dom t ∧
      shapes t.shown = [.node () (.element tag.name ns (lib.setParams scope heap tag.pairs {}))
        (trees (ns.below tag.name))] := by
  intro ns
  -- The element is created, its attributes are set, and the body is rendered for it.
  obtain ⟨hext, hcreated⟩ := w.dom.loose_create (.element tag.name ns {})
  let created : World σ := { w with dom := (w.dom.create (.element tag.name ns {})).2 }
  have hgrows : w.Grows created :=
    ⟨rfl, hext, fun hw => hw.create _, Nat.le_refl _, fun _ _ => rfl⟩
  obtain ⟨w₁, hset, hgrows₁, helement⟩ := exists_setAttributes (w := created) hscope hdepth
    tag.pairs hserves hheap hgrows hcreated
  have hbelow : w₁.dom.nsBelow (some ⟨w.dom.size⟩) = ns.below tag.name := by
    rw [Dom.nsBelow, Dom.data_of_record helement.holds.2.1]
    rfl
  obtain ⟨w₂, t, hrender, hgrows₂, hloose, hshapes⟩ := exists_render_invocation
    (Nat.le_trans hdepth (Nat.le_add_right depth 2)) (hgrows₁.heap.trans hheap) hinvocation hbody
    hrenders (some ⟨w.dom.size⟩) fun id hid => by
      obtain rfl := Option.some.inj hid
      exact helement.holds.1
  obtain ⟨hgrown, happended⟩ := hgrows₁.appendChild helement hgrows₂ hloose
  refine ⟨_, .node ⟨w.dom.size⟩ _ t.shown, ?_, hgrown, happended, ?_⟩
  · refine Hooks.componentFallback_of ?_ hrender
    rw [hmorph]
    exact hset
  · show shapes [Tree.node _ _ t.shown] = _
    rw [shapes, Tree.shape, hshapes]
    show [Tree.node () _ (trees (w₁.dom.nsBelow (some ⟨w.dom.size⟩)))] = _
    rw [hbelow]

/-- What is no path calls a helper. -/
theorem exists_helper_of_callee (hooks : Hooks σ) {name : String} (h : lib.callee name ≠ .path) :
    ∃ helper, lib.helper? hooks name = some helper := by
  rw [helper?]
  cases hcallee : lib.callee name with
  | passThrough => exact ⟨_, rfl⟩
  | builtin b => exact ⟨_, rfl⟩
  | path => exact absurd hcallee h

/-- A component with a helper stands for what the helper shows. -/
theorem componentTrees_of_callee {tag : ComponentTag} (h : lib.callee tag.name ≠ .path)
    (inherited : Namespace) (trees : Namespace → List Markup) :
    lib.componentTrees heap meaning scope inherited tag trees =
      lib.calledTrees meaning scope true inherited tag.name [] .undefined (trees inherited) := by
  rw [componentTrees]
  cases hcallee : lib.callee tag.name with
  | passThrough => rfl
  | builtin b => rfl
  | path => exact absurd hcallee h

/-- The site of a component shows it as the trees it stands for. -/
theorem exists_renderSite_component (hscope : scope.NodeFree heap) (hdepth : least ≤ depth)
    (hheap : w.heap = heap) (tag : ComponentTag) {body : Body Node} {program : Nat}
    (hbody : p.children[program]? = some (compileBody body))
    (hcontext : ∀ id, target.context = some id → id.index < w.dom.size)
    (hserves : ∀ name ∈ lib.pairsRequests scope heap tag.pairs,
      lib.Serves σ heap meaning least (name, scope))
    (hcalled : ∀ name ∈ lib.calledRequests tag.name [],
      lib.Serves σ heap meaning least (name, scope))
    {trees : Namespace → List Markup}
    (hrenders : (∀ b, lib.callee tag.name ≠ .builtin b) →
      lib.Renders σ heap least body (scope.bind body.blockParams []) trees) :
    ∃ w₁ v, p.renderSite (lib.environment.hooks (depth + 4)) scope
        (.component tag.name tag.pairs program) target w =
          some (some ⟨w.morphs.size⟩, w₁.updateMorph ⟨w.morphs.size⟩ v) ∧
      (w.addMorph (.create target.node true target.context)).2.Grows w₁ ∧
      v.Presents w.dom w₁.dom true (w₁.dom.nsBelow target.context)
        (lib.componentTrees heap meaning scope (w.dom.nsBelow target.context) tag trees) := by
  let added := (w.addMorph (.create target.node true target.context)).2
  let invocation : Invocation :=
    { morph := some ⟨w.morphs.size⟩
      context := target.context
      hashTypes := tag.pairs.map fun pair => (pair.1, pair.2.type)
      scope
      body := p.children[program]? }
  -- It suffices to find what the hook shows.
  suffices h : ∃ w₁ v, (lib.environment.hooks (depth + 4)).component ⟨w.morphs.size⟩ tag.name scope
      tag.pairs invocation added = some ((), w₁.updateMorph ⟨w.morphs.size⟩ v) ∧
      added.Grows w₁ ∧ v.Presents w.dom w₁.dom true (w.dom.nsBelow target.context)
        (lib.componentTrees heap meaning scope (w.dom.nsBelow target.context) tag trees) by
    obtain ⟨w₁, v, hcomponent, hgrows, hpresents⟩ := h
    have hns : w₁.dom.nsBelow target.context = w.dom.nsBelow target.context :=
      hgrows.nsBelow_eq hcontext
    exact ⟨w₁, v, Program.renderSite_component_of hcomponent, hgrows, by rw [hns]; exact hpresents⟩
  have hdepth' := Nat.le_trans hdepth (Nat.le_add_right depth 2)
  by_cases hpath : lib.callee tag.name = .path
  · rw [componentTrees, hpath]
    obtain ⟨w₁, t, hfallback, hgrows, hloose, hshapes⟩ := exists_componentFallback (w := added)
      hscope hdepth hheap tag hserves (hrenders fun b hb => by rw [hpath] at hb; cases hb)
      (World.Grows.refl added).morph?_new invocation rfl hbody
    have hpresents : (Value.node t.label).Presents w.dom w₁.dom true
        (w.dom.nsBelow target.context) (shapes t.shown) := .node t hloose
    rw [hshapes] at hpresents
    have hlookup : (lib.environment.hooks (depth + 3)).lookupHelper tag.name scope added =
        some (none, added) := by
      rw [lib.lookupHelper_eq, helper?, hpath]
    exact ⟨w₁, .node t.label, Hooks.component_of_fallback hlookup hfallback, hgrows, hpresents⟩
  · -- There is a helper; the hash is evaluated for it.
    obtain ⟨hash, w₁, hhash, hgrows⟩ := exists_evaluateHash (w := added)
      hscope (Nat.le_trans hdepth (Nat.le_add_right depth 1)) hheap hserves
    have hns : w₁.dom.nsBelow target.context = w.dom.nsBelow target.context :=
      hgrows.nsBelow_eq hcontext
    obtain ⟨v, w₂, hcall, hgrows', hpresents⟩ := exists_called_presents hdepth'
      (hgrows.heap.trans hheap) tag.name [] hash invocation (pure .undefined) .undefined
      (trees (w.dom.nsBelow target.context)) rfl rfl (place_new hgrows)
      (fun id hid => Nat.lt_of_lt_of_le (hcontext id hid) hgrows.dom.size_le) hcalled
      (fun hpass => .inr ⟨body, trees, hbody,
        hrenders (fun b hb => by rw [hpass] at hb; cases hb), congrArg trees hns.symm⟩)
      (fun h => absurd h hpath) true
    have hpresents : v.Presents w.dom w₂.dom true (w₁.dom.nsBelow invocation.context) _ :=
      hpresents.mono hgrows.dom.size_le
    rw [show w₁.dom.nsBelow invocation.context = w.dom.nsBelow target.context from hns]
      at hpresents
    obtain ⟨helper, hhelper⟩ := exists_helper_of_callee (lib.environment.hooks (depth + 2)) hpath
    have hlookup : ∀ w : World σ, (lib.environment.hooks (depth + 3)).lookupHelper tag.name scope w =
        some (some helper, w) := fun w => by
      rw [lib.lookupHelper_eq, hhelper]
    rw [componentTrees_of_callee hpath]
    exact ⟨w₂, v, Hooks.component_of_helper (hlookup added) hhash
      ((Render.bind_of_eq (hlookup w₁)).symm.trans hcall), hgrows.trans hgrows', hpresents⟩

end Library

end LiveTemplate
