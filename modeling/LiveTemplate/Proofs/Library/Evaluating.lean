import LiveTemplate.Proofs.Library.Meaning
import LiveTemplate.Proofs.Render.Assembling

/-!
# LiveTemplate.Proofs.Library.Evaluating

The hooks of a library: what calls, arguments and attributes make of the world.

If all partials that are called render what they stand for (`Library.Serves`), then calls have
the values that templates give them, up to which node the value is, and the world only grows.
A hook at one depth calls helpers one below, and these render bodies and partials two below.
-/

namespace LiveTemplate

variable {σ : Type}

/-! ## values that are shown -/

/-- A value is shown as trees of these shapes: those of a node that `base` does not have, or new
ones. -/
inductive Value.Presents (base dom : Dom) (escaped : Bool) (ns : Namespace) :
    Value → List Markup → Prop where
  | node (t : Tree NodeId) (loose : base.Loose dom t) :
    Presents base dom escaped ns (.node t.label) (shapes t.shown)
  | new (value : Value) (notNode : value.isNode = false) :
    Presents base dom escaped ns value (valueTrees escaped ns value)

/-- A morph displays what the value is shown as. -/
theorem Value.Presents.exists_displays {base dom : Dom} {escaped : Bool} {context : Option NodeId}
    {value : Value} {front : List Markup}
    (h : value.Presents base dom escaped (dom.nsBelow context) front) (anchor : NodeId) :
    ∃ trees, (Morph.create anchor escaped context).Displays base dom value trees ∧
      shapes trees = front := by
  cases h with
  | node t hloose => exact ⟨_, .node t hloose, rfl⟩
  | new _ hvalue =>
    exact ⟨_, .new value hvalue,
      (Morph.create anchor escaped context).shapes_newTrees value dom⟩

theorem Value.Presents.undefined (base dom : Dom) (escaped : Bool) (ns : Namespace) :
    Value.undefined.Presents base dom escaped ns [] :=
  .new .undefined rfl

theorem Value.Presents.mono {base base' dom : Dom} {escaped : Bool} {ns : Namespace}
    {value : Value} {front : List Markup} (h : value.Presents base' dom escaped ns front)
    (hle : base.size ≤ base'.size) : value.Presents base dom escaped ns front := by
  cases h with
  | node t hloose => exact .node t (hloose.mono hle)
  | new _ hvalue => exact .new value hvalue

namespace Library

/-! ## lookups -/

section Lookups

variable (lib : Library)

theorem get?_helpers (name : String) :
    (lib.environment (σ := σ)).helpers.get? name =
      if name ∈ lib.yields then some passThrough else none := by
  rw [Dict.get?, environment]
  induction lib.yields with
  | nil => rfl
  | cons first names ih =>
    rw [List.map_cons, List.lookup_cons]
    by_cases hname : name = first
    · subst hname
      simp
    · rw [beq_eq_false_iff_ne.2 hname, ih]
      simp [hname]

theorem get?_partials (name : String) :
    (lib.environment (σ := σ)).partials.get? name =
      (lib.partials.get? name).map Template.compile :=
  lib.partials.get?_map Template.compile name

/-- The helper that a name calls, as a function of the hooks it gets. -/
def helper? (hooks : Hooks σ) (name : String) : Option (Helper σ) :=
  match lib.callee name with
  | .passThrough => some (.custom (passThrough hooks))
  | .builtin b => some (.builtin b)
  | .path => none

variable (depth : Nat)

theorem hooks_succ :
    lib.environment.hooks (depth + 1) =
      (Hooks.defaults lib.environment (lib.environment.hooks depth) : Hooks σ) := rfl

theorem lookupHelper_eq (name : String) (scope : Scope) (w : World σ) :
    (lib.environment.hooks (depth + 1)).lookupHelper name scope w =
      some (lib.helper? (lib.environment.hooks depth) name, w) := by
  show some (Hooks.defaultLookup _ _ name, w) = _
  rw [Hooks.defaultLookup, get?_helpers, helper?, callee]
  by_cases hname : name ∈ lib.yields
  · rw [if_pos hname, if_pos hname]
  · rw [if_neg hname, if_neg hname]
    cases Builtin.ofName? name <;> rfl

theorem simple_eq (scope : Scope) (path : String) (w : World σ) :
    (lib.environment.hooks (depth + 1)).simple scope path w =
      some (scope.lookup w.heap path, w) := rfl

end Lookups

/-! ## renders of partials -/

section Serving

variable (σ) (lib : Library) (heap : Heap)

/-- Hooks of the library, at every depth from `least` on, render a body in a scope as the trees it
stands for. -/
def Renders (least : Nat) (body : Body Node) (scope : Scope) (trees : Namespace → List Markup) :
    Prop :=
  ∀ depth, least ≤ depth → ∀ (context : Option NodeId) (w : World σ), w.heap = heap →
    (∀ id, context = some id → id.index < w.dom.size) →
      ∃ rendered w' t,
        (compileBody body).render (lib.environment.hooks depth) scope context w =
          some (rendered, w') ∧
        rendered.root.node = t.label ∧ w.Grows w' ∧ w.dom.Loose w'.dom t ∧
        shapes t.shown = trees (w.dom.nsBelow context)

/-- Hooks from `least` on render the partial that is requested as the trees it stands for. -/
def Serves (meaning : Meaning) (least : Nat) (r : Request) : Prop :=
  ∀ t, lib.partials.get? r.1 = some t → lib.Renders σ heap least t r.2 (meaning r.1 r.2)

variable {σ lib heap}

theorem Renders.mono {least least' : Nat} {body : Body Node} {scope : Scope}
    {trees : Namespace → List Markup} (h : lib.Renders σ heap least body scope trees)
    (hle : least ≤ least') : lib.Renders σ heap least' body scope trees :=
  fun depth hdepth => h depth (Nat.le_trans hle hdepth)

theorem Serves.mono {meaning : Meaning} {least least' : Nat} {r : Request}
    (h : lib.Serves σ heap meaning least r) (hle : least ≤ least') :
    lib.Serves σ heap meaning least' r :=
  fun t ht => (h t ht).mono hle

end Serving

/-! ## calls -/

section Calls

variable {lib : Library} {heap : Heap} {meaning : Meaning} {least depth : Nat} {scope : Scope}
  {w : World σ} {invocation : Invocation}

/-- A registered partial is rendered for the element as whose content it is shown; one that is not
registered is undefined. -/
theorem exists_renderPartial (hdepth : least ≤ depth) (hheap : w.heap = heap)
    (params : List Value) (hash : Hash) (invocation : Invocation) (place : Option NodeId)
    (hplace : ((invocation.morph.bind w.morph?).bind (·.context)).or invocation.context = place)
    (hcontext : ∀ id, place = some id → id.index < w.dom.size)
    (hserves : lib.partials.contains (partialName params) = true →
      lib.Serves σ heap meaning least (partialName params, scope)) (escaped : Bool) :
    ∃ v w', (lib.environment.hooks (depth + 1)).renderPartial scope params hash invocation w =
        some (v, w') ∧ w.Grows w' ∧
      v.Presents w.dom w'.dom escaped (w.dom.nsBelow place)
        (if lib.partials.contains (partialName params) then
          meaning (partialName params) scope (w.dom.nsBelow place) else []) ∧
      v.erase = if lib.partials.contains (partialName params) then .node default
        else .undefined := by
  have hrun : (lib.environment.hooks (depth + 1)).renderPartial scope params hash invocation w =
      (((lib.environment (σ := σ)).partials.get? (partialName params)).elim (pure .undefined)
        fun p => do
          let context := (← Hooks.morphContext invocation.morph).or invocation.context
          let rendered ← p.render (lib.environment.hooks depth) scope context
          return .node rendered.root.node : Render σ Value) w := by
    rw [hooks_succ]
    simp only [Hooks.defaults, partialName]
    cases (lib.environment (σ := σ)).partials.get? ((params.head?.map Value.text).getD "") <;> rfl
  rw [hrun, get?_partials, Dict.contains]
  rw [Dict.contains] at hserves
  cases ht : lib.partials.get? (partialName params) with
  | none => exact ⟨.undefined, w, rfl, .refl w, .undefined .., rfl⟩
  | some t =>
    rw [ht] at hserves
    obtain ⟨rendered, w', tree, hrender, hroot, hgrows, hloose, hshapes⟩ :=
      hserves rfl t ht depth hdepth place w hheap hcontext
    refine ⟨.node tree.label, w', ?_, hgrows, ?_, rfl⟩
    · refine (Render.bind_of_eq (show Hooks.morphContext invocation.morph w =
        some ((invocation.morph.bind w.morph?).bind (·.context), w) from rfl)).trans ?_
      rw [hplace]
      refine (Render.bind_of_eq hrender).trans ?_
      rw [hroot]
      rfl
    · rw [Option.isSome_some, if_pos rfl, ← hshapes]
      exact .node tree hloose

/-- A body is rendered with undefined block params. -/
theorem exists_render_invocation (hdepth : least ≤ depth) (hheap : w.heap = heap)
    (hscope : invocation.scope = scope) {body : Body Node} {trees : Namespace → List Markup}
    (hbody : invocation.body = some (compileBody body))
    (hrenders : lib.Renders σ heap least body (scope.bind body.blockParams []) trees)
    (element : Option NodeId)
    (hcontext : ∀ id, element.or invocation.context = some id → id.index < w.dom.size) :
    ∃ w' t, invocation.render (lib.environment.hooks depth) scope.context element [] w =
        some (.node t.label, w') ∧ w.Grows w' ∧ w.dom.Loose w'.dom t ∧
      shapes t.shown = trees (w.dom.nsBelow (element.or invocation.context)) := by
  obtain ⟨rendered, w', t, hrender, hroot, hgrows, hloose, hshapes⟩ :=
    hrenders depth hdepth _ w hheap hcontext
  refine ⟨w', t, ?_, hgrows, hloose, hshapes⟩
  rw [← hroot]
  refine Invocation.renderBody_of hbody ?_
  rw [blockParams_compileBody, hscope]
  exact hrender

/-- Calls the helper of a name, if there is one. -/
def called (self : Hooks σ) (path : String) (scope : Scope) (params : List Value) (hash : Hash)
    (invocation : Invocation) (otherwise : Render σ Value) : Render σ Value := do
  match ← self.lookupHelper path scope with
  | some helper => helper.run self scope params hash invocation
  | none => otherwise

/-- A hook shows in its morph what is called. -/
theorem content_of_called (env : Environment σ) {self : Hooks σ} {w w₁ : World σ}
    {path : String} {params : List Value} {hash : Hash} {value : Value}
    (h : called self path scope params hash invocation
      (if invocation.isLiteral then pure (.string path) else self.simple scope path) w =
        some (value, w₁)) (morph : MorphId) :
    (Hooks.defaults env self).content morph path scope params hash invocation w =
      some ((), w₁.updateMorph morph value) := by
  obtain ⟨helper?, w₀, hlookup, h⟩ := Render.exists_of_bind_eq h
  refine (Render.bind_of_eq hlookup).trans ?_
  cases helper? with
  | some helper => exact (Render.bind_of_eq h).trans rfl
  | none =>
    show (if invocation.isLiteral then pure (.string path) >>= Render.updateMorph morph
      else self.simple scope path >>= Render.updateMorph morph : Render σ Unit) w₀ = _
    simp only at h
    split at h
    · next hliteral =>
      rw [if_pos hliteral]
      exact (Render.bind_of_eq h).trans rfl
    · next hliteral =>
      rw [if_neg hliteral]
      exact (Render.bind_of_eq h).trans rfl

/-- A hook of an element calls what there is. -/
theorem element_of_called (env : Environment σ) {self : Hooks σ} {node : NodeId} {w w₁ : World σ}
    {path : String} {params : List Value} {hash : Hash} {value : Value}
    (h : called self path scope params hash { invocation with element := some node }
      (pure .undefined) w = some (value, w₁)) :
    (Hooks.defaults env self).element node path scope params hash invocation w = some ((), w₁) := by
  obtain ⟨helper?, w₀, hlookup, h⟩ := Render.exists_of_bind_eq h
  refine (Render.bind_of_eq hlookup).trans ?_
  cases helper? with
  | some helper => exact (Render.bind_of_eq h).trans rfl
  | none =>
    cases h
    rfl

theorem called_eq (path : String) (params : List Value) (hash : Hash)
    (otherwise : Render σ Value) :
    called (lib.environment.hooks (depth + 1)) path scope params hash invocation otherwise w =
      match lib.callee path with
      | .passThrough =>
        invocation.render (lib.environment.hooks depth) scope.context none [] w
      | .builtin b => b.run (lib.environment.hooks (depth + 1)) scope params hash invocation w
      | .path => otherwise w := by
  refine (Render.bind_of_eq (lib.lookupHelper_eq depth path scope w)).trans ?_
  rw [helper?]
  cases lib.callee path <;> rfl

/-- A call is shown as the trees it stands for: a helper that renders what it encloses makes those
of the body, a builtin one a value or a partial, and else the name is a path. -/
theorem exists_called_presents (hdepth : least ≤ depth) (hheap : w.heap = heap) (path : String)
    (params : List Value) (hash : Hash) (invocation : Invocation) (otherwise : Render σ Value)
    (value : Value) (enclosed : List Markup) (hscope : invocation.scope = scope)
    (helement : invocation.element = none)
    (hplace : ((invocation.morph.bind w.morph?).bind (·.context)).or invocation.context =
      invocation.context)
    (hcontext : ∀ id, invocation.context = some id → id.index < w.dom.size)
    (hserves : ∀ name ∈ lib.calledRequests path params,
      lib.Serves σ heap meaning least (name, scope))
    (henclosed : lib.callee path = .passThrough →
      invocation.body = none ∧ enclosed = [] ∨
        ∃ body trees, invocation.body = some (compileBody body) ∧
          lib.Renders σ heap least body (scope.bind body.blockParams []) trees ∧
          enclosed = trees (w.dom.nsBelow invocation.context))
    (hotherwise : lib.callee path = .path →
      otherwise w = some (value, w) ∧ value.isNode = false) (escaped : Bool) :
    ∃ v w', called (lib.environment.hooks (depth + 1)) path scope params hash invocation
        otherwise w = some (v, w') ∧ w.Grows w' ∧
      v.Presents w.dom w'.dom escaped (w.dom.nsBelow invocation.context)
        (lib.calledTrees meaning scope escaped (w.dom.nsBelow invocation.context) path params value
          enclosed) := by
  rw [called_eq, calledTrees]
  rw [calledRequests] at hserves
  cases hcallee : lib.callee path with
  | passThrough =>
    rcases henclosed hcallee with ⟨hbody, rfl⟩ | ⟨body, trees, hbody, hrenders, rfl⟩
    · refine ⟨.undefined, w, ?_, .refl w, .undefined ..⟩
      simp only [Invocation.render, Invocation.renderBody, hbody]
      rfl
    · obtain ⟨w', t, hrun, hgrows, hloose, hshapes⟩ :=
        exists_render_invocation hdepth hheap hscope hbody hrenders none hcontext
      refine ⟨_, w', hrun, hgrows, ?_⟩
      show Value.Presents _ _ _ _ _ (trees (w.dom.nsBelow (none.or invocation.context)))
      rw [← hshapes]
      exact .node t hloose
  | path =>
    obtain ⟨hrun, hvalue⟩ := hotherwise hcallee
    exact ⟨value, w, hrun, .refl w, .new value hvalue⟩
  | builtin b =>
    rw [hcallee] at hserves
    cases b with
    -- There is no element here whose attribute could be set.
    | setAttribute =>
      refine ⟨.undefined, w, ?_, .refl w, .undefined ..⟩
      simp only [Builtin.run, helement]
      rfl
    | concat => exact ⟨_, w, rfl, .refl w, .new _ rfl⟩
    | renderPartial =>
      obtain ⟨v, w', hrun, hgrows, hpresents, -⟩ :=
        exists_renderPartial hdepth hheap params hash invocation _ hplace hcontext
          (fun hregistered => hserves _ (by simp [hregistered])) escaped
      exact ⟨v, w', hrun, hgrows, hpresents⟩

/-- A call in parentheses has its value, up to which node it is. -/
theorem exists_subexpr (hscope : scope.NodeFree heap) (hdepth : least ≤ depth)
    (hheap : w.heap = heap) (call : Call) (params : List Value) (hash : Hash)
    (hserves : ∀ name ∈ lib.calledRequests call.path params,
      lib.Serves σ heap meaning least (name, scope)) :
    ∃ v w', (lib.environment.hooks (depth + 2)).subexpr call.path scope params hash
        (.ofCall call scope) w = some (v, w') ∧ w.Grows w' ∧
      v.erase = lib.calledValue scope heap call.path params := by
  have hrun : (lib.environment.hooks (depth + 2)).subexpr call.path scope params hash
      (.ofCall call scope) w =
      called (lib.environment.hooks (depth + 1)) call.path scope params hash (.ofCall call scope)
        ((lib.environment.hooks (depth + 1)).simple scope call.path) w := rfl
  rw [hrun, called_eq, calledValue]
  rw [calledRequests] at hserves
  cases hcallee : lib.callee call.path with
  | passThrough => exact ⟨.undefined, w, rfl, .refl w, rfl⟩
  | path =>
    refine ⟨_, w, simple_eq lib depth scope call.path w, .refl w, ?_⟩
    rw [hheap]
    exact Value.erase_of_not_isNode (hscope call.path)
  | builtin b =>
    rw [hcallee] at hserves
    cases b with
    | setAttribute => exact ⟨.undefined, w, rfl, .refl w, rfl⟩
    | concat => exact ⟨_, w, rfl, .refl w, rfl⟩
    | renderPartial =>
      obtain ⟨v, w', hrun, hgrows, -, herase⟩ :=
        exists_renderPartial hdepth hheap params hash (.ofCall call scope) none rfl (by simp) (fun hregistered => hserves _ (by simp [hregistered])) true
      exact ⟨v, w', hrun, hgrows, herase⟩

end Calls

/-! ## arguments -/

section Arguments

variable {lib : Library} {heap : Heap} {meaning : Meaning} {least depth : Nat} {scope : Scope}

/-- The value of a call does not depend on which nodes its params are. -/
theorem calledValue_erase (path : String) (params : List Value) :
    lib.calledValue scope heap path (params.map Value.erase) =
      lib.calledValue scope heap path params := by
  rw [calledValue, calledValue, joinedText_erase, partialName_erase]

theorem calledRequests_erase (path : String) (params : List Value) :
    lib.calledRequests path (params.map Value.erase) = lib.calledRequests path params := by
  rw [calledRequests, calledRequests, partialName_erase]

theorem calledTrees_erase (scope : Scope) (escaped : Bool) (ns : Namespace) (path : String)
    (params : List Value) (value : Value) (enclosed : List Markup) :
    lib.calledTrees meaning scope escaped ns path (params.map Value.erase) value enclosed =
      lib.calledTrees meaning scope escaped ns path params value enclosed := by
  rw [calledTrees, calledTrees, joinedText_erase, partialName_erase]

mutual

/-- Params are evaluated to their values, up to which nodes these are. -/
theorem exists_evaluateParam (hscope : scope.NodeFree heap) (hdepth : least ≤ depth) :
    (p : Param) → (w : World σ) → w.heap = heap →
    (∀ name ∈ lib.paramRequests scope heap p, lib.Serves σ heap meaning least (name, scope)) →
      ∃ v w', evaluateParam (lib.environment.hooks (depth + 2)) scope p w = some (v, w') ∧
        w.Grows w' ∧ v.erase = lib.paramValue scope heap p
  | .id path, w, hheap, _ => by
    refine ⟨_, w, simple_eq lib (depth + 1) scope path w, .refl w, ?_⟩
    rw [hheap]
    exact Value.erase_of_not_isNode (hscope path)
  | .call c, w, hheap, hserves => exists_evaluateCall hscope hdepth c w hheap hserves
  | .string _, w, _, _ => ⟨_, w, rfl, .refl w, rfl⟩
  | .number _, w, _, _ => ⟨_, w, rfl, .refl w, rfl⟩
  | .boolean _, w, _, _ => ⟨_, w, rfl, .refl w, rfl⟩

theorem exists_evaluateCall (hscope : scope.NodeFree heap) (hdepth : least ≤ depth) :
    (c : Call) → (w : World σ) → w.heap = heap →
    (∀ name ∈ lib.callRequests scope heap c, lib.Serves σ heap meaning least (name, scope)) →
      ∃ v w', evaluateCall (lib.environment.hooks (depth + 2)) scope c w = some (v, w') ∧
        w.Grows w' ∧ v.erase = lib.callValue scope heap c
  | ⟨path, some literal, params, hash⟩, w, _, _ => by
    refine ⟨literal.literalValue, w, rfl, .refl w, ?_⟩
    cases literal <;> rfl
  | ⟨path, none, params, hash⟩, w, hheap, hserves => by
    rw [callRequests, List.forall_mem_append, List.forall_mem_append] at hserves
    obtain ⟨values, w₁, hparams, hgrows₁, hvalues⟩ :=
      exists_evaluateParams hscope hdepth params w hheap hserves.1.1
    obtain ⟨pairs, w₂, hpairs, hgrows₂⟩ :=
      exists_evaluatePairs hscope hdepth hash w₁ (hgrows₁.heap.trans hheap) hserves.1.2
    have hcalled : ∀ name ∈ lib.calledRequests path values,
        lib.Serves σ heap meaning least (name, scope) := by
      rw [← calledRequests_erase, hvalues]
      exact hserves.2
    obtain ⟨v, w₃, hcall, hgrows₃, herase⟩ :=
      exists_subexpr hscope hdepth (hgrows₂.heap.trans (hgrows₁.heap.trans hheap))
        ⟨path, none, params, hash⟩ values (.ofPairs pairs) hcalled
    refine ⟨v, w₃, ?_, (hgrows₁.trans hgrows₂).trans hgrows₃, ?_⟩
    · rw [evaluateCall]
      refine (Render.bind_of_eq hparams).trans ?_
      exact (Render.bind_of_eq hpairs).trans hcall
    · rw [herase, ← calledValue_erase, hvalues, callValue]

theorem exists_evaluateParams (hscope : scope.NodeFree heap) (hdepth : least ≤ depth) :
    (ps : List Param) → (w : World σ) → w.heap = heap →
    (∀ name ∈ lib.paramsRequests scope heap ps, lib.Serves σ heap meaning least (name, scope)) →
      ∃ vs w', evaluateParams (lib.environment.hooks (depth + 2)) scope ps w = some (vs, w') ∧
        w.Grows w' ∧ vs.map Value.erase = lib.paramValues scope heap ps
  | [], w, _, _ => ⟨[], w, rfl, .refl w, rfl⟩
  | p :: ps, w, hheap, hserves => by
    rw [paramsRequests, List.forall_mem_append] at hserves
    obtain ⟨v, w₁, hparam, hgrows₁, hvalue⟩ :=
      exists_evaluateParam hscope hdepth p w hheap hserves.1
    obtain ⟨vs, w₂, hparams, hgrows₂, hvalues⟩ :=
      exists_evaluateParams hscope hdepth ps w₁ (hgrows₁.heap.trans hheap) hserves.2
    refine ⟨v :: vs, w₂, ?_, hgrows₁.trans hgrows₂, ?_⟩
    · rw [evaluateParams]
      refine (Render.bind_of_eq hparam).trans ?_
      exact (Render.bind_of_eq hparams).trans rfl
    · rw [List.map_cons, hvalue, hvalues, paramValues]

/-- The pairs of a hash are evaluated as well. -/
theorem exists_evaluatePairs (hscope : scope.NodeFree heap) (hdepth : least ≤ depth) :
    (pairs : List (String × Param)) → (w : World σ) → w.heap = heap →
    (∀ name ∈ lib.pairsRequests scope heap pairs,
      lib.Serves σ heap meaning least (name, scope)) →
      ∃ values w', evaluatePairs (lib.environment.hooks (depth + 2)) scope pairs w =
        some (values, w') ∧ w.Grows w'
  | [], w, _, _ => ⟨[], w, rfl, .refl w⟩
  | (key, p) :: pairs, w, hheap, hserves => by
    rw [pairsRequests, List.forall_mem_append] at hserves
    obtain ⟨v, w₁, hparam, hgrows₁, -⟩ := exists_evaluateParam hscope hdepth p w hheap hserves.1
    obtain ⟨values, w₂, hpairs, hgrows₂⟩ :=
      exists_evaluatePairs hscope hdepth pairs w₁ (hgrows₁.heap.trans hheap) hserves.2
    refine ⟨(key, v) :: values, w₂, ?_, hgrows₁.trans hgrows₂⟩
    rw [evaluatePairs]
    refine (Render.bind_of_eq hparam).trans ?_
    exact (Render.bind_of_eq hpairs).trans rfl

end

variable {w : World σ}

theorem exists_evaluateHash (hscope : scope.NodeFree heap) (hdepth : least ≤ depth)
    (hheap : w.heap = heap) {pairs : List (String × Param)}
    (hserves : ∀ name ∈ lib.pairsRequests scope heap pairs,
      lib.Serves σ heap meaning least (name, scope)) :
    ∃ hash w', evaluateHash (lib.environment.hooks (depth + 2)) scope pairs w =
      some (hash, w') ∧ w.Grows w' := by
  obtain ⟨values, w', hpairs, hgrows⟩ :=
    exists_evaluatePairs hscope hdepth pairs w hheap hserves
  exact ⟨.ofPairs values, w', (Render.bind_of_eq hpairs).trans rfl, hgrows⟩

/-- The arguments of a call are evaluated. -/
theorem exists_evaluateArguments (hscope : scope.NodeFree heap) (hdepth : least ≤ depth)
    (hheap : w.heap = heap) (call : Call)
    (hserves : ∀ name ∈ lib.argumentRequests scope heap call,
      lib.Serves σ heap meaning least (name, scope)) :
    ∃ values hash w', evaluateArguments (lib.environment.hooks (depth + 2)) scope call w =
        some ((values, hash), w') ∧ w.Grows w' ∧
      values.map Value.erase = lib.paramValues scope heap call.params := by
  rw [argumentRequests, List.forall_mem_append] at hserves
  obtain ⟨values, w₁, hparams, hgrows₁, hvalues⟩ :=
    exists_evaluateParams hscope hdepth call.params w hheap hserves.1
  obtain ⟨hash, w₂, hhash, hgrows₂⟩ :=
    exists_evaluateHash (w := w₁) hscope hdepth (hgrows₁.heap.trans hheap) hserves.2
  refine ⟨values, hash, w₂, ?_, hgrows₁.trans hgrows₂, hvalues⟩
  rw [evaluateArguments]
  refine (Render.bind_of_eq hparams).trans ?_
  exact (Render.bind_of_eq hhash).trans rfl

end Arguments

end Library

end LiveTemplate
