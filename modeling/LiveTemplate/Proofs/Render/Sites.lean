import LiveTemplate.Render.Environment

/-!
# LiveTemplate.Proofs.Render.Sites

Renders as computations with a result, the morphs they register, and the sites of a
program rendered one after the other, between building and unwrapping the fragment.
-/

namespace LiveTemplate

/-! ## morphs -/

namespace World

variable {σ : Type} {w : World σ} {id : MorphId} {m : Morph}

theorem morph?_addMorph (w : World σ) (m : Morph) (id : MorphId) :
    (w.addMorph m).2.morph? id = if id.index = w.morphs.size then some m else w.morph? id :=
  Array.getElem?_push

theorem index_lt_of_morph?_eq_some (h : w.morph? id = some m) : id.index < w.morphs.size :=
  (Array.getElem?_eq_some_iff.1 h).1

theorem morph?_modifyMorph (w : World σ) (id : MorphId) (f : Morph → Morph) (id' : MorphId) :
    (w.modifyMorph id f).morph? id' =
      if id' = id then (w.morph? id').map f else w.morph? id' := by
  show (w.morphs.modify id.index f)[id'.index]? = _
  rw [Array.getElem?_modify]
  by_cases hid : id' = id
  · subst hid
    rw [if_pos rfl, if_pos rfl]
    rfl
  · have hindex : id.index ≠ id'.index := fun h => hid (by cases id; cases id'; simp_all)
    rw [if_neg hindex, if_neg hid]
    rfl

theorem updateMorph_eq (h : w.morph? id = some m) (value : Value) :
    w.updateMorph id value =
      { w.modifyMorph id fun _ => (m.update value w.dom).1 with
        dom := (m.update value w.dom).2 } := by
  rw [updateMorph, h]

/-- Updating a morph changes it, and no other one. -/
theorem morph?_updateMorph (h : w.morph? id = some m) (value : Value) (id' : MorphId) :
    (w.updateMorph id value).morph? id' =
      if id' = id then some (m.update value w.dom).1 else w.morph? id' := by
  rw [updateMorph_eq h]
  refine (morph?_modifyMorph w id (fun _ => (m.update value w.dom).1) id').trans ?_
  by_cases hid : id' = id
  · subst hid
    rw [if_pos rfl, if_pos rfl, h]
    rfl
  · rw [if_neg hid, if_neg hid]

theorem dom_updateMorph (h : w.morph? id = some m) (value : Value) :
    (w.updateMorph id value).dom = (m.update value w.dom).2 := by
  rw [updateMorph_eq h]

theorem heap_updateMorph (w : World σ) (id : MorphId) (value : Value) :
    (w.updateMorph id value).heap = w.heap := by
  rw [updateMorph]
  split <;> rfl

theorem size_morphs_updateMorph (w : World σ) (id : MorphId) (value : Value) :
    (w.updateMorph id value).morphs.size = w.morphs.size := by
  rw [updateMorph]
  split
  · rfl
  · exact Array.size_modify

end World

/-! ## computations -/

namespace Render

variable {σ α β : Type}

theorem bind_apply (x : Render σ α) (f : α → Render σ β) (w : World σ) :
    (x >>= f) w = (x w).bind fun p => f p.1 p.2 := rfl

/-- A computation goes on from where its first part ends. -/
theorem bind_of_eq {x : Render σ α} {f : α → Render σ β} {w w' : World σ} {a : α}
    (h : x w = some (a, w')) : (x >>= f) w = f a w' := by
  rw [bind_apply, h]
  rfl

/-- A computation with a result has one after its first part. -/
theorem exists_of_bind_eq {x : Render σ α} {f : α → Render σ β} {w w'' : World σ} {b : β}
    (h : (x >>= f) w = some (b, w'')) : ∃ a w', x w = some (a, w') ∧ f a w' = some (b, w'') := by
  rw [bind_apply] at h
  obtain ⟨⟨a, w'⟩, hx, hf⟩ := Option.bind_eq_some_iff.1 h
  exact ⟨a, w', hx, hf⟩

theorem pure_apply (a : α) (w : World σ) : (pure a : Render σ α) w = some (a, w) := rfl

end Render

/-! ## bodies -/

/-- A body is rendered in the scope of what encloses it, with arguments for its block params. -/
theorem Invocation.renderBody_of {σ : Type} {hooks : Hooks σ} {invocation : Invocation}
    {part : Option Program} {p : Program} {context : Value} {element : Option NodeId}
    {arguments : List Value} {w w₁ : World σ} {rendered : Rendered} (hpart : part = some p)
    (hrender : p.render hooks ((invocation.scope.withContext context).bind p.blockParams arguments)
      (element.or invocation.context) w = some (rendered, w₁)) :
    invocation.renderBody hooks part context element arguments w =
      some (.node rendered.root.node, w₁) := by
  rw [hpart, renderBody]
  exact (Render.bind_of_eq hrender).trans rfl

/-! ## single sites -/

section Single

variable {σ : Type} {p : Program} {hooks : Hooks σ} {scope : Scope} {target : Target}
  {w w₁ w₂ : World σ}

/-- The site of a mustache adds a morph, evaluates the arguments and calls the hook. -/
theorem Program.renderSite_content_of {call : Call} {escaped : Bool} {params : List Value}
    {hash : Hash}
    (harguments : evaluateArguments hooks scope call
      (w.addMorph (.create target.node escaped target.context)).2 = some ((params, hash), w₁))
    (hcontent : hooks.content ⟨w.morphs.size⟩ call.path scope params hash
      { Invocation.ofCall call scope with
        morph := some ⟨w.morphs.size⟩, context := target.context } w₁ = some ((), w₂)) :
    p.renderSite hooks scope (.content call escaped) target w =
      some (some ⟨w.morphs.size⟩, w₂) := by
  refine (Render.bind_of_eq (show Render.addMorph _ w = some (⟨w.morphs.size⟩,
    (w.addMorph (.create target.node escaped target.context)).2) from rfl)).trans ?_
  refine (Render.bind_of_eq harguments).trans ?_
  exact (Render.bind_of_eq hcontent).trans rfl

/-- The site of a block does what that of a mustache does, and tells the hook of the bodies. -/
theorem Program.renderSite_block_of {call : Call} {program : Nat} {inverse : Option Nat}
    {params : List Value} {hash : Hash}
    (harguments : evaluateArguments hooks scope call
      (w.addMorph (.create target.node true target.context)).2 = some ((params, hash), w₁))
    (hcontent : hooks.content ⟨w.morphs.size⟩ call.path scope params hash
      { Invocation.ofCall call scope with
        morph := some ⟨w.morphs.size⟩
        context := target.context
        blockParams := (p.children[program]?.map (·.blockParams.length)).filter (· != 0)
        body := p.children[program]?
        inverse := inverse.bind (p.children[·]?) } w₁ = some ((), w₂)) :
    p.renderSite hooks scope (.block call program inverse) target w =
      some (some ⟨w.morphs.size⟩, w₂) := by
  refine (Render.bind_of_eq (show Render.addMorph _ w = some (⟨w.morphs.size⟩,
    (w.addMorph (.create target.node true target.context)).2) from rfl)).trans ?_
  refine (Render.bind_of_eq harguments).trans ?_
  exact (Render.bind_of_eq hcontent).trans rfl

/-- The site of a component adds a morph and calls the hook. -/
theorem Program.renderSite_component_of {tag : String} {hash : List (String × Param)}
    {program : Nat}
    (hcomponent : hooks.component ⟨w.morphs.size⟩ tag scope hash
      { morph := some ⟨w.morphs.size⟩
        context := target.context
        hashTypes := hash.map fun pair => (pair.1, pair.2.type)
        scope
        body := p.children[program]? }
      (w.addMorph (.create target.node true target.context)).2 = some ((), w₁)) :
    p.renderSite hooks scope (.component tag hash program) target w =
      some (some ⟨w.morphs.size⟩, w₁) := by
  refine (Render.bind_of_eq (show Render.addMorph _ w = some (⟨w.morphs.size⟩,
    (w.addMorph (.create target.node true target.context)).2) from rfl)).trans ?_
  exact (Render.bind_of_eq hcomponent).trans rfl

namespace Hooks

variable {env : Environment σ} {self : Hooks σ} {morph : MorphId} {tag : String}
  {pairs : List (String × Param)} {invocation : Invocation}

/-- The helper of a component shows its value, once the hash is evaluated for it. -/
theorem component_of_helper {helper : Helper σ} {hash : Hash} {value : Value}
    (hlookup : self.lookupHelper tag scope w = some (some helper, w))
    (hhash : evaluateHash self scope pairs w = some (hash, w₁))
    (hrun : helper.run self scope [] hash invocation w₁ = some (value, w₂)) :
    (defaults env self).component morph tag scope pairs invocation w =
      some ((), w₂.updateMorph morph value) := by
  refine (Render.bind_of_eq hlookup).trans ?_
  refine (Render.bind_of_eq hhash).trans ?_
  exact (Render.bind_of_eq hrun).trans rfl

/-- A component without a helper shows what it falls back to. -/
theorem component_of_fallback {value : Value}
    (hlookup : self.lookupHelper tag scope w = some (none, w))
    (hfallback : self.componentFallback morph tag scope pairs invocation w = some (value, w₁)) :
    (defaults env self).component morph tag scope pairs invocation w =
      some ((), w₁.updateMorph morph value) := by
  refine (Render.bind_of_eq hlookup).trans ?_
  exact (Render.bind_of_eq hfallback).trans rfl

/-- A component falls back to an element that is created, gets its attributes, and then the body
that is rendered for it. -/
theorem componentFallback_of {body : NodeId}
    (hset : setAttributes self scope ⟨w.dom.size⟩ pairs
      { w with dom := (w.dom.create (.element tag (Namespace.ofElement tag
        (w.dom.nsBelow ((w.morph? morph).bind (·.context)))) {})).2 } = some ((), w₁))
    (hbody : invocation.render self scope.context (some ⟨w.dom.size⟩) [] w₁ =
      some (.node body, w₂)) :
    (defaults env self).componentFallback morph tag scope pairs invocation w =
      some (.node ⟨w.dom.size⟩, { w₂ with dom := w₂.dom.appendChild ⟨w.dom.size⟩ body }) := by
  refine (Render.bind_of_eq (show morphContext (some morph) w =
    some ((w.morph? morph).bind (·.context), w) from rfl)).trans ?_
  refine (Render.bind_of_eq (show Render.runDom _ w = some (⟨w.dom.size⟩, _) from rfl)).trans ?_
  refine (Render.bind_of_eq hset).trans ?_
  exact (Render.bind_of_eq hbody).trans rfl

end Hooks

end Single

/-! ## sites -/

namespace Program

variable {σ : Type} {p : Program} {hooks : Hooks σ} {scope : Scope}

/-- Renders sites at their targets, one after the other. -/
def run (p : Program) (hooks : Hooks σ) (scope : Scope) (sites : List (Action × Target)) :
    Render σ (List (Option MorphId)) :=
  sites.mapM fun (action, target) => p.renderSite hooks scope action target

/-- Sites that are rendered first do not depend on those behind them. -/
theorem run_append {sites sites' : List (Action × Target)} {w w' w'' : World σ}
    {results results' : List (Option MorphId)}
    (h : p.run hooks scope sites w = some (results, w'))
    (h' : p.run hooks scope sites' w' = some (results', w'')) :
    p.run hooks scope (sites ++ sites') w = some (results ++ results', w'') := by
  rw [run, List.mapM_append]
  refine (Render.bind_of_eq h).trans ?_
  exact (Render.bind_of_eq h').trans rfl

theorem run_cons {action : Action} {target : Target} {sites : List (Action × Target)}
    {w w' w'' : World σ} {result : Option MorphId} {results : List (Option MorphId)}
    (h : p.renderSite hooks scope action target w = some (result, w'))
    (h' : p.run hooks scope sites w' = some (results, w'')) :
    p.run hooks scope ((action, target) :: sites) w = some (result :: results, w'') := by
  rw [run, List.mapM_cons]
  refine (Render.bind_of_eq h).trans ?_
  exact (Render.bind_of_eq h').trans rfl

/-- Sites that have been rendered have been so one after the other. -/
theorem exists_of_run_cons {action : Action} {target : Target} {sites : List (Action × Target)}
    {w w'' : World σ} {results : List (Option MorphId)}
    (h : p.run hooks scope ((action, target) :: sites) w = some (results, w'')) :
    ∃ result results' w', results = result :: results' ∧
      p.renderSite hooks scope action target w = some (result, w') ∧
      p.run hooks scope sites w' = some (results', w'') := by
  rw [run, List.mapM_cons] at h
  obtain ⟨result, w', hsite, h⟩ := Render.exists_of_bind_eq h
  obtain ⟨results', w₁, hrun, h⟩ := Render.exists_of_bind_eq h
  cases h
  exact ⟨result, results', w', rfl, hsite, hrun⟩

/-- The sites of a program at their targets. -/
def targets (p : Program) (dom : Dom) (fragment : NodeId) (context : Option NodeId) :
    List (Action × Target) :=
  p.sites.map fun s => (s.action, s.target dom fragment context)

/-- A program that is not static renders its sites at their targets. -/
theorem renderSites_eq (fragment : NodeId) (context : Option NodeId) (w : World σ) :
    p.renderSites hooks scope fragment context w =
      if p.isStatic then some ([], w)
      else (p.run hooks scope (p.targets w.dom fragment context) w).map
        fun (results, w') => (results.filterMap id, w') := by
  rw [renderSites]
  by_cases hstatic : p.isStatic
  · rw [if_pos hstatic, if_pos hstatic]
    rfl
  · rw [if_neg hstatic, if_neg hstatic]
    show (p.run hooks scope (p.targets w.dom fragment context) >>= fun results =>
      pure (results.filterMap id)) w = _
    rw [Render.bind_apply]
    cases p.run hooks scope (p.targets w.dom fragment context) w <;> rfl

/-! ## renders -/

/-- The fragment that a program builds, with its static trees below it. -/
def plant (p : Program) (dom : Dom) (context : Option NodeId) : NodeId × Dom :=
  dom.plantFragment (p.forest (dom.nsBelow context))

/-- A render builds, renders the sites and unwraps the fragment. -/
theorem render_eq (context : Option NodeId) (w : World σ) :
    p.render hooks scope context w =
      (p.renderSites hooks scope (p.plant w.dom context).1 context
          { w with dom := (p.plant w.dom context).2 }).map
        fun (morphs, w') =>
          ({ root := (w'.dom.unwrap (p.plant w.dom context).1).1, morphs },
            { w' with dom := (w'.dom.unwrap (p.plant w.dom context).1).2 }) := by
  rw [render]
  refine (Render.bind_of_eq (show Render.runDom _ w = some ((p.plant w.dom context).1,
    { w with dom := (p.plant w.dom context).2 }) from rfl)).trans ?_
  rw [Render.bind_apply]
  cases p.renderSites hooks scope (p.plant w.dom context).1 context
    { w with dom := (p.plant w.dom context).2 } <;> rfl

theorem render_of_eq {context : Option NodeId} {w w' : World σ} {morphs : List MorphId}
    (h : p.renderSites hooks scope (p.plant w.dom context).1 context
      { w with dom := (p.plant w.dom context).2 } = some (morphs, w')) :
    p.render hooks scope context w =
      some ({ root := (w'.dom.unwrap (p.plant w.dom context).1).1, morphs },
        { w' with dom := (w'.dom.unwrap (p.plant w.dom context).1).2 }) := by
  rw [render_eq, h]
  rfl

end Program

end LiveTemplate
