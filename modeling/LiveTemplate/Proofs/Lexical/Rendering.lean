import LiveTemplate.Proofs.Lexical.Gaining
import LiveTemplate.Proofs.Library.Rendering
import LiveTemplate.Proofs.Template.Binding

/-!
# LiveTemplate.Proofs.Lexical.Rendering

Block params are scoped lexically.

A body is rendered in the scope that its levels make, whatever has been rendered before, since
the scope is made anew from that of the call.  So by induction over the bodies in a body, what
its morphs show is read off the template (`exists_reads`).
-/

namespace LiveTemplate

variable {σ : Type}

/-- Hooks of the helpers, at every depth from `least` on, render a body in any levels, and its
morphs show what is read off it. -/
def Reads (σ : Type) (helpers : Dict BlockHelper) (least : Nat) (body : Body Node) : Prop :=
  ∀ depth, least ≤ depth → ∀ (levels : List Level) (context : Option NodeId) (w : World σ),
    ∃ rendered w', (compileBody body).render ((blockEnvironment helpers).hooks depth)
        (scopeOf levels) context w = some (rendered, w') ∧
      w.Gains w' (bodyValues helpers w.heap levels body)

variable {helpers : Dict BlockHelper} {levels : List Level} {least depth : Nat} {w : World σ}

theorem Reads.mono {least' : Nat} {body : Body Node} (h : Reads σ helpers least body)
    (hle : least ≤ least') : Reads σ helpers least' body :=
  fun depth hdepth => h depth (Nat.le_trans hle hdepth)

/-! ## attributes and modifiers -/

section Quiet

variable (depth) (scope : Scope)

/-- The texts of the parts of an attribute are read off the world. -/
theorem exists_partTexts (parts : List Value) (types : List ParamType) :
    ∃ texts, Hooks.partTexts ((blockEnvironment helpers).hooks (depth + 1)) scope parts types w =
      some (texts, w) := by
  induction parts generalizing types with
  | nil => exact ⟨[], rfl⟩
  | cons part parts ih =>
    obtain ⟨texts, htexts⟩ := ih types.tail
    have hrest : ∀ value : Value, (do
        let texts ← Hooks.partTexts ((blockEnvironment helpers).hooks (depth + 1)) scope parts
          types.tail
        return value.text :: texts : Render σ (List String)) w = some (value.text :: texts, w) :=
      fun value => (Render.bind_of_eq htexts).trans rfl
    rw [Hooks.partTexts]
    split
    · exact ⟨_, (Render.bind_of_eq (show _ = some (scope.lookup w.heap part.text, w)
        from rfl)).trans (hrest _)⟩
    · exact ⟨_, hrest part⟩

theorem exists_attributeValue (quoted : Bool) (parts : List Value) (invocation : Invocation) :
    ∃ value, Hooks.attributeValue ((blockEnvironment helpers).hooks (depth + 2)) quoted scope parts
      invocation w = some (value, w) := by
  cases quoted with
  | true =>
    obtain ⟨texts, htexts⟩ :=
      exists_partTexts (w := w) depth scope parts invocation.paramTypes
    exact ⟨_, (Render.bind_of_eq htexts).trans rfl⟩
  | false =>
    simp only [Hooks.attributeValue, Bool.false_eq_true, if_false]
    cases parts with
    | nil => exact ⟨_, rfl⟩
    | cons part parts =>
      cases invocation.paramTypes with
      | nil => exact ⟨_, rfl⟩
      | cons type types => cases type <;> exact ⟨_, rfl⟩

/-- The site of an attribute adds no morph. -/
theorem exists_renderSite_attr (p : Program) (name : String) (quoted : Bool) (parts : List Param)
    (target : Target) :
    ∃ w', p.renderSite ((blockEnvironment helpers).hooks (depth + 4)) scope
        (.attr name quoted parts) target w = some (none, w') ∧ w.Gains w' [] := by
  obtain ⟨values, hvalues⟩ := (evaluates_hooks helpers (depth + 2)).exists_evaluateParts scope w
    parts
  obtain ⟨value, hvalue⟩ := exists_attributeValue (w := w) (depth + 1) scope
    quoted values { element := some target.node, paramTypes := parts.map Param.type, scope }
  refine ⟨{ w with dom := if value.isNullish then w.dom.removeAttribute target.node name
    else w.dom.setAttribute target.node name value.text }, ?_, (World.Gains.refl w).changeDom ?_⟩
  · refine (Render.bind_of_eq hvalues).trans ?_
    exact (Render.bind_of_eq (Render.bind_of_eq hvalue)).trans rfl
  · intro id hid
    rw [Dom.changeAttributes_value]
    exact hid.changeAttributes target.node _

/-- What is called on an element shows nothing. -/
theorem exists_called_element (path : String) (params : List Value) (hash : Hash)
    (invocation : Invocation) (hbody : invocation.body = none)
    (hinverse : invocation.inverse = none) :
    ∃ value w', Library.called ((blockEnvironment helpers).hooks (depth + 1)) path scope params hash
        invocation (pure .undefined) w = some (value, w') ∧ w.Gains w' [] := by
  cases hhelper : helpers.get? path with
  | some helper =>
    rw [called_of_get? depth _ _ _ _ _ hhelper]
    exact ⟨_, w, run_of_empty scope params hash helper _ hbody hinverse, .refl w⟩
  | none =>
    rw [called_of_get?_eq_none depth _ _ _ _ _ hhelper]
    cases Builtin.ofName? path with
    | none => exact ⟨_, w, rfl, .refl w⟩
    | some b =>
      cases b with
      | concat => exact ⟨_, w, rfl, .refl w⟩
      | renderPartial => exact ⟨_, w, rfl, .refl w⟩
      | setAttribute =>
        rw [Option.elim_some]
        simp only [Builtin.run]
        cases invocation.element with
        | none => exact ⟨_, w, rfl, .refl w⟩
        | some node =>
          cases params with
          | nil => exact ⟨_, w, rfl, .refl w⟩
          | cons name values =>
            exact ⟨_, _, rfl, (World.Gains.refl w).changeDom fun id hid =>
              hid.changeAttributes node (·.set name.text (joinedText values))⟩

/-- The site of a modifier adds no morph. -/
theorem exists_renderSite_modifier (p : Program) (call : Call) (target : Target) :
    ∃ w', p.renderSite ((blockEnvironment helpers).hooks (depth + 4)) scope (.modifier call) target
        w = some (none, w') ∧ w.Gains w' [] := by
  obtain ⟨value, w', hcalled, hgains⟩ := exists_called_element (w := w)
    (depth + 2) scope call.path _ _
    { Invocation.ofCall call scope with element := some target.node } rfl rfl
  refine ⟨w', ?_, hgains⟩
  refine (Render.bind_of_eq ((evaluates_hooks helpers (depth + 2)).evaluateArguments_eq scope w
    call)).trans ?_
  exact (Render.bind_of_eq (Library.element_of_called (blockEnvironment helpers) hcalled)).trans rfl

end Quiet

/-! ## mustaches -/

/-- A call that is no helper around something shows what the mustache does. -/
theorem called_mustache (helpers : Dict BlockHelper) (levels : List Level) (depth : Nat)
    (call : Call) (hash : Hash) (invocation : Invocation) (w : World σ)
    (hliteral : invocation.isLiteral = call.literal.isSome)
    (hempty : helpers.get? call.path = none ∨ invocation.body = none ∧ invocation.inverse = none)
    (helement : invocation.element = none) :
    Library.called ((blockEnvironment helpers).hooks (depth + 1)) call.path (scopeOf levels)
        ((blockLibrary helpers).paramValues (scopeOf levels) w.heap call.params) hash invocation
        (if invocation.isLiteral then pure (.string call.path)
          else ((blockEnvironment helpers).hooks (depth + 1)).simple (scopeOf levels) call.path) w =
      some (mustacheValue helpers w.heap levels call, w) := by
  rw [mustacheValue]
  by_cases hpath : (blockLibrary helpers).callee call.path = .path
  · rw [called_of_path depth _ _ _ _ _ hpath, hpath, hliteral]
    dsimp only
    split
    · rfl
    · rw [← lookup_scopeOf]
      rfl
  · rw [called_of_empty depth _ _ _ _ hpath hempty helement]
    cases hcallee : (blockLibrary helpers).callee call.path with
    | path => exact absurd hcallee hpath
    | passThrough => rfl
    | builtin b => rfl

section Sites

variable (p : Program) {target : Target}

/-- What is called after a morph has been added is shown in it. -/
theorem exists_content_of_called (hstands : w.dom.Stands target.node) (call : Call) (escaped : Bool)
    (hash : Hash) (invocation : Invocation) {w₁ : World σ} {value : Value} {own : Shown}
    {inner : List Shown}
    (hcalled : Library.called ((blockEnvironment helpers).hooks (depth + 3)) call.path
      (scopeOf levels) ((blockLibrary helpers).paramValues (scopeOf levels) w.heap call.params) hash
      invocation (if invocation.isLiteral then pure (.string call.path)
        else ((blockEnvironment helpers).hooks (depth + 3)).simple (scopeOf levels) call.path)
      (w.addMorph (.create target.node escaped target.context)).2 = some (value, w₁))
    (hgains : (w.addMorph (.create target.node escaped target.context)).2.Gains w₁ inner)
    (hvalue : own.Describes value) :
    ∃ w', ((blockEnvironment helpers).hooks (depth + 4)).content ⟨w.morphs.size⟩ call.path
        (scopeOf levels) ((blockLibrary helpers).paramValues (scopeOf levels) w.heap call.params)
        hash invocation (w.addMorph (.create target.node escaped target.context)).2 =
          some ((), w') ∧
      w.Gains w' (own :: inner) :=
  ⟨_, Library.content_of_called (blockEnvironment helpers) hcalled ⟨w.morphs.size⟩,
    hgains.updateMorph hstands hvalue⟩

/-- The site of a mustache shows what the mustache does. -/
theorem exists_renderSite_content (hstands : w.dom.Stands target.node) (call : Call)
    (escaped : Bool) :
    ∃ w', p.renderSite ((blockEnvironment helpers).hooks (depth + 4)) (scopeOf levels)
        (.content call escaped) target w = some (some ⟨w.morphs.size⟩, w') ∧
      w.Gains w' [.value (mustacheValue helpers w.heap levels call)] := by
  let invocation : Invocation := { Invocation.ofCall call (scopeOf levels) with
    morph := some ⟨w.morphs.size⟩, context := target.context }
  have hcalled := called_mustache helpers levels (depth + 2) call
    (pairValues helpers w.heap levels call.hash) invocation
    (w.addMorph (.create target.node escaped target.context)).2 rfl (.inr ⟨rfl, rfl⟩) rfl
  obtain ⟨w', hcontent, hgains⟩ :=
    exists_content_of_called hstands call escaped _ invocation hcalled (.refl _)
      (show Shown.Describes (.value _) _ from rfl)
  have hevaluates := evaluates_hooks (σ := σ) helpers (depth + 2)
  exact ⟨w', Program.renderSite_content_of
    (hevaluates.evaluateArguments_eq (scopeOf levels) _ call) hcontent, hgains⟩

end Sites

/-! ## bodies -/

section Bodies

variable {invocation : Invocation} {body : Body Node}

/-- A body is rendered in a level more than what calls it. -/
theorem Reads.exists_renderBody (h : Reads σ helpers least body) (hdepth : least ≤ depth)
    (hscope : invocation.scope = scopeOf levels) {part : Option Program}
    (hpart : part = some (compileBody body)) (context : Value) (element : Option NodeId)
    (arguments : List Value) (w : World σ) :
    ∃ id w', invocation.renderBody ((blockEnvironment helpers).hooks depth) part context element
        arguments w = some (.node id, w') ∧
      w.Gains w' (bodyValues helpers w.heap (⟨body.blockParams, arguments, context⟩ :: levels)
        body) := by
  obtain ⟨rendered, w', hrender, hgains⟩ := h depth hdepth
    (⟨body.blockParams, arguments, context⟩ :: levels) (element.or invocation.context) w
  refine ⟨rendered.root.node, w', Invocation.renderBody_of hpart ?_, hgains⟩
  rw [blockParams_compileBody, hscope]
  exact hrender

/-- A helper renders the part that it chooses, with what it supplies. -/
theorem exists_run (helper : BlockHelper) (hdepth : least ≤ depth) (params : List Value)
    (hash : Hash) (invocation : Invocation) (hscope : invocation.scope = scopeOf levels)
    (hbody : invocation.body = some (compileBody body)) (hreads : Reads σ helpers least body)
    (inverse : Option (Body Node)) (hinverse : invocation.inverse = inverse.map compileBody)
    (hotherwise : ∀ b, inverse = some b → Reads σ helpers least b ∧ b.blockParams = [])
    (w : World σ) :
    let supply := helper (scopeOf levels) params hash w.heap
    ∃ value w' own inner, helper.run ((blockEnvironment helpers).hooks depth) (scopeOf levels)
        params hash invocation w = some (value, w') ∧
      w.Gains w' inner ∧ own.Describes value ∧
      own :: inner = if supply.inverse then
          inverseValues helpers w.heap (⟨[], supply.arguments, supply.context⟩ :: levels) inverse
        else .part :: bodyValues helpers w.heap
          (⟨body.blockParams, supply.arguments, supply.context⟩ :: levels) body := by
  intro supply
  have hrun : helper.run ((blockEnvironment helpers).hooks depth) (scopeOf levels) params hash
      invocation w = (if supply.inverse then
        invocation.renderInverse ((blockEnvironment helpers).hooks depth) supply.context none
          supply.arguments
      else invocation.render ((blockEnvironment helpers).hooks depth) supply.context none
        supply.arguments : Render σ Value) w :=
    Render.bind_of_eq (show Render.read _ w = some (supply, w) from rfl)
  rw [hrun]
  by_cases hchoice : supply.inverse = true
  · rw [if_pos hchoice, if_pos hchoice, Invocation.renderInverse]
    cases inverse with
    | none =>
      rw [hinverse]
      exact ⟨.undefined, w, .value .undefined, [], rfl, .refl w, rfl, rfl⟩
    | some inverse =>
      obtain ⟨hreads', hnames⟩ := hotherwise inverse rfl
      obtain ⟨id, w', hrender, hgains⟩ := hreads'.exists_renderBody hdepth hscope hinverse
        supply.context none supply.arguments w
      rw [hnames] at hgains
      exact ⟨.node id, w', .part, _, hrender, hgains, ⟨id, rfl⟩, rfl⟩
  · rw [if_neg hchoice, if_neg hchoice, Invocation.render]
    obtain ⟨id, w', hrender, hgains⟩ := hreads.exists_renderBody hdepth hscope hbody
      supply.context none supply.arguments w
    exact ⟨.node id, w', .part, _, hrender, hgains, ⟨id, rfl⟩, rfl⟩

end Bodies

/-! ## blocks and components -/

section Enclosing

variable {p : Program} {target : Target} {base : Nat}

/-- The site of a block shows what the block does. -/
theorem exists_renderSite_block (hstands : w.dom.Stands target.node) (hdepth : least ≤ depth)
    {call : Call} {body : Body Node} {inverse : Option (Body Node)} {span : Span}
    (hbinds : (Node.block call body inverse span).BindsInBlocks)
    (hchildren : ∀ (k : Nat) (inside : Body Node),
      (Node.block call body inverse span).enclosed[k]? = some inside →
        p.children[base + k]? = some (compileBody inside))
    (hreads : ∀ inside ∈ (Node.block call body inverse span).enclosed,
      Reads σ helpers least inside) :
    ∃ w', p.renderSite ((blockEnvironment helpers).hooks (depth + 4)) (scopeOf levels)
        (.block call base (inverse.map fun _ => base + 1)) target w =
          some (some ⟨w.morphs.size⟩, w') ∧
      w.Gains w' (nodeValues helpers w.heap levels (.block call body inverse span)) := by
  let invocation : Invocation := { Invocation.ofCall call (scopeOf levels) with
    morph := some ⟨w.morphs.size⟩
    context := target.context
    blockParams := (p.children[base]?.map (·.blockParams.length)).filter (· != 0)
    body := p.children[base]?
    inverse := (inverse.map fun _ => base + 1).bind (p.children[·]?) }
  have harguments := (evaluates_hooks helpers (depth + 2)).evaluateArguments_eq (scopeOf levels)
    (w.addMorph (.create target.node true target.context)).2 call
  rw [nodeValues]
  -- Without a helper of this name the block shows what a mustache would.
  cases hhelper : helpers.get? call.path with
  | none =>
    have hcalled := called_mustache helpers levels (depth + 2) call
      (pairValues helpers w.heap levels call.hash) invocation
      (w.addMorph (.create target.node true target.context)).2 rfl (.inl hhelper) rfl
    obtain ⟨w', hcontent, hgains⟩ :=
      exists_content_of_called hstands call true _ invocation hcalled (.refl _)
        (show Shown.Describes (.value _) _ from rfl)
    exact ⟨w', Program.renderSite_block_of harguments hcontent, hgains⟩
  | some helper =>
    have hinverse : invocation.inverse = inverse.map compileBody := by
      cases inverse with
      | none => rfl
      | some inverse => exact hchildren 1 inverse rfl
    have hotherwise : ∀ b, inverse = some b → Reads σ helpers least b ∧ b.blockParams = [] := by
      rintro b rfl
      exact ⟨hreads b (by simp [Node.enclosed]), hbinds.2.1⟩
    obtain ⟨value, w₁, own, inner, hrun, hgains, hvalue, hshown⟩ := exists_run helper
      (Nat.le_trans hdepth (Nat.le_add_right depth 2))
      ((blockLibrary helpers).paramValues (scopeOf levels) w.heap call.params)
      (pairValues helpers w.heap levels call.hash) invocation rfl (hchildren 0 body rfl)
      (hreads body List.mem_cons_self) inverse hinverse hotherwise
      (w.addMorph (.create target.node true target.context)).2
    obtain ⟨w', hcontent, hgains'⟩ := exists_content_of_called hstands call true _ invocation
      ((called_of_get? (depth + 2) _ _ _ _ _ hhelper).trans hrun) hgains hvalue
    rw [hshown] at hgains'
    exact ⟨w', Program.renderSite_block_of harguments hcontent, hgains'⟩

/-- Attributes are set from pairs, and texts keep their places. -/
theorem exists_setAttributes (depth : Nat) (scope : Scope) (element : NodeId)
    (pairs : List (String × Param)) (w : World σ) :
    ∃ w', Hooks.setAttributes ((blockEnvironment helpers).hooks (depth + 2)) scope element pairs w =
      some ((), w') ∧ w.Gains w' [] := by
  induction pairs generalizing w with
  | nil => exact ⟨w, rfl, .refl w⟩
  | cons pair pairs ih =>
    obtain ⟨name, param⟩ := pair
    have hparam := (evaluates_hooks helpers depth).evaluateParam_eq scope w param
    rw [Hooks.setAttributes]
    by_cases hnull : ((blockLibrary helpers).paramValue scope w.heap param).isNullish = true
    · obtain ⟨w', hrun, hgains⟩ := ih w
      refine ⟨w', (Render.bind_of_eq hparam).trans ?_, hgains⟩
      rw [hnull]
      exact hrun
    · let text := ((blockLibrary helpers).paramValue scope w.heap param).text
      let set : World σ := { w with dom := w.dom.changeAttributes element (·.set name text) }
      have hset : w.Gains set [] :=
        (World.Gains.refl w).changeDom fun id hid => hid.changeAttributes element _
      obtain ⟨w', hrun, hgains⟩ := ih set
      refine ⟨w', (Render.bind_of_eq hparam).trans ?_, hset.trans hgains⟩
      rw [Bool.eq_false_iff.2 hnull]
      exact hrun

/-- A component without a helper renders its body as it stands. -/
theorem exists_componentFallback (hdepth : least ≤ depth) (tag : ComponentTag) {body : Body Node}
    (hnames : body.blockParams = []) (hreads : Reads σ helpers least body) (morph : MorphId)
    (invocation : Invocation) (hscope : invocation.scope = scopeOf levels)
    (hbody : invocation.body = some (compileBody body)) (w : World σ) :
    ∃ id w', ((blockEnvironment helpers).hooks (depth + 3)).componentFallback morph tag.name
        (scopeOf levels) tag.pairs invocation w = some (.node id, w') ∧
      w.Gains w' (bodyValues helpers w.heap levels body) := by
  let context := (w.morph? morph).bind (·.context)
  let data : NodeData :=
    .element tag.name (Namespace.ofElement tag.name (w.dom.nsBelow context)) {}
  let created : World σ := { w with dom := (w.dom.create data).2 }
  have hcreated : w.Gains created [] :=
    (World.Gains.refl w).changeDom fun id hid => hid.extend (w.dom.loose_create data).1
  obtain ⟨w₁, hset, hgains₁⟩ := exists_setAttributes depth (scopeOf levels)
    ⟨w.dom.size⟩ tag.pairs created
  obtain ⟨rendered, w₂, hrender, hgains₂⟩ := hreads (depth + 2)
    (Nat.le_trans hdepth (Nat.le_add_right depth 2)) levels
    ((some ⟨w.dom.size⟩ : Option NodeId).or invocation.context) w₁
  rw [show w₁.heap = w.heap from hgains₁.heap] at hgains₂
  refine ⟨⟨w.dom.size⟩, _, ?_,
    ((hcreated.trans hgains₁).trans hgains₂).changeDom fun id hid =>
      hid.insertBefore ⟨w.dom.size⟩ rendered.root.node none⟩
  have hbind : (invocation.scope.withContext (scopeOf levels).context).bind
      (compileBody body).blockParams [] = scopeOf levels := by
    rw [blockParams_compileBody, hscope, hnames]
    rfl
  have hbody' : invocation.render ((blockEnvironment helpers).hooks (depth + 2))
      (scopeOf levels).context (some ⟨w.dom.size⟩) [] w₁ = some (.node rendered.root.node, w₂) := by
    refine Invocation.renderBody_of hbody ?_
    rw [hbind]
    exact hrender
  exact Hooks.componentFallback_of hset hbody'

/-- The site of a component shows what the component does. -/
theorem exists_renderSite_component (hstands : w.dom.Stands target.node) (hdepth : least ≤ depth)
    {tag : ComponentTag} {body : Body Node} {span : Span}
    (hbinds : (Node.component tag body span).BindsInBlocks)
    (hbody : p.children[base]? = some (compileBody body)) (hreads : Reads σ helpers least body) :
    ∃ w', p.renderSite ((blockEnvironment helpers).hooks (depth + 4)) (scopeOf levels)
        (.component tag.name tag.pairs base) target w = some (some ⟨w.morphs.size⟩, w') ∧
      w.Gains w' (nodeValues helpers w.heap levels (.component tag body span)) := by
  have hnames : body.blockParams = [] := hbinds.1
  let added := (w.addMorph (.create target.node true target.context)).2
  let invocation : Invocation :=
    { morph := some ⟨w.morphs.size⟩
      context := target.context
      hashTypes := tag.pairs.map fun pair => (pair.1, pair.2.type)
      scope := scopeOf levels
      body := p.children[base]? }
  -- It suffices to find what the hook shows.
  suffices h : ∃ w₁ value own inner, ((blockEnvironment helpers).hooks (depth + 4)).component
      ⟨w.morphs.size⟩ tag.name (scopeOf levels) tag.pairs invocation added =
        some ((), w₁.updateMorph ⟨w.morphs.size⟩ value) ∧
      added.Gains w₁ inner ∧ own.Describes value ∧
      own :: inner = nodeValues helpers w.heap levels (.component tag body span) by
    obtain ⟨w₁, value, own, inner, hcomponent, hgains, hvalue, hshown⟩ := h
    rw [← hshown]
    exact ⟨_, Program.renderSite_component_of hcomponent, hgains.updateMorph hstands hvalue⟩
  have hdepth' := Nat.le_trans hdepth (Nat.le_add_right depth 2)
  have hlookup : ((blockEnvironment helpers).hooks (depth + 3)).lookupHelper tag.name
      (scopeOf levels) added = some (((helpers.get? tag.name).map fun helper =>
        .custom (helper.run ((blockEnvironment helpers).hooks (depth + 2)))).or
          ((Builtin.ofName? tag.name).map .builtin), added) := by
    rw [← defaultLookup_blockEnvironment]
    rfl
  have hhash := (evaluates_hooks helpers (depth + 1)).evaluateHash_eq (scopeOf levels) added
    tag.pairs
  have hcallee := callee_blockLibrary helpers tag.name
  rw [nodeValues]
  cases hhelper : helpers.get? tag.name with
  | some helper =>
    rw [hhelper] at hlookup
    obtain ⟨value, w₁, own, inner, hrun, hgains, hvalue, hshown⟩ := exists_run helper hdepth' []
      (pairValues helpers w.heap levels tag.pairs) invocation rfl hbody hreads none rfl (by simp)
      added
    rw [hnames] at hshown
    exact ⟨w₁, value, own, inner, Hooks.component_of_helper hlookup hhash hrun, hgains, hvalue,
      hshown⟩
  | none =>
    rw [hhelper] at hlookup hcallee
    cases hb : Builtin.ofName? tag.name with
    | some b =>
      rw [hb] at hlookup hcallee
      refine ⟨added, _, .value _, [], ?_, .refl _, rfl, rfl⟩
      refine Hooks.component_of_helper hlookup hhash ?_
      rw [mustacheValue, hcallee]
      exact run_builtin_of_not_element (depth + 2) (scopeOf levels) [] _ hcallee rfl
    | none =>
      rw [hb] at hlookup
      obtain ⟨id, w₁, hfallback, hgains⟩ := exists_componentFallback hdepth tag hnames hreads
        ⟨w.morphs.size⟩ invocation rfl hbody added
      exact ⟨w₁, .node id, .part, _, Hooks.component_of_fallback hlookup hfallback, hgains,
        ⟨id, rfl⟩, rfl⟩

end Enclosing

/-! ## bodies -/

section Runs

variable {p : Program} {root : Namespace}

/-- The attributes and modifiers of an element add no morphs. -/
theorem exists_run_element (depth : Nat) (target : Target) {actions : List Action}
    (hactions : ∀ action ∈ actions, (∃ call, action = .modifier call) ∨
      ∃ name quoted parts, action = .attr name quoted parts) (w : World σ) :
    ∃ results w', p.run ((blockEnvironment helpers).hooks (depth + 4)) (scopeOf levels)
        (actions.map fun action => (action, target)) w = some (results, w') ∧ w.Gains w' [] := by
  induction actions generalizing w with
  | nil => exact ⟨[], w, rfl, .refl w⟩
  | cons action actions ih =>
    rw [List.forall_mem_cons] at hactions
    have hsite : ∃ w₁, p.renderSite ((blockEnvironment helpers).hooks (depth + 4)) (scopeOf levels)
        action target w = some (none, w₁) ∧ w.Gains w₁ [] := by
      rcases hactions.1 with ⟨call, rfl⟩ | ⟨name, quoted, parts, rfl⟩
      · exact exists_renderSite_modifier depth (scopeOf levels) p call target
      · exact exists_renderSite_attr depth (scopeOf levels) p name quoted parts target
    obtain ⟨w₁, hsite, hgains⟩ := hsite
    obtain ⟨results, w', hrun, hgains'⟩ := ih hactions.2 w₁
    exact ⟨_, w', Program.run_cons hsite hrun, hgains.trans hgains'⟩

/-- The sites of a node show what the node itself does. -/
theorem exists_run_occurrence (hdepth : least ≤ depth) (o : Occurrence)
    (hbinds : o.node.BindsInBlocks)
    (hchildren : ∀ (k : Nat) (inside : Body Node), o.node.enclosed[k]? = some inside →
      p.children[o.base + k]? = some (compileBody inside))
    (hreads : ∀ inside ∈ o.node.enclosed, Reads σ helpers least inside) (target : Target)
    (w : World σ)
    (hstands : (o.node.data root o.around).isText = true → w.dom.Stands target.node) :
    ∃ results w', p.run ((blockEnvironment helpers).hooks (depth + 4)) (scopeOf levels)
        ((o.node.actions o.base).map fun action => (action, target)) w = some (results, w') ∧
      w.Gains w' (o.node.ownValues helpers w.heap levels) := by
  obtain ⟨node, path, around, number, base⟩ := o
  cases node with
  | text s span => exact ⟨[], w, rfl, .refl w⟩
  | comment s span => exact ⟨[], w, rfl, .refl w⟩
  | insertion i =>
    obtain ⟨w', hsite, hgains⟩ :=
      exists_renderSite_content p (hstands rfl) i.call i.escaped
    exact ⟨_, w', Program.run_cons hsite rfl, hgains⟩
  | block call body inverse span =>
    obtain ⟨w', hsite, hgains⟩ :=
      exists_renderSite_block (hstands rfl) hdepth hbinds hchildren hreads
    exact ⟨_, w', Program.run_cons hsite rfl, hgains⟩
  | component tag body span =>
    obtain ⟨w', hsite, hgains⟩ := exists_renderSite_component (hstands rfl) hdepth hbinds
      (hchildren 0 body rfl) (hreads body List.mem_cons_self)
    rw [actions_component]
    exact ⟨_, w', Program.run_cons hsite rfl, hgains⟩
  | element tag children span =>
    exact exists_run_element depth target
      (fun _ haction => ElementTag.cases_of_mem_actions haction) w

/-- The sites of nodes, rendered one after the other, show what the nodes do. -/
theorem exists_run_occurrences {hooks : Hooks σ} {scope : Scope} {heap : Heap}
    (os : List Occurrence) (target : Occurrence → Target) (values : Occurrence → List Shown)
    (stands : Occurrence → Prop)
    (hsites : ∀ o ∈ os, ∀ w : World σ, w.heap = heap →
      (stands o → w.dom.Stands (target o).node) → ∃ results w',
        p.run hooks scope ((o.node.actions o.base).map fun action => (action, target o)) w =
          some (results, w') ∧ w.Gains w' (values o))
    {w : World σ} (hheap : w.heap = heap)
    (hstands : ∀ o ∈ os, stands o → w.dom.Stands (target o).node) :
    ∃ results w', p.run hooks scope
        (os.flatMap fun o => (o.node.actions o.base).map fun action => (action, target o)) w =
          some (results, w') ∧ w.Gains w' (os.flatMap values) := by
  induction os generalizing w with
  | nil => exact ⟨[], w, rfl, .refl w⟩
  | cons o os ih =>
    rw [List.forall_mem_cons] at hsites hstands
    obtain ⟨results, w₁, hrun, hgains⟩ := hsites.1 w hheap hstands.1
    obtain ⟨results', w', hrun', hgains'⟩ := ih hsites.2 (hgains.heap.trans hheap)
      fun o' ho' h => hgains.stands _ (hstands.2 o' ho' h)
    refine ⟨results ++ results', w', ?_, hgains.trans hgains'⟩
    rw [List.flatMap_cons]
    exact Program.run_append hrun hrun'

end Runs

/-- A body is rendered by hooks that are a little deeper than those that render its bodies. -/
theorem Reads.of_enclosed {body : Body Node} (hbinds : AllBindInBlocks body.children)
    (h : ∀ o ∈ body.occurrences, ∀ inside ∈ o.node.enclosed, Reads σ helpers least inside) :
    Reads σ helpers (least + 4) body := by
  intro depth hdepth levels context w
  obtain ⟨more, rfl⟩ := Nat.exists_eq_add_of_le hdepth
  rw [Nat.add_right_comm]
  have hbuilt := isBuilt_compileBody body w.dom (w.dom.nsBelow context)
  have hextends := (w.dom.loose_plantFragment
    ((compileBody body).plantableAll_forest (w.dom.nsBelow context))).1
  let fragment := ((compileBody body).plant w.dom context).1
  let built : World σ := { w with dom := ((compileBody body).plant w.dom context).2 }
  have hstart : w.Gains built [] :=
    (World.Gains.refl w).changeDom fun id hid => hid.extend hextends
  have hsites : ∀ o ∈ body.occurrences, ∀ w' : World σ, w'.heap = w.heap →
      ((o.node.data (w.dom.nsBelow context) o.around).isText = true →
        w'.dom.Stands (o.target built.dom fragment context).node) →
      ∃ results w'', (compileBody body).run ((blockEnvironment helpers).hooks (least + more + 4))
          (scopeOf levels) ((o.node.actions o.base).map fun action =>
            (action, o.target built.dom fragment context)) w' = some (results, w'') ∧
        w'.Gains w'' (o.node.ownValues helpers w.heap levels) := by
    intro o ho w' hheap hstands
    rw [← hheap]
    exact exists_run_occurrence (Nat.le_add_right least more) o
      (forall_mem_occurrencesOf (fun _ h => h.children) (allBindInBlocks_iff.1 hbinds) _ _ _ _ _ o
        ho)
      (fun k inside hinside => getElem?_children_compileBody ho hinside) (h o ho) _ w' hstands
  have hstands : ∀ o ∈ body.occurrences,
      (o.node.data (w.dom.nsBelow context) o.around).isText = true →
        built.dom.Stands (o.target built.dom fragment context).node := by
    intro o ho htext
    obtain ⟨parent, hid⟩ := hbuilt o ho
    rw [show o.target built.dom fragment context = _ from hid.target_eq context]
    exact ⟨by rw [show built.dom.data _ = _ from hid.data_eq]; exact htext,
      by rw [show built.dom.parent? _ = _ from hid.parent?_eq]; rfl⟩
  obtain ⟨results, w', hrun, hgains⟩ := exists_run_occurrences (w := built) body.occurrences _ _ _
    hsites rfl hstands
  rw [← targets_compileBody] at hrun
  refine ⟨_, _, Program.render_of_eq (renderSites_of_run hrun), ?_⟩
  have hvalues : bodyValues helpers w.heap levels body =
      body.occurrences.flatMap fun o => o.node.ownValues helpers w.heap levels := by
    obtain ⟨children, names, span⟩ := body
    exact nodesValues_eq_flatMap helpers w.heap levels children [] none 0 0 0
  rw [hvalues]
  exact (hstart.trans hgains).changeDom fun id hid => hid.unwrap fragment

/-- A body is rendered by hooks that are deep enough. -/
theorem exists_reads (σ : Type) (helpers : Dict BlockHelper) (body : Body Node)
    (hbinds : AllBindInBlocks body.children) : ∃ least, Reads σ helpers least body := by
  induction body using body_induction with
  | step body ih =>
    have hnode : ∀ o ∈ body.occurrences, o.node.BindsInBlocks :=
      forall_mem_occurrencesOf (fun _ h => h.children) (allBindInBlocks_iff.1 hbinds) _ _ _ _ _
    obtain ⟨least, hleast⟩ := Library.exists_least
      (P := fun (o : Occurrence) n => ∀ inside ∈ o.node.enclosed, Reads σ helpers n inside)
      (fun o n m hle h inside hinside => (h inside hinside).mono hle) body.occurrences
      fun o ho => Library.exists_least (P := fun inside n => Reads σ helpers n inside)
        (fun inside n m hle h => h.mono hle) o.node.enclosed
        fun inside hinside => ih o ho inside hinside ((hnode o ho).enclosed inside hinside)
    exact ⟨least + 4, Reads.of_enclosed hbinds hleast⟩

/-- Block params are scoped lexically.  Hooks that are deep enough render a template inside of any
levels, and the morphs that are added show in the order of their sites what is read off the
template: a mustache shows what its path is resolved to in the levels around it, of which a body
adds one to those around its block. -/
theorem Template.exists_render_resolved {options : TemplateOptions} {source : String} {t : Template}
    (ht : Template.ofSource options source = .ok t) (helpers : Dict BlockHelper) :
    ∃ least, ∀ depth, least ≤ depth → ∀ (levels : List Level) (context : Option NodeId)
      (w : World σ), ∃ rendered w',
        t.compile.render ((blockEnvironment helpers).hooks depth) (scopeOf levels) context w =
          some (rendered, w') ∧
        w.Gains w' (nodesValues helpers w.heap levels t.children) := by
  obtain ⟨least, hreads⟩ := exists_reads σ helpers t (Template.allBindInBlocks ht)
  refine ⟨least, fun depth hdepth levels context w => ?_⟩
  obtain ⟨rendered, w', hrender, hgains⟩ := hreads depth hdepth levels context w
  obtain ⟨children, names, span⟩ := t
  exact ⟨rendered, w', hrender, hgains⟩

/-- Inner names hide outer ones, a name without an argument is undefined, names are not there behind
their block and behind `else`, and from the head of a path the other segments are followed. -/
theorem Template.exists_render_resolved_nested :
    let source := "\x7b\x7b#a as |w x|\x7d\x7d\x7b\x7b#b as |x y|\x7d\x7d\x7b\x7bw.k.1\x7d\x7d" ++
      "\x7b\x7bx\x7d\x7d\x7b\x7by\x7d\x7d\x7b\x7bthis\x7d\x7d\x7b\x7bw.j.k\x7d\x7d" ++
      "\x7b\x7b/b\x7d\x7d\x7b\x7bx\x7d\x7d\x7b\x7b#c as |w|\x7d\x7d\x7b\x7bw\x7d\x7d" ++
      "\x7b\x7belse\x7d\x7d\x7b\x7bw.k.0\x7d\x7d\x7b\x7bthis.k\x7d\x7d\x7b\x7bk.1\x7d\x7d" ++
      "\x7b\x7b/c\x7d\x7d\x7b\x7b/a\x7d\x7d\x7b\x7bw.k\x7d\x7d"
    let heap : Heap := { objects := #[
      ⟨[("k", .list [.string "K", .string "L"])]⟩, ⟨[("k", .list [.string "M", .string "N"])]⟩] }
    let helpers : Dict BlockHelper := ⟨[
      ("a", fun _ _ _ _ => { context := .string "A", arguments := [.object ⟨0⟩, .string "X"] }),
      ("b", fun _ _ _ _ => { context := .string "B", arguments := [.string "Y"] }),
      ("c", fun _ _ _ _ =>
        { inverse := true, context := .object ⟨1⟩, arguments := [.string "Z"] })]⟩
    let levels : List Level := [{ context := .string "root" }]
    let shown := [none, none, some "L", some "Y", some "undefined", some "B", some "undefined",
      some "X", none, some "K", some "M,N", some "N", some "undefined"]
    ∃ t, Template.ofSource {} source = .ok t ∧
      (nodesValues helpers heap levels t.children).map Shown.text? = shown ∧
      ∃ least, ∀ depth, least ≤ depth → ∃ rendered w',
        t.compile.render ((blockEnvironment helpers).hooks depth) (scopeOf levels) none
          ({ notes := (), heap } : World Unit) = some (rendered, w') ∧
        ({ notes := (), heap } : World Unit).Gains w'
          (nodesValues helpers heap levels t.children) := by
  intro source heap helpers levels shown
  have hshown : ((Template.ofSource {} source).toOption.map fun t =>
      (nodesValues helpers heap levels t.children).map Shown.text?) = some shown := by
    decide +kernel
  obtain ⟨t, ht⟩ := exists_ofSource_of_isSome
    (show (Template.ofSource {} source).toOption.isSome by
      rw [← Option.isSome_map, hshown]
      rfl)
  rw [ht] at hshown
  obtain ⟨least, h⟩ := Template.exists_render_resolved (σ := Unit) ht helpers
  exact ⟨t, ht, Option.some.inj hshown, least,
    fun depth hdepth => h depth hdepth levels none { notes := (), heap }⟩

end LiveTemplate
