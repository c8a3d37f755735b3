import LiveTemplate.Proofs.Render.Soundness
import LiveTemplate.Proofs.Render.Trees

/-!
# LiveTemplate.Proofs.Render.Components

Components without a helper.

Hooks that render a body as the trees it stands for (`Hooks.Renders`) let the default hooks
above them show a component with that body as its element (`Hooks.Invokes`): the element is
created, its attributes are set one after the other, and what is rendered of the body
becomes its content.
-/

namespace LiveTemplate

variable {σ : Type}

/-! ## attributes -/

/-- Attributes that are changed twice are changed once. -/
theorem Dom.changeAttributes_changeAttributes (dom : Dom) (node : NodeId)
    (f g : Dict String → Dict String) :
    (dom.changeAttributes node f).changeAttributes node g =
      dom.changeAttributes node fun d => g (f d) := by
  have hdata : ∀ data : NodeData,
      (data.mapAttributes f).mapAttributes g = data.mapAttributes fun d => g (f d) := by
    rintro (_ | _ | _ | _) <;> rfl
  rw [Dom.changeAttributes, Dom.changeAttributes, Dom.changeAttributes, Dom.modify, Dom.modify,
    Dom.modify]
  congr 1
  refine Array.ext (by simp) fun i _ _ => ?_
  simp only [Array.getElem_modify]
  split
  · rw [hdata]
  · rfl

namespace Hooks

variable {self : Hooks σ}

/-- The attributes of a component are set one after the other, and nothing else happens. -/
theorem setAttributes_eq (hplain : self.Plain) (hcalling : self.Calling) (scope : Scope)
    (element : NodeId) (pairs : List (String × Param)) (w : World σ) :
    setAttributes self scope element pairs w =
      some ((), { w with
        dom := w.dom.changeAttributes element (setParams scope w.heap pairs) }) := by
  induction pairs generalizing w with
  | nil =>
    have hnone : setParams scope w.heap [] = id := rfl
    rw [hnone, Dom.changeAttributes_id]
    rfl
  | cons pair pairs ih =>
    obtain ⟨name, p⟩ := pair
    rw [setAttributes]
    refine (Render.bind_of_eq (evaluateParam_eq hplain hcalling scope w p)).trans ?_
    by_cases hnull : (p.value scope w.heap).isNullish = true
    · have hskip : setParams scope w.heap ((name, p) :: pairs) = setParams scope w.heap pairs := by
        funext attributes
        rw [setParams, if_pos hnull]
      rw [hskip, hnull]
      exact ih w
    · have hset : setParams scope w.heap ((name, p) :: pairs) = fun attributes =>
          setParams scope w.heap pairs (attributes.set name (p.value scope w.heap).text) := by
        funext attributes
        rw [setParams, if_neg hnull]
      rw [hset, ← Dom.changeAttributes_changeAttributes, Bool.eq_false_iff.2 hnull]
      exact ih { w with
        dom := w.dom.changeAttributes element (·.set name (p.value scope w.heap).text) }

end Hooks

/-! ## bodies -/

namespace Hooks

/-- Hooks with which a body is rendered as the trees it stands for. -/
def Renders (hooks : Hooks σ) (body : Body Node) : Prop :=
  ∀ (scope : Scope) (context : Option NodeId) (w : World σ), scope.NodeFree w.heap →
    (∀ id, context = some id → id.index < w.dom.size) →
      ∃ rendered w' t, (compileBody body).render hooks scope context w = some (rendered, w') ∧
        rendered.root.node = t.label ∧ w.Grows w' ∧ w.dom.Loose w'.dom t ∧
        shapes t.shown = nodesTrees scope w.heap (w.dom.nsBelow context) none
          (w.dom.nsBelow context) body.children

/-- Hooks that show a component with a body as its element. -/
def Invokes (hooks : Hooks σ) (tag : ComponentTag) (body : Body Node) : Prop :=
  ∀ (scope : Scope) (morph : MorphId) (invocation : Invocation) (w : World σ) (m : Morph),
    w.morph? morph = some m → scope.NodeFree w.heap → invocation.scope = scope →
      invocation.body = some (compileBody body) →
        ∃ w' t, hooks.componentFallback morph tag.name scope
            (tag.attributes.map fun a => (a.name, a.value.param)) invocation w =
              some (.node t.label, w') ∧
          w.Grows w' ∧ w.dom.Loose w'.dom t ∧
          shapes t.shown = [tag.tree scope w.heap (w.dom.nsBelow m.context) body]

variable {self : Hooks σ} {body : Body Node} {scope : Scope} {w : World σ}

/-- The body of a component is rendered as the content of its element; its block params are
undefined. -/
theorem Renders.invocation_render (h : self.Renders body) (hscope : scope.NodeFree w.heap)
    {invocation : Invocation} (hinvocation : invocation.scope = scope)
    (hbody : invocation.body = some (compileBody body)) {element : NodeId}
    (helement : element.index < w.dom.size) :
    ∃ w' t, invocation.render self scope.context (some element) [] w = some (.node t.label, w') ∧
      w.Grows w' ∧ w.dom.Loose w'.dom t ∧
      shapes t.shown = bodyTrees scope w.heap (w.dom.nsBelow (some element)) body := by
  have hbound := nodeFree_bind hscope body.blockParams
  obtain ⟨rendered, w', t, hrender, hroot, hgrows, hloose, hshapes⟩ :=
    h (scope.bind body.blockParams []) (some element) w hbound
      fun id hid => by cases hid; exact helement
  obtain ⟨children, blockParams, span⟩ := body
  refine ⟨w', t, ?_, hgrows, hloose, hshapes⟩
  rw [← hroot]
  refine Invocation.renderBody_of hbody ?_
  rw [blockParams_compileBody, hinvocation]
  exact hrender

/-- The default hooks show a component as its element if the hooks they call render its body. -/
theorem invokes_defaults (hplain : self.Plain) (hcalling : self.Calling)
    (hsound : ∀ heap, self.Sound heap) (h : self.Renders body) (tag : ComponentTag) :
    (Hooks.defaults {} self).Invokes tag body := by
  intro scope morph invocation w m hmorph hscope hinvocation hbody
  let ns := Namespace.ofElement tag.name (w.dom.nsBelow m.context)
  let pairs := tag.attributes.map fun a => (a.name, a.value.param)
  -- The element is created, its attributes are set, and the body is rendered for it.
  obtain ⟨-, hcreated⟩ := w.dom.loose_create (.element tag.name ns {})
  let created : World σ := { w with dom := (w.dom.create (.element tag.name ns {})).2 }
  let evaluated : World σ := { w with
    dom := created.dom.changeAttributes ⟨w.dom.size⟩ (setParams scope w.heap pairs) }
  have helement : w.dom.Loose evaluated.dom
      (.node ⟨w.dom.size⟩ (.element tag.name ns (tag.evaluate scope w.heap)) []) :=
    hcreated.changeAttributes _
  obtain ⟨w₁, t, hrender, hgrows, hloose, hshapes⟩ :=
    h.invocation_render (w := evaluated) hscope hinvocation hbody helement.holds.1
  have hle : w.dom.size ≤ evaluated.dom.size := Nat.le_of_lt helement.holds.1
  have happended := (Dom.loose_appendChild hle helement hgrows.dom hloose).1
  have hrun : (Hooks.defaults {} self).componentFallback morph tag.name scope pairs invocation w =
      some (.node ⟨w.dom.size⟩, { w₁ with dom := w₁.dom.appendChild ⟨w.dom.size⟩ t.label }) := by
    refine componentFallback_of ?_ hrender
    rw [hmorph]
    exact setAttributes_eq hplain hcalling scope ⟨w.dom.size⟩ pairs created
  have hgrown := ((hsound w.heap).componentFallback_defaults {} hscope morph tag.name pairs
    hinvocation w _ _ rfl hrun).1
  refine ⟨_, .node ⟨w.dom.size⟩ (.element tag.name ns (tag.evaluate scope w.heap)) t.shown, hrun,
    hgrown, happended, ?_⟩
  have hbelow : evaluated.dom.nsBelow (some ⟨w.dom.size⟩) = ns.below tag.name := by
    rw [Dom.nsBelow, Dom.data_of_record helement.holds.2.1]
    rfl
  rw [hbelow] at hshapes
  show shapes [Tree.node _ _ t.shown] = _
  rw [shapes, Tree.shape, hshapes]
  rfl

end Hooks

end LiveTemplate
