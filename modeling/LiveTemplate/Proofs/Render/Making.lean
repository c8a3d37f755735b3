import LiveTemplate.Proofs.Render.Assembling
import LiveTemplate.Proofs.Render.Components

/-!
# LiveTemplate.Proofs.Render.Making

Rendering a compiled body makes the trees the body stands for, where no helpers and no
partials are registered.

The sites of a node make of it what it stands for (`settles_unmodified`), so that a render
makes the trees of the body (`renders_defaults`).  Bodies of components are rendered by the
hooks two calls below, so that hooks which are deep enough render every body
(`renders_hooks`).
-/

namespace LiveTemplate

variable {σ : Type}

/-! ## nodes without modifiers -/

mutual

/-- No element in a node has modifiers, at any depth, and no component is named like a helper. -/
def Node.IsUnmodified : Node → Prop
  | .element tag children _ => tag.modifiers = [] ∧ UnmodifiedAll children
  | .component tag body _ => Builtin.ofName? tag.name = none ∧ UnmodifiedBody body
  | .text .. | .comment .. | .insertion _ | .block .. => True

/-- No element in a body has modifiers. -/
def UnmodifiedBody : Body Node → Prop
  | ⟨children, _, _⟩ => UnmodifiedAll children

/-- No element in nodes has modifiers. -/
def UnmodifiedAll : List Node → Prop
  | [] => True
  | node :: nodes => node.IsUnmodified ∧ UnmodifiedAll nodes

end

theorem unmodifiedAll_iff {nodes : List Node} :
    UnmodifiedAll nodes ↔ ∀ node ∈ nodes, node.IsUnmodified := by
  induction nodes with
  | nil => simp [UnmodifiedAll]
  | cons node nodes ih => simp [UnmodifiedAll, ih]

theorem unmodifiedBody_iff {body : Body Node} :
    UnmodifiedBody body ↔ UnmodifiedAll body.children := by
  cases body
  exact Iff.rfl

theorem Node.IsUnmodified.children {node : Node} (h : node.IsUnmodified) :
    ∀ child ∈ node.children, child.IsUnmodified := by
  cases node with
  | element tag children span => exact unmodifiedAll_iff.1 h.2
  | _ => simp [Node.children]

/-! ## what nodes stand for -/

/-- Nodes stand for their trees. -/
def Interpretation.plain (scope : Scope) (heap : Heap) (root : Namespace) :
    Interpretation root where
  front inherited node := node.shownTrees scope heap inherited
  final around node := node.finalData scope heap root around
  trees around inherited nodes := nodesTrees scope heap root around inherited nodes
  nsBelow_final around node := nsBelow_finalData scope heap root around node
  trees_nil _ _ := rfl
  trees_cons around inherited node nodes := by
    rw [nodesTrees, trees_eq, List.append_assoc]
    rfl

/-! ## the sites of a node -/

section Sites

variable {self : Hooks σ} (p : Program) (scope : Scope) {base : World σ} {fragment : NodeId}
  {ts : List (Tree NodeId)} {F : Filling}

/-- Attributes that are static do not take part in evaluation. -/
theorem evaluate_of_action?_eq_none {scope : Scope} {heap : Heap} {a : Attribute}
    (h : a.action? = none) (attributes : Dict String) :
    a.evaluate scope heap attributes = attributes := by
  rw [Attribute.action?] at h
  cases hvalue : a.value with
  | static s => simp only [Attribute.evaluate, hvalue]
  | bare i => simp [hvalue] at h
  | joined parts => simp [hvalue] at h

/-- The sites of dynamic attributes set the attributes of their element one after the other. -/
theorem run_attributes (hself : self.Plain) (hjoining : self.Joining) {target : Target}
    (hnode : target.node ∈ forestLabels ts) (attributes : List Attribute) (w : World σ)
    (hrendering : Rendering base fragment ts F w) :
    ∃ results w' F', p.run (.defaults {} self) scope
        ((attributes.filterMap Attribute.action?).map fun action => (action, target)) w =
          some (results, w') ∧
      Rendering base fragment ts F' w' ∧ F'.region = F.region ∧
      (∀ x, x ≠ target.node → F'.data x = F.data x) ∧
      F'.data target.node = (F.data target.node).mapAttributes fun d =>
        attributes.foldl (fun d a => a.evaluate scope w.heap d) d := by
  have hmem : ∀ change ∈ attributeChanges (Attribute.evaluate scope w.heap) attributes,
      ∃ a : Attribute, a.action? = some change.1 ∧ change.2 = a.evaluate scope w.heap := by
    intro change hchange
    obtain ⟨a, -, ha⟩ := List.mem_filterMap.1 hchange
    obtain ⟨action, haction, rfl⟩ := Option.map_eq_some_iff.1 ha
    exact ⟨a, haction, rfl⟩
  obtain ⟨results, w', F', hrun, hrendering', hregion, hother, hdata⟩ :=
    hrendering.run_changes p (.defaults {} self) scope hnode
      (attributeChanges (Attribute.evaluate scope w.heap) attributes)
      (fun change hchange w₁ hheap => by
        obtain ⟨a, haction, heffect⟩ := hmem change hchange
        refine ⟨w₁, ?_, .refl w₁⟩
        rw [heffect, ← hheap]
        exact renderSite_attribute p scope target w₁ hself hjoining haction) rfl
  refine ⟨results, w', F', ?_, hrendering', hregion, hother, ?_⟩
  · rw [← map_fst_attributeChanges (Attribute.evaluate scope w.heap), List.map_map]
    exact hrun
  · rw [hdata]
    congr 1
    funext d
    exact foldl_attributeChanges (fun a h d => evaluate_of_action?_eq_none h d) attributes d

/-- The site of a block shows the value of its call, as a mustache would. -/
theorem renderSite_block (hself : self.Plain) (target : Target) (call : Call) (program : Nat)
    (inverse : Option Nat) (w : World σ) :
    p.renderSite (.defaults {} self) scope (.block call program inverse) target w =
      some (some ⟨w.morphs.size⟩,
        (w.addMorph (.create target.node true target.context)).2.updateMorph ⟨w.morphs.size⟩
          (call.mustache.value scope w.heap)) := by
  have hcalling : (Hooks.defaults {} self).Calling :=
    fun path scope params hash _ w h => Hooks.subexpr_defaults hself path scope params hash h w
  obtain ⟨hash, hargs⟩ := Hooks.evaluateArguments_eq (Hooks.plain_defaults self) hcalling scope
    (w.addMorph (.create target.node true target.context)).2 call
  exact Program.renderSite_block_of hargs
    (Hooks.content_defaults hself ⟨w.morphs.size⟩ call.path scope _ hash rfl _)

/-- The site of a component shows its element. -/
theorem renderSite_component (hself : self.Plain) {tag : ComponentTag} {body : Body Node}
    (htag : Builtin.ofName? tag.name = none) (hinvokes : self.Invokes tag body) {program : Nat}
    (hbody : p.children[program]? = some (compileBody body)) (target : Target) {w : World σ}
    (hscope : scope.NodeFree w.heap) :
    ∃ w₁ t, p.renderSite (.defaults {} self) scope
        (.component tag.name (tag.attributes.map fun a => (a.name, a.value.param)) program) target
          w = some (some ⟨w.morphs.size⟩, w₁.updateMorph ⟨w.morphs.size⟩ (.node t.label)) ∧
      (w.addMorph (.create target.node true target.context)).2.Grows w₁ ∧
      w.dom.Loose w₁.dom t ∧
      shapes t.shown = [tag.tree scope w.heap (w.dom.nsBelow target.context) body] := by
  let added := (w.addMorph (.create target.node true target.context)).2
  let invocation : Invocation :=
    { morph := some ⟨w.morphs.size⟩
      context := target.context
      hashTypes := (tag.attributes.map fun a => (a.name, a.value.param)).map
        fun pair => (pair.1, pair.2.type)
      scope
      body := p.children[program]? }
  obtain ⟨w₁, t, hfallback, hgrows, hloose, hshapes⟩ := hinvokes scope ⟨w.morphs.size⟩ invocation
    added _ (World.Grows.refl added).morph?_new hscope rfl hbody
  have hlookup := hself.lookupHelper tag.name scope added
  rw [htag] at hlookup
  exact ⟨w₁, t, Program.renderSite_component_of (Hooks.component_of_fallback hlookup hfallback),
    hgrows, hloose, hshapes⟩

/-- The sites of a node without modifiers make of it what it stands for. -/
theorem settles_unmodified (hself : self.Plain) (hjoining : self.Joining) {root : Namespace}
    {heap : Heap} (hscope : scope.NodeFree heap) {o : Occurrence}
    (hunmodified : o.node.IsUnmodified)
    (hinvokes : ∀ tag body span, o.node = .component tag body span →
      self.Invokes tag body ∧ p.children[o.base]? = some (compileBody body)) :
    o.Settles p (.defaults {} self) scope heap (.plain scope heap root) := by
  obtain ⟨node, path, around, number, bodies⟩ := o
  cases node with
  | text s span => exact Occurrence.settles_of_static rfl (fun _ => rfl) rfl
  | comment s span => exact Occurrence.settles_of_static rfl (fun _ => rfl) rfl
  | element tag children span =>
    intro base w fragment ts F target hrendering hheap hnode _ hregion hdata
    subst hheap
    obtain ⟨results, w', F', hrun, hrendering', hregion', hother, hdata'⟩ :=
      run_attributes p scope hself hjoining hnode tag.attributes w hrendering
    refine ⟨results, w', F', ?_, hrendering', ⟨?_, ?_⟩, fun x hx => ⟨by rw [hregion'], hother x hx⟩⟩
    · rw [actions_element, hunmodified.1]
      exact hrun
    · rw [hregion', hregion]
      rfl
    · rw [hdata', hdata]
      rfl
  | insertion i =>
    intro base w fragment ts F target hrendering hheap hnode _ hregion hdata
    subst hheap
    have hshapes := (Morph.create target.node i.escaped target.context).shapes_newTrees
      (i.value scope w.heap) w.dom
    exact ⟨_, _, _, Program.run_cons (renderSite_content p scope target w hself i) rfl,
      hrendering.present_new hnode hregion i.escaped (isNode_insertionValue hscope i),
      ⟨by rw [Filling.region_setRegion_self, hshapes]; rfl, hdata⟩,
      fun x hx => ⟨Filling.region_setRegion_of_ne hx _, rfl⟩⟩
  | block call body inverse span =>
    intro base w fragment ts F target hrendering hheap hnode _ hregion hdata
    subst hheap
    have hshapes := (Morph.create target.node true target.context).shapes_newTrees
      (call.mustache.value scope w.heap) w.dom
    exact ⟨_, _, _, Program.run_cons (renderSite_block p scope hself target call _ _ w) rfl,
      hrendering.present_new hnode hregion true (isNode_insertionValue hscope call.mustache),
      ⟨by rw [Filling.region_setRegion_self, hshapes]; rfl, hdata⟩,
      fun x hx => ⟨Filling.region_setRegion_of_ne hx _, rfl⟩⟩
  | component tag body span =>
    intro base w fragment ts F target hrendering hheap hnode _ hregion hdata
    subst hheap
    obtain ⟨hinvoke, hchild⟩ := hinvokes tag body span rfl
    obtain ⟨w₁, t, hsite, hgrows, hloose, hshapes⟩ := renderSite_component p scope hself
      hunmodified.1 hinvoke hchild target hscope
    simp only [AttributeValue.param_eq] at hsite
    exact ⟨_, _, _, Program.run_cons hsite rfl,
      hrendering.present hnode hregion hgrows (.node t hloose),
      ⟨by rw [Filling.region_setRegion_self, hshapes]; rfl, hdata⟩,
      fun x hx => ⟨Filling.region_setRegion_of_ne hx _, rfl⟩⟩

end Sites

/-! ## renders -/

/-- The sites of every node of a body without modifiers make of it what it stands for. -/
theorem settles_occurrences {self : Hooks σ} (hself : self.Plain) (hjoining : self.Joining)
    {body : Body Node} (hunmodified : UnmodifiedAll body.children)
    (hinvokes : ∀ o ∈ body.occurrences, ∀ tag inside span, o.node = .component tag inside span →
      self.Invokes tag inside)
    {scope : Scope} {heap : Heap} (hscope : scope.NodeFree heap) (root : Namespace) :
    ∀ o ∈ body.occurrences,
      o.Settles (compileBody body) (.defaults {} self) scope heap (.plain scope heap root) := by
  intro o ho
  refine settles_unmodified _ scope hself hjoining hscope
    (forall_mem_occurrencesOf (fun _ h => h.children) (unmodifiedAll_iff.1 hunmodified) _ _ _ _ _ o
      ho)
    fun tag inside span hnode =>
      ⟨hinvokes o ho tag inside span hnode,
        getElem?_children_compileBody (k := 0) ho (by rw [hnode]; rfl)⟩

/-- The default hooks render a body without modifiers as the trees it stands for, if the hooks they
call show its components. -/
theorem renders_defaults {self : Hooks σ} (hself : self.Plain) (hjoining : self.Joining)
    {body : Body Node}
    (hunmodified : UnmodifiedAll body.children)
    (hinvokes : ∀ o ∈ body.occurrences, ∀ tag inside span, o.node = .component tag inside span →
      self.Invokes tag inside) :
    (Hooks.defaults {} self).Renders body := by
  intro scope context w hscope hcontext
  exact exists_render (.plain scope w.heap (w.dom.nsBelow context))
    (settles_occurrences hself hjoining hunmodified hinvokes hscope _) hcontext

/-! ## nested components -/

mutual

/-- How deep components are nested in a node. -/
def Node.nesting : Node → Nat
  | .element _ children _ => nestingOf children
  | .component _ body _ => bodyNesting body + 1
  | .text .. | .comment .. | .insertion _ | .block .. => 0

/-- How deep components are nested in a body. -/
def bodyNesting : Body Node → Nat
  | ⟨children, _, _⟩ => nestingOf children

/-- How deep components are nested in nodes. -/
def nestingOf : List Node → Nat
  | [] => 0
  | node :: nodes => max node.nesting (nestingOf nodes)

end

theorem nestingOf_le_iff {nodes : List Node} {n : Nat} :
    nestingOf nodes ≤ n ↔ ∀ node ∈ nodes, node.nesting ≤ n := by
  induction nodes with
  | nil => simp [nestingOf]
  | cons node nodes ih => rw [nestingOf, Nat.max_le, ih, List.forall_mem_cons]

theorem nesting_children {node : Node} {n : Nat} (h : node.nesting ≤ n) :
    ∀ child ∈ node.children, child.nesting ≤ n := by
  cases node with
  | element tag children span => exact nestingOf_le_iff.1 h
  | _ => simp [Node.children]

theorem bodyNesting_eq (body : Body Node) : bodyNesting body = nestingOf body.children := by
  cases body
  rfl

/-- The components of a body are less deep than the body, and have no modifiers in them either. -/
theorem inside_of_mem_occurrences {body : Body Node} {n : Nat}
    (hunmodified : UnmodifiedAll body.children) (hnesting : nestingOf body.children ≤ n)
    {o : Occurrence} (ho : o ∈ body.occurrences) {tag : ComponentTag} {inside : Body Node}
    {span : Span} (hnode : o.node = .component tag inside span) :
    nestingOf inside.children < n ∧ UnmodifiedAll inside.children := by
  have hkept := forall_mem_occurrencesOf (P := fun node => node.nesting ≤ n ∧ node.IsUnmodified)
    (fun node h child hchild => ⟨nesting_children h.1 child hchild, h.2.children child hchild⟩)
    (fun node hmem => ⟨nestingOf_le_iff.1 hnesting node hmem,
      unmodifiedAll_iff.1 hunmodified node hmem⟩) [] none 0 0 0 o ho
  rw [hnode, Node.nesting, bodyNesting_eq] at hkept
  exact ⟨hkept.1, unmodifiedBody_iff.1 hkept.2.2⟩

namespace Environment

theorem plain_hooks (depth : Nat) : (({} : Environment σ).hooks (depth + 1)).Plain :=
  Hooks.plain_defaults _

theorem calling_hooks (depth : Nat) : (({} : Environment σ).hooks (depth + 2)).Calling :=
  fun path scope params hash _ w h =>
    Hooks.subexpr_defaults (plain_hooks depth) path scope params hash h w

theorem joining_hooks (depth : Nat) : (({} : Environment σ).hooks (depth + 2)).Joining :=
  fun scope w parts _ htypes => Hooks.concat_defaults (plain_hooks depth) scope w parts htypes

/-- Hooks that are deep enough render a body without modifiers as the trees it stands for.  The
body of a component is rendered two calls below. -/
theorem renders_hooks (n depth : Nat) (body : Body Node) (hunmodified : UnmodifiedAll body.children)
    (hnesting : nestingOf body.children ≤ n) :
    (({} : Environment σ).hooks (2 * n + 3 + depth)).Renders body := by
  induction n generalizing body with
  | zero =>
    rw [Nat.mul_zero, Nat.zero_add, Nat.add_comm]
    refine renders_defaults (plain_hooks (depth + 1)) (joining_hooks depth) hunmodified
      fun o ho tag inside span hnode => ?_
    exact absurd (inside_of_mem_occurrences hunmodified hnesting ho hnode).1 (Nat.not_lt_zero _)
  | succ n ih =>
    have hinside : 2 * n + 3 + depth = 2 * n + depth + 3 := by omega
    have houtside : 2 * (n + 1) + 3 + depth = 2 * n + depth + 5 := by omega
    rw [hinside] at ih
    rw [houtside]
    refine renders_defaults (plain_hooks (2 * n + depth + 3)) (joining_hooks (2 * n + depth + 2))
      hunmodified
      fun o ho tag inside span hnode => ?_
    obtain ⟨hlt, hunmodified⟩ := inside_of_mem_occurrences hunmodified hnesting ho hnode
    exact Hooks.invokes_defaults (plain_hooks (2 * n + depth + 2))
      (calling_hooks (2 * n + depth + 1)) (fun heap => Hooks.sound_hooks heap {} _)
      (ih inside hunmodified (Nat.le_of_lt_succ hlt)) tag

end Environment

end LiveTemplate
