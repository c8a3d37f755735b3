import LiveTemplate.Proofs.Render.Placing

/-!
# LiveTemplate.Proofs.Render.Soundness

The default hooks are sound where no helpers are registered, whatever partials there are
and however deep calls are nested (`sound_hooks`): the hooks at one depth call those at
the depth below, renders of bodies and partials included.
-/

namespace LiveTemplate

variable {σ : Type}

/-! ## values and attributes -/

section Computations

variable {heap : Heap}

theorem Render.Makes.showsIn {x : Render σ Value} (h : x.Makes heap) (morph : MorphId) :
    (x >>= Render.updateMorph morph).ShowsIn heap morph := by
  intro w w' hheap hrun
  obtain ⟨value, w₁, h₁, h₂⟩ := Render.exists_of_bind_eq hrun
  cases h₂
  obtain ⟨hgrows, hfresh⟩ := h w value w₁ hheap h₁
  exact ⟨w₁, value, hgrows, hfresh, rfl⟩

theorem Render.Adds.bind_showsIn {α : Type} {x : Render σ α} {f : α → Render σ Unit}
    {morph : MorphId} (hx : x.Adds heap) (hf : ∀ a, (f a).ShowsIn heap morph) :
    (x >>= f).ShowsIn heap morph := by
  intro w w' hheap hrun
  obtain ⟨a, w₁, h₁, h₂⟩ := Render.exists_of_bind_eq hrun
  have hgrows := hx w a w₁ hheap h₁
  obtain ⟨w₂, value, hgrows', hfresh, hw'⟩ := hf a w₁ w' (hgrows.heap.trans hheap) h₂
  exact ⟨w₂, value, hgrows.trans hgrows', hfresh.mono hgrows.dom.size_le, hw'⟩

/-- Attributes that are set to what they are. -/
theorem Dom.changeAttributes_id (dom : Dom) (node : NodeId) :
    dom.changeAttributes node id = dom := by
  have hid : (fun r : NodeRecord => { r with data := r.data.mapAttributes id }) = id := by
    funext r
    obtain ⟨data, parent, children⟩ := r
    cases data <;> rfl
  rw [Dom.changeAttributes, hid, Dom.modify]
  congr 1
  refine Array.ext (by simp) fun i _ _ => ?_
  simp [Array.getElem_modify]

theorem Dom.Loose.changeAttributes {base dom : Dom} {element : NodeId} {data : NodeData}
    (h : base.Loose dom (.node element data [])) (f : Dict String → Dict String) :
    base.Loose (dom.changeAttributes element f) (.node element (data.mapAttributes f) []) := by
  obtain ⟨⟨hlt, hrecord, -⟩, hnodup, hfresh⟩ := h
  have hself : (dom.changeAttributes element f).record element =
      { dom.record element with data := (dom.record element).data.mapAttributes f } := by
    rw [Dom.changeAttributes, Dom.record_modify, if_pos ⟨rfl, hlt⟩]
  rw [hrecord] at hself
  exact ⟨⟨by rw [Dom.changeAttributes, Dom.size_modify]; exact hlt, hself, trivial⟩, hnodup, hfresh⟩

/-- A tree that was added becomes the content of an element that was added before. -/
theorem World.Grows.appendChild {w w₁ w₂ : World σ} {element : NodeId} {data : NodeData}
    {t : Tree NodeId} (hgrows : w.Grows w₁) (helement : w.dom.Loose w₁.dom (.node element data []))
    (hgrows' : w₁.Grows w₂) (ht : w₁.dom.Loose w₂.dom t) :
    w.Grows { w₂ with dom := w₂.dom.appendChild element t.label } ∧
      w.dom.Loose (w₂.dom.appendChild element t.label) (.node element data t.shown) := by
  obtain ⟨happended, hframe⟩ := Dom.loose_appendChild hgrows.dom.size_le helement hgrows'.dom ht
  have hgrown := hgrows.trans hgrows'
  refine ⟨⟨hgrown.heap, ⟨?_, fun n hn => ?_⟩, fun hw => ?_, hgrown.size_le, hgrown.morph?_eq⟩,
    happended⟩
  · show _ ≤ (w₂.dom.appendChild element t.label).size
    rw [Dom.appendChild, Dom.size_insertBefore]
    exact hgrown.dom.size_le
  · exact (hframe n hn).trans (hgrown.dom.record_eq n hn)
  · refine (hgrown.linked hw).insertBefore ?_ (ht.holds.index_lt t _ t.label_mem_labels) none
    exact Nat.lt_of_lt_of_le helement.holds.1 hgrows'.dom.size_le

/-- Adding to the world changes no attributes. -/
theorem Render.Adds.changesAttributes {x : Render σ Unit} (h : x.Adds heap) (node : NodeId) :
    x.ChangesAttributes heap node := by
  intro w w' hheap hrun
  refine ⟨w', id, h w () w' hheap hrun, ?_⟩
  rw [Dom.changeAttributes_id]

theorem Render.Adds.bind_changesAttributes {α : Type} {x : Render σ α} {f : α → Render σ Unit}
    {node : NodeId} (hx : x.Adds heap) (hf : ∀ a, (f a).ChangesAttributes heap node) :
    (x >>= f).ChangesAttributes heap node := by
  intro w w' hheap hrun
  obtain ⟨a, w₁, h₁, h₂⟩ := Render.exists_of_bind_eq hrun
  have hgrows := hx w a w₁ hheap h₁
  obtain ⟨w₂, f, hgrows', hw'⟩ := hf a w₁ w' (hgrows.heap.trans hheap) h₂
  exact ⟨w₂, f, hgrows.trans hgrows', hw'⟩

theorem Render.changesAttributes_changeDom {node : NodeId} {f : Dict String → Dict String}
    {g : Dom → Dom} (hg : ∀ dom, g dom = dom.changeAttributes node f) :
    (Render.changeDom g : Render σ Unit).ChangesAttributes heap node := by
  intro w w' _ hrun
  cases hrun
  exact ⟨w, f, .refl w, by rw [← hg]⟩

end Computations

namespace Hooks

variable {heap : Heap} {self : Hooks σ} {scope : Scope}

/-! ## helpers -/

/-- Looking up a helper finds the builtin one. -/
theorem Sound.lookupHelper_bind {α : Type} (h : self.Sound heap) {path : String}
    {f : Option (Helper σ) → Render σ α} {w w' : World σ} {a : α}
    (hrun : (self.lookupHelper path scope >>= f) w = some (a, w')) :
    f ((Builtin.ofName? path).map .builtin) w = some (a, w') := by
  obtain ⟨helper, w₁, h₁, h₂⟩ := Render.exists_of_bind_eq hrun
  obtain ⟨rfl, rfl⟩ := h.lookupHelper path scope w helper w₁ h₁
  exact h₂

/-- On no element a builtin helper makes a value. -/
theorem Sound.run_builtin (h : self.Sound heap) (hscope : scope.NodeFree heap) (b : Builtin)
    (params : List Value) (hash : Hash) {invocation : Invocation}
    (helement : invocation.element = none) :
    (b.run self scope params hash invocation).Makes heap := by
  cases b with
  | setAttribute =>
    simp only [Builtin.run, helement]
    exact Render.makes_pure rfl
  | renderPartial => exact h.renderPartial scope params hash invocation hscope
  | concat => exact Render.makes_pure rfl

/-- On an element a builtin helper may set an attribute of it. -/
theorem Sound.run_builtin_element (h : self.Sound heap) (hscope : scope.NodeFree heap) (b : Builtin)
    (params : List Value) (hash : Hash) (invocation : Invocation) (node : NodeId) :
    (b.run self scope params hash { invocation with element := some node } >>= fun _ =>
      pure ()).ChangesAttributes heap node := by
  cases b with
  | setAttribute =>
    cases params with
    | nil => exact (Render.adds_pure ()).changesAttributes node
    | cons name values =>
      intro w w' hheap hrun
      exact Render.changesAttributes_changeDom (fun dom => rfl) w w' hheap hrun
  | renderPartial =>
    exact ((h.renderPartial scope params hash _ hscope).adds.bind fun _ =>
      Render.adds_pure ()).changesAttributes node
  | concat => exact (Render.adds_pure ()).changesAttributes node

theorem Sound.simple_makes (h : self.Sound heap) (hscope : scope.NodeFree heap) (path : String) :
    (self.simple scope path).Makes heap := by
  intro w value w' hheap hrun
  obtain ⟨rfl, hnode⟩ := h.simple scope path hscope w value w' hheap hrun
  exact ⟨.refl _, Value.fresh_of_not_node hnode⟩

/-- The texts of parts are read off the world. -/
theorem Sound.partTexts (h : self.Sound heap) (hscope : scope.NodeFree heap) (parts : List Value)
    (types : List ParamType) {w w' : World σ} {texts : List String} (hheap : w.heap = heap)
    (hrun : partTexts self scope parts types w = some (texts, w')) : w' = w := by
  induction parts generalizing types w texts with
  | nil =>
    cases hrun
    rfl
  | cons part parts ih =>
    have hrest : ∀ value : Value, (do
        let texts ← Hooks.partTexts self scope parts types.tail
        return value.text :: texts : Render σ (List String)) w = some (texts, w') → w' = w := by
      intro value hrun
      obtain ⟨texts', w₁, h₁, h₂⟩ := Render.exists_of_bind_eq hrun
      cases h₂
      exact ih types.tail hheap h₁
    rw [Hooks.partTexts] at hrun
    split at hrun
    · obtain ⟨value, w₁, h₁, h₂⟩ := Render.exists_of_bind_eq hrun
      obtain ⟨rfl, -⟩ := h.simple scope part.text hscope w value w₁ hheap h₁
      exact hrest value h₂
    · exact hrest part hrun

/-- The value of an attribute is read off the world. -/
theorem Sound.attributeValue (h : self.Sound heap) (hscope : scope.NodeFree heap) (quoted : Bool)
    (parts : List Value) (invocation : Invocation) :
    (attributeValue self quoted scope parts invocation).Adds heap := by
  cases quoted with
  | true =>
    intro w value w' hheap hrun
    obtain ⟨rfl, -⟩ := h.concat scope parts invocation hscope w value w' hheap hrun
    exact .refl _
  | false =>
    unfold Hooks.attributeValue
    rw [if_neg Bool.false_ne_true]
    split
    · exact (h.simple_makes hscope _).adds
    · exact Render.adds_pure _
    · exact Render.adds_pure _

/-! ## bodies and components -/

/-- Block params without arguments are undefined. -/
theorem lookup_positional_nil {names : List String} {name : String} {value : Value}
    (h : (positional names []).lookup name = some value) : value = .undefined := by
  induction names with
  | nil => simp [positional] at h
  | cons first names ih =>
    rw [positional, List.lookup_cons] at h
    split at h
    · exact (Option.some.inj h).symm
    · exact ih h

/-- A frame of block params without arguments hides names, and gives them nothing. -/
theorem head_positional_nil (scope : Scope) (heap : Heap) (names : List String) (name : String) :
    Scope.head { scope with frames := positional names [] :: scope.frames } heap name =
        scope.head heap name ∨
      Scope.head { scope with frames := positional names [] :: scope.frames } heap name =
        .undefined := by
  rw [Scope.head, Scope.head]
  by_cases hthis : name = "this" ∨ name = ""
  · rw [if_pos hthis, if_pos hthis]
    exact .inl rfl
  · rw [if_neg hthis, if_neg hthis, Scope.local?, List.findSome?_cons]
    cases hname : (positional names []).lookup name with
    | none => exact .inl rfl
    | some value => exact .inr (lookup_positional_nil hname)

/-- Block params without arguments do not make a scope lead to nodes. -/
theorem nodeFree_bind (hscope : scope.NodeFree heap) (names : List String) :
    (scope.bind names []).NodeFree heap := by
  rw [Scope.bind]
  split
  · exact hscope
  · have hundefined : ∀ rest, Scope.follow heap .undefined rest = .undefined := by
      intro rest
      cases rest <;> rfl
    intro path
    have hpath := hscope path
    rw [Scope.lookup] at hpath ⊢
    split
    · exact hscope ""
    · next name rest hsegments =>
      rw [hsegments] at hpath
      rcases head_positional_nil scope heap names name with heq | heq
      · rw [heq]
        exact hpath
      · rw [heq, hundefined]
        rfl

/-- What a program renders is a fresh value. -/
theorem Sound.render_makes (h : self.Sound heap) (hscope : scope.NodeFree heap) (p : Program)
    (context : Option NodeId) :
    (do
      let rendered ← p.render self scope context
      return .node rendered.root.node : Render σ Value).Makes heap := by
  intro w value w' hheap hrun
  obtain ⟨rendered, w₁, h₁, h₂⟩ := Render.exists_of_bind_eq hrun
  cases h₂
  obtain ⟨hgrows, t, ht, hloose⟩ := h.render hscope hheap h₁
  refine ⟨hgrows, fun id hid => ?_⟩
  obtain rfl := Value.node.inj hid
  exact ⟨t, ht, hloose⟩

/-- Setting attributes of a new element adds to the world that did not have the element. -/
theorem Sound.setAttributes (h : self.Sound heap) (hscope : scope.NodeFree heap) (element : NodeId)
    (pairs : List (String × Param)) {w₀ w w' : World σ} (hheap : w.heap = heap)
    (hgrows : w₀.Grows w) (hnew : w₀.dom.size ≤ element.index) {data : NodeData}
    (hloose : w₀.dom.Loose w.dom (.node element data []))
    (hrun : setAttributes self scope element pairs w = some ((), w')) :
    w₀.Grows w' ∧ ∃ data', w₀.dom.Loose w'.dom (.node element data' []) := by
  induction pairs generalizing w data with
  | nil =>
    cases hrun
    exact ⟨hgrows, data, hloose⟩
  | cons pair pairs ih =>
    obtain ⟨name, param⟩ := pair
    rw [Hooks.setAttributes] at hrun
    obtain ⟨value, w₁, h₁, h₂⟩ := Render.exists_of_bind_eq hrun
    have hvalue := h.evaluateParam hscope param w value w₁ hheap h₁
    have hheap₁ := hvalue.heap.trans hheap
    have hgrows₁ := hgrows.trans hvalue
    have hloose₁ := hloose.extend hvalue.dom
    by_cases hnull : value.isNullish
    · simp only [hnull, Bool.not_true, Bool.false_eq_true, if_false] at h₂
      exact ih hheap₁ hgrows₁ hloose₁ h₂
    · simp only [hnull, Bool.not_false, if_true] at h₂
      obtain ⟨_, w₂, h₃, h₄⟩ := Render.exists_of_bind_eq h₂
      cases h₃
      exact ih (w := { w₁ with dom := w₁.dom.changeAttributes element (·.set name value.text) })
        hheap₁ (hgrows₁.changeAttributes hnew _) (hloose₁.changeAttributes _) h₄

/-- What the body of a component renders is a fresh value. -/
theorem Sound.renderBody (h : self.Sound heap) (hscope : scope.NodeFree heap)
    {invocation : Invocation} (hinvocation : invocation.scope = scope) (element : Option NodeId) :
    (invocation.render self scope.context element []).Makes heap := by
  unfold Invocation.render Invocation.renderBody
  split
  · exact Render.makes_pure rfl
  · next p _ =>
    have hbound : ((invocation.scope.withContext scope.context).bind p.blockParams []).NodeFree
        heap := by
      rw [hinvocation]
      exact nodeFree_bind hscope p.blockParams
    exact h.render_makes hbound p _

/-- A component without a helper makes an element with the body in it. -/
theorem Sound.componentFallback_defaults (h : self.Sound heap) (env : Environment σ)
    (hscope : scope.NodeFree heap) (morph : MorphId) (tag : String) (hash : List (String × Param))
    {invocation : Invocation} (hinvocation : invocation.scope = scope) :
    ((Hooks.defaults env self).componentFallback morph tag scope hash invocation).Makes heap := by
  intro w value w' hheap hrun
  obtain ⟨context, w₀, h₀, hrun⟩ := Render.exists_of_bind_eq hrun
  obtain rfl : w = w₀ := (Prod.mk.inj (Option.some.inj h₀)).2
  obtain ⟨element, w₁, h₁, hrun⟩ := Render.exists_of_bind_eq hrun
  obtain ⟨rfl, rfl⟩ := Prod.mk.inj (Option.some.inj h₁)
  have hcreated : w.Grows { w with dom := (w.dom.create
      (.element tag (Namespace.ofElement tag (w.dom.nsBelow context)) {})).2 } :=
    ⟨rfl, (w.dom.loose_create _).1, fun hw => hw.create _, Nat.le_refl _, fun _ _ => rfl⟩
  obtain ⟨_, w₂, h₂, hrun⟩ := Render.exists_of_bind_eq hrun
  obtain ⟨hgrows, data, hloose⟩ := h.setAttributes hscope ⟨w.dom.size⟩ hash
    (hcreated.heap.trans hheap) hcreated (Nat.le_refl _) (w.dom.loose_create _).2 h₂
  obtain ⟨body, w₃, h₃, hrun⟩ := Render.exists_of_bind_eq hrun
  obtain ⟨hgrows', hfresh⟩ := h.renderBody hscope hinvocation (some ⟨w.dom.size⟩) w₂ body w₃
    (hgrows.heap.trans hheap) h₃
  have hgrown := hgrows.trans hgrows'
  cases hbody : body.isNode with
  | false =>
    have hrest : value = .node ⟨w.dom.size⟩ ∧ w' = w₃ := by
      cases body <;> first | (cases hrun; exact ⟨rfl, rfl⟩) | cases hbody
    obtain ⟨rfl, rfl⟩ := hrest
    refine ⟨hgrown, fun id hid => ?_⟩
    obtain rfl := Value.node.inj hid
    exact ⟨_, rfl, hloose.extend hgrows'.dom⟩
  | true =>
    obtain ⟨id, rfl⟩ := Value.exists_of_isNode hbody
    obtain ⟨t, rfl, ht⟩ := hfresh id rfl
    cases hrun
    obtain ⟨hgrown, happended⟩ := hgrows.appendChild hloose hgrows' ht
    refine ⟨hgrown, fun id hid => ?_⟩
    obtain rfl := Value.node.inj hid
    exact ⟨_, rfl, happended⟩

/-! ## default hooks -/

/-- The default hooks are sound where those they call are, whatever partials there are. -/
theorem sound_defaults (h : self.Sound heap) (partials : Dict Program) :
    (Hooks.defaults { partials } self).Sound heap where
  lookupHelper name scope w helper w' hrun := by
    cases hrun
    exact ⟨rfl, rfl⟩
  simple scope path hscope w value w' hheap hrun := by
    cases hrun
    subst hheap
    exact ⟨rfl, hscope path⟩
  concat scope parts invocation hscope w value w' hheap hrun := by
    obtain ⟨texts, w₁, h₁, h₂⟩ := Render.exists_of_bind_eq hrun
    cases h₂
    exact ⟨h.partTexts hscope parts invocation.paramTypes hheap h₁, rfl⟩
  subexpr path scope params hash invocation hscope helement w value w' hheap hrun := by
    have hrun := h.lookupHelper_bind hrun
    cases hb : Builtin.ofName? path with
    | none =>
      rw [hb] at hrun
      exact h.simple_makes hscope path w value w' hheap hrun
    | some b =>
      rw [hb] at hrun
      exact h.run_builtin hscope b params hash helement w value w' hheap hrun
  renderPartial scope params hash invocation hscope := by
    dsimp only [Hooks.defaults]
    split
    · exact Render.makes_pure rfl
    · next p _ =>
      have hcontext : (morphContext invocation.morph : Render σ (Option NodeId)).Adds heap := by
        intro w context w' _ hrun
        cases hrun
        exact .refl w
      exact hcontext.bind_makes fun context => h.render_makes hscope p _
  componentFallback morph tag scope hash invocation hscope hinvocation :=
    h.componentFallback_defaults _ hscope morph tag hash hinvocation
  content morph path scope params hash invocation hscope helement w w' hheap hrun := by
    have hrun := h.lookupHelper_bind hrun
    cases hb : Builtin.ofName? path with
    | none =>
      rw [hb] at hrun
      have hrun : (if invocation.isLiteral then pure (.string path) >>= Render.updateMorph morph
          else self.simple scope path >>= Render.updateMorph morph : Render σ Unit) w =
            some ((), w') := hrun
      split at hrun
      · exact (Render.makes_pure rfl).showsIn morph w w' hheap hrun
      · exact (h.simple_makes hscope path).showsIn morph w w' hheap hrun
    | some b =>
      rw [hb] at hrun
      exact (h.run_builtin hscope b params hash helement).showsIn morph w w' hheap hrun
  component morph tag scope hash invocation hscope helement hinvocation w w' hheap hrun := by
    have hrun := h.lookupHelper_bind hrun
    cases hb : Builtin.ofName? tag with
    | none =>
      rw [hb] at hrun
      exact (h.componentFallback morph tag scope hash invocation hscope hinvocation).showsIn morph
        w w' hheap hrun
    | some b =>
      rw [hb] at hrun
      exact (h.evaluateHash hscope hash).bind_showsIn
        (fun hash => (h.run_builtin hscope b [] hash helement).showsIn morph) w w' hheap hrun
  element node path scope params hash invocation hscope w w' hheap hrun := by
    have hrun := h.lookupHelper_bind hrun
    cases hb : Builtin.ofName? path with
    | none =>
      rw [hb] at hrun
      exact (Render.adds_pure ()).changesAttributes node w w' hheap hrun
    | some b =>
      rw [hb] at hrun
      exact h.run_builtin_element hscope b params hash invocation node w w' hheap hrun
  attr node name quoted scope parts invocation hscope := by
    exact (h.attributeValue hscope quoted parts invocation).bind_changesAttributes fun value =>
      Render.changesAttributes_changeDom fun dom => dom.changeAttributes_value node name value

/-- The hooks of an environment without helpers are sound at every depth. -/
theorem sound_hooks (heap : Heap) (partials : Dict Program) (depth : Nat) :
    (({ partials } : Environment σ).hooks depth).Sound heap := by
  induction depth with
  | zero => exact sound_exhausted heap
  | succ depth ih => exact sound_defaults ih partials

end Hooks

end LiveTemplate
