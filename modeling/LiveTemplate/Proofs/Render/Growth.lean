import LiveTemplate.Proofs.Dom.Linking
import LiveTemplate.Proofs.Render.Evaluation
import LiveTemplate.Proofs.Render.Stage

/-!
# LiveTemplate.Proofs.Render.Growth

What renders do to the world, whatever programs they run.

Where no helpers are registered and no path leads to a node, a render only adds to the
world: objects, nodes and morphs that were there stay as they are (`World.Grows`), and
what is rendered is a tree of new nodes (`Value.Fresh`).

`Hooks.Sound` says this of every hook; a hook that shows something updates its morph
last, and a hook of an element changes attributes last.  The evaluation of params and
arguments by sound hooks only adds to the world as well (`Hooks.Sound.evaluateArguments`).
-/

namespace LiveTemplate

variable {σ : Type}

/-! ## growth -/

/-- A world to which something was added: all that was there is unchanged. -/
structure World.Grows (w w' : World σ) : Prop where
  heap : w'.heap = w.heap
  dom : w.dom.Extends w'.dom
  linked : w.dom.Linked → w'.dom.Linked
  size_le : w.morphs.size ≤ w'.morphs.size
  morph?_eq : ∀ id : MorphId, id.index < w.morphs.size → w'.morph? id = w.morph? id

namespace World.Grows

variable {w w' w'' : World σ}

theorem refl (w : World σ) : w.Grows w :=
  ⟨rfl, .refl _, id, Nat.le_refl _, fun _ _ => rfl⟩

theorem trans (h : w.Grows w') (h' : w'.Grows w'') : w.Grows w'' := by
  have hle := h.size_le
  refine ⟨h'.heap.trans h.heap, h.dom.trans h'.dom, fun hw => h'.linked (h.linked hw),
    Nat.le_trans hle h'.size_le, fun id hid => ?_⟩
  rw [h'.morph?_eq id (by omega), h.morph?_eq id hid]

theorem addMorph (w : World σ) (m : Morph) : w.Grows (w.addMorph m).2 where
  heap := rfl
  dom := .refl _
  linked := id
  size_le := by
    show w.morphs.size ≤ (w.morphs.push m).size
    rw [Array.size_push]
    exact Nat.le_succ _
  morph?_eq id hid := by
    rw [morph?_addMorph, if_neg (Nat.ne_of_lt hid)]

/-- A morph that was added is there from then on. -/
theorem morph?_new {m : Morph} (h : (w.addMorph m).2.Grows w') :
    w'.morph? ⟨w.morphs.size⟩ = some m := by
  have hsize : (w.addMorph m).2.morphs.size = w.morphs.size + 1 := Array.size_push ..
  rw [h.morph?_eq _ (hsize ▸ Nat.lt_succ_self _), morph?_addMorph, if_pos rfl]

/-- Updating a new morph leaves the others as they are. -/
theorem morph?_updateMorph (h : w.Grows w') {id : MorphId} (hid : w.morphs.size ≤ id.index)
    {m : Morph} (hm : w'.morph? id = some m) (value : Value) {id' : MorphId}
    (hid' : id'.index < w.morphs.size) : (w'.updateMorph id value).morph? id' = w.morph? id' := by
  have hne : id' ≠ id := by
    rintro rfl
    exact absurd hid' (Nat.not_lt.2 hid)
  rw [World.morph?_updateMorph hm, if_neg hne, h.morph?_eq id' hid']

/-- A new node changes its attributes. -/
theorem changeAttributes (h : w.Grows w') {node : NodeId} (hnode : w.dom.size ≤ node.index)
    (f : Dict String → Dict String) :
    w.Grows { w' with dom := w'.dom.changeAttributes node f } where
  heap := h.heap
  dom := by
    refine ⟨?_, fun n hn => ?_⟩
    · show _ ≤ (w'.dom.changeAttributes node f).size
      rw [Dom.changeAttributes, Dom.size_modify]
      exact h.dom.size_le
    · show (w'.dom.changeAttributes node f).record n = _
      rw [Dom.changeAttributes, Dom.record_modify, if_neg, h.dom.record_eq n hn]
      rintro ⟨rfl, -⟩
      omega
  linked hw := (h.linked hw).changeData node _
  size_le := h.size_le
  morph?_eq := h.morph?_eq

end World.Grows

theorem Dom.Loose.mono {base base' dom : Dom} {t : Tree NodeId} (h : base'.Loose dom t)
    (hle : base.size ≤ base'.size) : base.Loose dom t :=
  ⟨h.holds, h.nodup, fun x hx => Nat.le_trans hle (h.fresh x hx)⟩

/-- If a value is a node, it is the root of a tree without a place, of nodes that are not in
`base`. -/
def Value.Fresh (base dom : Dom) (value : Value) : Prop :=
  ∀ id, value = .node id → ∃ t, t.label = id ∧ base.Loose dom t

theorem Value.fresh_of_not_node {base dom : Dom} {value : Value} (h : value.isNode = false) :
    value.Fresh base dom := by
  rintro id rfl
  cases h

theorem Value.exists_of_isNode {value : Value} (h : value.isNode = true) :
    ∃ id, value = .node id := by
  cases value <;> first | exact ⟨_, rfl⟩ | cases h

theorem Value.Fresh.mono {base base' dom : Dom} {value : Value} (h : value.Fresh base' dom)
    (hle : base.size ≤ base'.size) : value.Fresh base dom := by
  intro id hid
  obtain ⟨t, ht, hloose⟩ := h id hid
  exact ⟨t, ht, hloose.mono hle⟩

theorem Value.Fresh.index_lt {base dom : Dom} {value : Value} (h : value.Fresh base dom)
    (id : NodeId) (hid : value = .node id) : id.index < dom.size := by
  obtain ⟨t, rfl, hloose⟩ := h id hid
  exact hloose.holds.index_lt t _ t.label_mem_labels

/-- A fresh value displays trees of its own. -/
theorem Value.Fresh.displays {base dom : Dom} {value : Value} (h : value.Fresh base dom)
    (m : Morph) : ∃ trees, m.Displays base dom value trees := by
  cases hvalue : value.isNode with
  | false => exact ⟨_, .new value hvalue⟩
  | true =>
    obtain ⟨id, rfl⟩ := Value.exists_of_isNode hvalue
    obtain ⟨t, rfl, hloose⟩ := h id rfl
    exact ⟨_, .node t hloose⟩

/-! ## computations -/

section Computations

variable (heap : Heap) {α β : Type}

/-- A computation that only adds to a world with these objects. -/
def Render.Adds (x : Render σ α) : Prop :=
  ∀ w a w', w.heap = heap → x w = some (a, w') → w.Grows w'

/-- A computation of a fresh value that only adds to a world with these objects. -/
def Render.Makes (x : Render σ Value) : Prop :=
  ∀ w value w', w.heap = heap → x w = some (value, w') → w.Grows w' ∧ value.Fresh w.dom w'.dom

/-- A computation that shows a fresh value in a morph, after it has added to the world. -/
def Render.ShowsIn (morph : MorphId) (x : Render σ Unit) : Prop :=
  ∀ w w', w.heap = heap → x w = some ((), w') →
    ∃ w₁ value, w.Grows w₁ ∧ value.Fresh w.dom w₁.dom ∧ w' = w₁.updateMorph morph value

/-- A computation that changes the attributes of a node, after it has added to the world. -/
def Render.ChangesAttributes (node : NodeId) (x : Render σ Unit) : Prop :=
  ∀ w w', w.heap = heap → x w = some ((), w') →
    ∃ w₁ f, w.Grows w₁ ∧ w' = { w₁ with dom := w₁.dom.changeAttributes node f }

variable {heap}

theorem Render.adds_pure (a : α) : (pure a : Render σ α).Adds heap := by
  rintro w _ _ - h
  cases h
  exact .refl w

theorem Render.Adds.bind {x : Render σ α} {f : α → Render σ β} (hx : x.Adds heap)
    (hf : ∀ a, (f a).Adds heap) : (x >>= f).Adds heap := by
  intro w b w' hheap h
  obtain ⟨a, w₁, h₁, h₂⟩ := Render.exists_of_bind_eq h
  have hgrows := hx w a w₁ hheap h₁
  exact hgrows.trans (hf a w₁ b w' (hgrows.heap.trans hheap) h₂)

theorem Render.makes_pure {value : Value} (h : value.isNode = false) :
    (pure value : Render σ Value).Makes heap := by
  rintro w _ _ - h'
  cases h'
  exact ⟨.refl w, Value.fresh_of_not_node h⟩

theorem Render.Makes.adds {x : Render σ Value} (h : x.Makes heap) : x.Adds heap :=
  fun w value w' hheap hx => (h w value w' hheap hx).1

theorem Render.Adds.bind_makes {x : Render σ α} {f : α → Render σ Value} (hx : x.Adds heap)
    (hf : ∀ a, (f a).Makes heap) : (x >>= f).Makes heap := by
  intro w value w' hheap h
  obtain ⟨a, w₁, h₁, h₂⟩ := Render.exists_of_bind_eq h
  have hgrows := hx w a w₁ hheap h₁
  obtain ⟨hgrows', hfresh⟩ := hf a w₁ value w' (hgrows.heap.trans hheap) h₂
  exact ⟨hgrows.trans hgrows', hfresh.mono hgrows.dom.size_le⟩

end Computations

/-! ## hooks -/

/-- Hooks that add to worlds with these objects, and show or change nothing but what they are
called for. -/
structure Hooks.Sound (heap : Heap) (hooks : Hooks σ) : Prop where
  lookupHelper : ∀ name scope w helper w',
    hooks.lookupHelper name scope w = some (helper, w') →
      w' = w ∧ helper = (Builtin.ofName? name).map .builtin
  simple : ∀ (scope : Scope) path, scope.NodeFree heap → ∀ w value w', w.heap = heap →
    hooks.simple scope path w = some (value, w') → w' = w ∧ value.isNode = false
  concat : ∀ (scope : Scope) parts invocation, scope.NodeFree heap → ∀ w value w',
    w.heap = heap → hooks.concat scope parts invocation w = some (value, w') →
      w' = w ∧ value.isNode = false
  subexpr : ∀ path (scope : Scope) params hash (invocation : Invocation), scope.NodeFree heap →
    invocation.element = none → (hooks.subexpr path scope params hash invocation).Makes heap
  renderPartial : ∀ (scope : Scope) params hash invocation, scope.NodeFree heap →
    (hooks.renderPartial scope params hash invocation).Makes heap
  componentFallback : ∀ morph tag (scope : Scope) hash (invocation : Invocation),
    scope.NodeFree heap → invocation.scope = scope →
      (hooks.componentFallback morph tag scope hash invocation).Makes heap
  content : ∀ morph path (scope : Scope) params hash (invocation : Invocation),
    scope.NodeFree heap → invocation.element = none →
      (hooks.content morph path scope params hash invocation).ShowsIn heap morph
  component : ∀ morph tag (scope : Scope) hash (invocation : Invocation), scope.NodeFree heap →
    invocation.element = none → invocation.scope = scope →
      (hooks.component morph tag scope hash invocation).ShowsIn heap morph
  element : ∀ node path (scope : Scope) params hash invocation, scope.NodeFree heap →
    (hooks.element node path scope params hash invocation).ChangesAttributes heap node
  attr : ∀ node name quoted (scope : Scope) parts invocation, scope.NodeFree heap →
    (hooks.attr node name quoted scope parts invocation).ChangesAttributes heap node

namespace Hooks

variable {heap : Heap} {hooks : Hooks σ} {scope : Scope}

/-- Hooks without results are sound. -/
theorem sound_exhausted (heap : Heap) : (Hooks.exhausted : Hooks σ).Sound heap := by
  constructor <;> intros <;> first
    | (intro w value w' _ h; cases h)
    | (intro w w' _ h; cases h)
    | (next h => cases h)

mutual

/-- Evaluating params adds to the world. -/
theorem Sound.evaluateParam (h : hooks.Sound heap) (hscope : scope.NodeFree heap) : (p : Param) →
    (evaluateParam hooks scope p).Adds heap
  | .id path => fun w value w' hheap hvalue => by
    obtain ⟨rfl, -⟩ := h.simple scope path hscope w value w' hheap hvalue
    exact .refl _
  | .call c => Sound.evaluateCall h hscope c
  | .string s => Render.adds_pure _
  | .number x => Render.adds_pure _
  | .boolean b => Render.adds_pure _

theorem Sound.evaluateCall (h : hooks.Sound heap) (hscope : scope.NodeFree heap) : (c : Call) →
    (evaluateCall hooks scope c).Adds heap
  | ⟨_, some _, _, _⟩ => Render.adds_pure _
  | ⟨path, none, params, hash⟩ =>
    (Sound.evaluateParams h hscope params).bind fun _ =>
      (Sound.evaluatePairs h hscope hash).bind fun _ =>
        (h.subexpr path scope _ _ _ hscope rfl).adds

theorem Sound.evaluateParams (h : hooks.Sound heap) (hscope : scope.NodeFree heap) :
    (ps : List Param) → (evaluateParams hooks scope ps).Adds heap
  | [] => Render.adds_pure _
  | p :: ps =>
    (Sound.evaluateParam h hscope p).bind fun _ =>
      (Sound.evaluateParams h hscope ps).bind fun _ => Render.adds_pure _

theorem Sound.evaluatePairs (h : hooks.Sound heap) (hscope : scope.NodeFree heap) :
    (pairs : List (String × Param)) → (evaluatePairs hooks scope pairs).Adds heap
  | [] => Render.adds_pure _
  | (_, p) :: pairs =>
    (Sound.evaluateParam h hscope p).bind fun _ =>
      (Sound.evaluatePairs h hscope pairs).bind fun _ => Render.adds_pure _

end

theorem Sound.evaluateHash (h : hooks.Sound heap) (hscope : scope.NodeFree heap)
    (pairs : List (String × Param)) : (evaluateHash hooks scope pairs).Adds heap :=
  (h.evaluatePairs hscope pairs).bind fun _ => Render.adds_pure _

theorem Sound.evaluateArguments (h : hooks.Sound heap) (hscope : scope.NodeFree heap)
    (call : Call) : (evaluateArguments hooks scope call).Adds heap :=
  (h.evaluateParams hscope call.params).bind fun _ =>
    (h.evaluateHash hscope call.hash).bind fun _ => Render.adds_pure _

theorem Sound.evaluateParts (h : hooks.Sound heap) (hscope : scope.NodeFree heap)
    (parts : List Param) : (parts.mapM (evaluatePart hooks scope)).Adds heap := by
  have hpart : ∀ p, (evaluatePart hooks scope p).Adds heap := by
    intro p
    cases p with
    | call c => exact h.evaluateCall hscope c
    | id path => exact Render.adds_pure _
    | string s => exact Render.adds_pure _
    | number x => exact Render.adds_pure _
    | boolean b => exact Render.adds_pure _
  induction parts with
  | nil =>
    rw [List.mapM_nil]
    exact Render.adds_pure _
  | cons p parts ih =>
    rw [List.mapM_cons]
    exact (hpart p).bind fun _ => ih.bind fun _ => Render.adds_pure _

end Hooks

end LiveTemplate
