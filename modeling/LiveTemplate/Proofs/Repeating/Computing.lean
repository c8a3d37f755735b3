import LiveTemplate.Proofs.Render.Growth
import LiveTemplate.Proofs.Repeating.Showing

/-!
# LiveTemplate.Proofs.Repeating.Computing

Computations that repeat: from worlds that have grown alike they come to worlds that have.

1. Two computations repeat one another (`Render.Repeats`) if they have results that are alike,
   or both have none.  Computations are put together from steps that repeat.
2. Hooks repeat (`Hooks.Repeats`) if each of them does, called with what is alike.  Hashes do
   not count, since no builtin helper reads them.
3. So evaluating arguments with such hooks does as well (`Hooks.Repeats.evaluateArguments`),
   in scopes without nodes.
-/

namespace LiveTemplate

variable {σ : Type}

/-! ## worlds -/

section Alike

variable (s s' : Start)

/-- One is the `k`-th morph that is registered after one start, the other the `k`-th after the
other. -/
def MorphId.Twin (a b : MorphId) : Prop := ∃ k, a = ⟨s.morphs + k⟩ ∧ b = ⟨s'.morphs + k⟩

/-- Worlds with these objects, to which the same was added. -/
structure World.GrownAlike (heap : Heap) (w w' : World σ) : Prop where
  dom : w.dom.GrownAlike s s' w'.dom
  left_heap : w.heap = heap
  right_heap : w'.heap = heap
  exists_size : ∃ added, w.morphs.size = s.morphs + added ∧ w'.morphs.size = s'.morphs + added
  morph? : ∀ a b, MorphId.Twin s s' a b → Option.Rel (Morph.Alike s s') (w.morph? a) (w'.morph? b)

end Alike

/-- Where a render starts in a world. -/
def World.start (w : World σ) (context : Option NodeId) : Start := ⟨w.dom, w.morphs.size, context⟩

variable {s s' : Start} {heap : Heap}

theorem MorphId.Twin.eq_iff {a b c d : MorphId} (h : a.Twin s s' b) (h' : c.Twin s s' d) :
    a = c ↔ b = d := by
  obtain ⟨k, rfl, rfl⟩ := h
  obtain ⟨l, rfl, rfl⟩ := h'
  simp only [MorphId.mk.injEq, Nat.add_left_cancel_iff]

namespace World.GrownAlike

variable {w w' : World σ} {m m' : Morph} {a b : MorphId}

/-- At the start nothing has been added. -/
theorem refl (hheap : w.heap = heap) (hheap' : w'.heap = heap) (context context' : Option NodeId) :
    w.GrownAlike (w.start context) (w'.start context') heap w' where
  dom := .refl _ _
  left_heap := hheap
  right_heap := hheap'
  exists_size := ⟨0, rfl, rfl⟩
  morph? a b hab := by
    obtain ⟨k, rfl, rfl⟩ := hab
    have hnone : ∀ w : World σ, w.morph? ⟨w.morphs.size + k⟩ = none :=
      fun w => Array.getElem?_eq_none (Nat.le_add_right ..)
    rw [show (w.start context).morphs = w.morphs.size from rfl, hnone,
      show (w'.start context').morphs = w'.morphs.size from rfl, hnone]
    exact .none

variable (h : w.GrownAlike s s' heap w')

include h

/-- The morphs that are registered next are twins. -/
theorem twin_size : MorphId.Twin s s' ⟨w.morphs.size⟩ ⟨w'.morphs.size⟩ := by
  obtain ⟨added, hsize, hsize'⟩ := h.exists_size
  exact ⟨added, by rw [hsize], by rw [hsize']⟩

theorem changeDom {dom dom' : Dom} (hdom : dom.GrownAlike s s' dom') :
    World.GrownAlike s s' heap { w with dom } { w' with dom := dom' } :=
  { h with dom := hdom }

theorem addMorph (hm : m.Alike s s' m') :
    (w.addMorph m).2.GrownAlike s s' heap (w'.addMorph m').2 where
  dom := h.dom
  left_heap := h.left_heap
  right_heap := h.right_heap
  exists_size := by
    obtain ⟨added, hsize, hsize'⟩ := h.exists_size
    refine ⟨added + 1, ?_, ?_⟩
    · exact (Array.size_push ..).trans (congrArg (· + 1) hsize)
    · exact (Array.size_push ..).trans (congrArg (· + 1) hsize')
  morph? a b hab := by
    have hiff : a.index = w.morphs.size ↔ b.index = w'.morphs.size := by
      obtain ⟨k, rfl, rfl⟩ := hab
      obtain ⟨added, hsize, hsize'⟩ := h.exists_size
      rw [hsize, hsize', Nat.add_left_cancel_iff, Nat.add_left_cancel_iff]
    rw [morph?_addMorph, morph?_addMorph]
    by_cases ha : a.index = w.morphs.size
    · rw [if_pos ha, if_pos (hiff.1 ha)]
      exact .some hm
    · rw [if_neg ha, if_neg (mt hiff.2 ha)]
      exact h.morph? a b hab

/-- Morphs that are twins are updated in the same way. -/
theorem updateMorph (hab : a.Twin s s' b) {value value' : Value}
    (hvalue : value.Alike s s' value') (hsimilar : s.Similar s') :
    (w.updateMorph a value).GrownAlike s s' heap (w'.updateMorph b value') := by
  have hmorph := h.morph? a b hab
  cases hm : w.morph? a with
  | none =>
    cases hm' : w'.morph? b with
    | none =>
      rw [World.updateMorph, World.updateMorph, hm, hm']
      exact h
    | some m' =>
      rw [hm, hm'] at hmorph
      cases hmorph
  | some m =>
    cases hm' : w'.morph? b with
    | none =>
      rw [hm, hm'] at hmorph
      cases hmorph
    | some m' =>
      rw [hm, hm'] at hmorph
      obtain ⟨hupdated, hdom⟩ : (m.update value w.dom).1.Alike s s' (m'.update value' w'.dom).1 ∧
          (m.update value w.dom).2.GrownAlike s s' (m'.update value' w'.dom).2 := by
        cases hmorph with
        | some hmorph => exact hmorph.update h.dom hvalue hsimilar
      constructor
      case dom =>
        rw [dom_updateMorph hm, dom_updateMorph hm']
        exact hdom
      case left_heap => rw [heap_updateMorph, h.left_heap]
      case right_heap => rw [heap_updateMorph, h.right_heap]
      case exists_size =>
        rw [size_morphs_updateMorph, size_morphs_updateMorph]
        exact h.exists_size
      case morph? =>
        intro c d hcd
        rw [morph?_updateMorph hm, morph?_updateMorph hm']
        by_cases hc : c = a
        · rw [if_pos hc, if_pos ((hcd.eq_iff hab).1 hc)]
          exact .some hupdated
        · rw [if_neg hc, if_neg (mt (hcd.eq_iff hab).2 hc)]
          exact h.morph? c d hcd

end World.GrownAlike

/-! ## computations -/

namespace Render

variable {α α' β β' : Type} {R : α → α' → Prop} {S : β → β' → Prop}

/-- From worlds that have grown alike, either both computations have results that are alike, in
worlds that have grown alike, or neither has one. -/
def Repeats (s s' : Start) (heap : Heap) (R : α → α' → Prop) (x : Render σ α) (x' : Render σ α') :
    Prop :=
  ∀ w w', w.GrownAlike s s' heap w' →
    Option.Rel (fun r r' => R r.1 r'.1 ∧ r.2.GrownAlike s s' heap r'.2) (x w) (x' w')

theorem repeats_exhausted (R : α → α' → Prop) :
    Repeats s s' heap R (exhausted : Render σ α) (exhausted : Render σ α') :=
  fun _ _ _ => .none

namespace Repeats

theorem pure {a : α} {a' : α'} (h : R a a') :
    Repeats s s' heap R (pure a : Render σ α) (pure a' : Render σ α') :=
  fun _ _ hw => .some ⟨h, hw⟩

/-- Computations that go on from results that are alike. -/
theorem bind {x : Render σ α} {x' : Render σ α'} {f : α → Render σ β} {f' : α' → Render σ β'}
    (hx : Repeats s s' heap R x x') (hf : ∀ a a', R a a' → Repeats s s' heap S (f a) (f' a')) :
    Repeats s s' heap S (x >>= f) (x' >>= f') := by
  intro w w' hw
  have hfirst := hx w w' hw
  rw [bind_apply, bind_apply]
  generalize x w = r at hfirst ⊢
  generalize x' w' = r' at hfirst ⊢
  cases hfirst with
  | none => exact .none
  | some h => exact hf _ _ h.1 _ _ h.2

theorem mapM {xs : List α} {ys : List α'} (h : List.Forall₂ R xs ys) {f : α → Render σ β}
    {f' : α' → Render σ β'} (hf : ∀ a a', R a a' → Repeats s s' heap S (f a) (f' a')) :
    Repeats s s' heap (List.Forall₂ S) (xs.mapM f) (ys.mapM f') := by
  induction h with
  | nil =>
    rw [List.mapM_nil, List.mapM_nil]
    exact .pure .nil
  | cons hxy _ ih =>
    rw [List.mapM_cons, List.mapM_cons]
    exact (hf _ _ hxy).bind fun _ _ hfirst => ih.bind fun _ _ hrest => .pure (.cons hfirst hrest)

theorem read {f : World σ → α} {f' : World σ → α'}
    (h : ∀ w w', w.GrownAlike s s' heap w' → R (f w) (f' w')) :
    Repeats s s' heap R (read f) (read f') :=
  fun w w' hw => .some ⟨h w w' hw, hw⟩

theorem changeDom {f f' : Dom → Dom}
    (h : ∀ dom dom', dom.GrownAlike s s' dom' → (f dom).GrownAlike s s' (f' dom')) :
    Repeats s s' heap Eq (changeDom f : Render σ Unit) (changeDom f') :=
  fun _ _ hw => .some ⟨rfl, hw.changeDom (h _ _ hw.dom)⟩

theorem runDom {f : Dom → α × Dom} {f' : Dom → α' × Dom}
    (h : ∀ dom dom', dom.GrownAlike s s' dom' →
      R (f dom).1 (f' dom').1 ∧ (f dom).2.GrownAlike s s' (f' dom').2) :
    Repeats s s' heap R (runDom f : Render σ α) (runDom f') :=
  fun _ _ hw => .some ⟨(h _ _ hw.dom).1, hw.changeDom (h _ _ hw.dom).2⟩

theorem addMorph {m m' : Morph} (hm : m.Alike s s' m') :
    Repeats s s' heap (MorphId.Twin s s') (addMorph m : Render σ MorphId) (addMorph m') :=
  fun _ _ hw => .some ⟨hw.twin_size, hw.addMorph hm⟩

theorem updateMorph (hsimilar : s.Similar s') {a b : MorphId} (hab : a.Twin s s' b)
    (value value' : Value) (hvalue : value.Alike s s' value') :
    Repeats s s' heap Eq (updateMorph a value : Render σ Unit) (updateMorph b value') :=
  fun _ _ hw => .some ⟨rfl, hw.updateMorph hab hvalue hsimilar⟩

end Repeats

end Render

/-! ## hooks -/

/-- Calls with the same arguments, at places that are alike. -/
structure Invocation.Alike (s s' : Start) (i i' : Invocation) : Prop where
  morph : Option.Rel (MorphId.Twin s s') i.morph i'.morph
  element : Option.Rel (NodeId.Twin s s') i.element i'.element
  context : s.Place s' i.context i'.context
  paramTypes : i.paramTypes = i'.paramTypes
  isLiteral : i.isLiteral = i'.isLiteral
  scope : i.scope = i'.scope
  body : i.body = i'.body

theorem Invocation.Alike.ofCall (s s' : Start) (call : Call) (scope : Scope) :
    (Invocation.ofCall call scope).Alike s s' (.ofCall call scope) :=
  ⟨.none, .none, .none, rfl, rfl, rfl, rfl⟩

/-- Hooks that repeat themselves, each for what is alike, in scopes without nodes. -/
structure Hooks.Repeats (s s' : Start) (heap : Heap) (hooks : Hooks σ) : Prop where
  lookupHelper : ∀ name scope, Render.Repeats s s' heap
    (fun helper helper' => helper = helper' ∧ helper = (Builtin.ofName? name).map .builtin)
    (hooks.lookupHelper name scope) (hooks.lookupHelper name scope)
  simple : ∀ (scope : Scope) path, scope.NodeFree heap → Render.Repeats s s' heap
    (Value.Alike s s') (hooks.simple scope path) (hooks.simple scope path)
  concat : ∀ (scope : Scope) parts parts' invocation invocation', scope.NodeFree heap →
    List.Forall₂ (Value.Alike s s') parts parts' → invocation.Alike s s' invocation' →
      Render.Repeats s s' heap (Value.Alike s s') (hooks.concat scope parts invocation)
        (hooks.concat scope parts' invocation')
  subexpr : ∀ path (scope : Scope) params params' hash hash' invocation invocation',
    scope.NodeFree heap → List.Forall₂ (Value.Alike s s') params params' →
      invocation.Alike s s' invocation' → Render.Repeats s s' heap (Value.Alike s s')
        (hooks.subexpr path scope params hash invocation)
        (hooks.subexpr path scope params' hash' invocation')
  renderPartial : ∀ (scope : Scope) params params' hash hash' invocation invocation',
    scope.NodeFree heap → List.Forall₂ (Value.Alike s s') params params' →
      invocation.Alike s s' invocation' → Render.Repeats s s' heap (Value.Alike s s')
        (hooks.renderPartial scope params hash invocation)
        (hooks.renderPartial scope params' hash' invocation')
  componentFallback : ∀ a b tag (scope : Scope) hash (invocation invocation' : Invocation),
    scope.NodeFree heap → a.Twin s s' b → invocation.Alike s s' invocation' →
      invocation.scope = scope → Render.Repeats s s' heap (Value.Alike s s')
        (hooks.componentFallback a tag scope hash invocation)
        (hooks.componentFallback b tag scope hash invocation')
  content : ∀ a b path (scope : Scope) params params' hash hash' invocation invocation',
    scope.NodeFree heap → a.Twin s s' b → List.Forall₂ (Value.Alike s s') params params' →
      invocation.Alike s s' invocation' → Render.Repeats s s' heap Eq
        (hooks.content a path scope params hash invocation)
        (hooks.content b path scope params' hash' invocation')
  component : ∀ a b tag (scope : Scope) hash (invocation invocation' : Invocation),
    scope.NodeFree heap → a.Twin s s' b → invocation.Alike s s' invocation' →
      invocation.scope = scope → Render.Repeats s s' heap Eq
        (hooks.component a tag scope hash invocation)
        (hooks.component b tag scope hash invocation')
  element : ∀ a b path (scope : Scope) params params' hash hash' invocation invocation',
    scope.NodeFree heap → a.Twin s s' b → List.Forall₂ (Value.Alike s s') params params' →
      invocation.Alike s s' invocation' → Render.Repeats s s' heap Eq
        (hooks.element a path scope params hash invocation)
        (hooks.element b path scope params' hash' invocation')
  attr : ∀ a b name quoted (scope : Scope) parts parts' invocation invocation',
    scope.NodeFree heap → a.Twin s s' b → List.Forall₂ (Value.Alike s s') parts parts' →
      invocation.Alike s s' invocation' → Render.Repeats s s' heap Eq
        (hooks.attr a name quoted scope parts invocation)
        (hooks.attr b name quoted scope parts' invocation')

namespace Hooks

variable {hooks : Hooks σ} {scope : Scope}

/-- Hooks without results repeat. -/
theorem repeats_exhausted (s s' : Start) (heap : Heap) :
    (Hooks.exhausted : Hooks σ).Repeats s s' heap := by
  constructor <;> intros <;> exact Render.repeats_exhausted _

namespace Repeats

/-- Literals have the same value. -/
theorem pure_literal (literal : Param) :
    Render.Repeats s s' heap (Value.Alike s s') (pure literal.literalValue : Render σ Value)
      (pure literal.literalValue) :=
  .pure (.same _ (by cases literal <;> rfl))

mutual

theorem evaluateParam (h : hooks.Repeats s s' heap) (hscope : scope.NodeFree heap) :
    (p : Param) → Render.Repeats s s' heap (Value.Alike s s') (evaluateParam hooks scope p)
      (evaluateParam hooks scope p)
  | .id path => h.simple scope path hscope
  | .call c => evaluateCall h hscope c
  | .string _ => .pure (.same _ rfl)
  | .number _ => .pure (.same _ rfl)
  | .boolean _ => .pure (.same _ rfl)

theorem evaluateCall (h : hooks.Repeats s s' heap) (hscope : scope.NodeFree heap) :
    (c : Call) → Render.Repeats s s' heap (Value.Alike s s') (evaluateCall hooks scope c)
      (evaluateCall hooks scope c)
  | ⟨_, some literal, _, _⟩ => pure_literal literal
  | ⟨path, none, params, hash⟩ =>
    (evaluateParams h hscope params).bind fun _ _ hparams =>
      (evaluatePairs h hscope hash).bind fun _ _ _ =>
        h.subexpr path scope _ _ _ _ _ _ hscope hparams (.ofCall s s' _ scope)

theorem evaluateParams (h : hooks.Repeats s s' heap) (hscope : scope.NodeFree heap) :
    (ps : List Param) → Render.Repeats s s' heap (List.Forall₂ (Value.Alike s s'))
      (evaluateParams hooks scope ps) (evaluateParams hooks scope ps)
  | [] => .pure .nil
  | p :: ps =>
    (evaluateParam h hscope p).bind fun _ _ hvalue =>
      (evaluateParams h hscope ps).bind fun _ _ hvalues => .pure (.cons hvalue hvalues)

theorem evaluatePairs (h : hooks.Repeats s s' heap) (hscope : scope.NodeFree heap) :
    (pairs : List (String × Param)) → Render.Repeats s s' heap (fun _ _ => True)
      (evaluatePairs hooks scope pairs) (evaluatePairs hooks scope pairs)
  | [] => .pure trivial
  | (_, p) :: pairs =>
    (evaluateParam h hscope p).bind fun _ _ _ =>
      (evaluatePairs h hscope pairs).bind fun _ _ _ => .pure trivial

end

variable (h : hooks.Repeats s s' heap) (hscope : scope.NodeFree heap)

include h hscope

theorem evaluateHash (pairs : List (String × Param)) :
    Render.Repeats s s' heap (fun _ _ => True) (evaluateHash hooks scope pairs)
      (evaluateHash hooks scope pairs) :=
  (h.evaluatePairs hscope pairs).bind fun _ _ _ => .pure trivial

theorem evaluateArguments (call : Call) :
    Render.Repeats s s' heap (fun r r' => List.Forall₂ (Value.Alike s s') r.1 r'.1)
      (evaluateArguments hooks scope call) (evaluateArguments hooks scope call) :=
  (h.evaluateParams hscope call.params).bind fun _ _ hparams =>
    (h.evaluateHash hscope call.hash).bind fun _ _ _ => .pure hparams

theorem evaluateParts (parts : List Param) :
    Render.Repeats s s' heap (List.Forall₂ (Value.Alike s s'))
      (parts.mapM (evaluatePart hooks scope)) (parts.mapM (evaluatePart hooks scope)) := by
  refine Render.Repeats.mapM (List.forall₂_same.2 fun _ _ => rfl) ?_
  rintro p _ rfl
  cases p with
  | call c => exact h.evaluateCall hscope c
  | id path => exact pure_literal (.id path)
  | string s => exact pure_literal (.string s)
  | number x => exact pure_literal (.number x)
  | boolean b => exact pure_literal (.boolean b)

end Repeats

end Hooks

end LiveTemplate
