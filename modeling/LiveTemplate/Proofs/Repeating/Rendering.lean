import LiveTemplate.Proofs.Dom.Operations
import LiveTemplate.Proofs.Library.Chains
import LiveTemplate.Proofs.Library.Rendering
import LiveTemplate.Proofs.Render.Regions
import LiveTemplate.Proofs.Repeating.Computing

/-!
# LiveTemplate.Proofs.Repeating.Rendering

Rendering is repeatable, and leaves alone what was there before.

1. A site is rendered alike at targets that are alike, by hooks that repeat.  So is a program:
   it builds the same, has its sites in the same order, and unwraps the same
   (`Hooks.Repeats.render`).
2. Default hooks repeat where the hooks they call do (`Hooks.Repeats.defaults`), so they do at
   every depth (`Hooks.repeats_hooks`).  This includes having no result.
3. Where no partial reaches itself, hooks that are deep enough have a result.  So any two renders
   of a template come to the same (`Template.exists_render_repeats`).
-/

namespace LiveTemplate

variable {σ : Type} {s s' : Start} {heap : Heap}

/-! ## sites -/

/-- Targets that are twins. -/
structure Target.Alike (s s' : Start) (target target' : Target) : Prop where
  node : target.node.Twin s s' target'.node
  context : s.Place s' target.context target'.context

/-- Sites have targets that are alike. -/
theorem Dom.GrownAlike.target {dom dom' : Dom} (h : dom.GrownAlike s s' dom') (site : Site)
    {a b : NodeId} (hab : a.Twin s s' b) {context context' : Option NodeId}
    (hcontext : s.Place s' context context') :
    (site.target dom a context).Alike s s' (site.target dom' b context') := by
  obtain ⟨hnode, hparent⟩ := h.resolve site.path hab hab
  refine ⟨hnode, ?_⟩
  show s.Place s' (if (dom.resolve a a site.path).2 = a then context else _)
    (if (dom'.resolve b b site.path).2 = b then context' else _)
  by_cases htop : (dom.resolve a a site.path).2 = a
  · rw [if_pos htop, if_pos ((hparent.eq_iff hab).1 htop)]
    exact hcontext
  · rw [if_neg htop, if_neg (mt (hparent.eq_iff hab).2 htop)]
    exact .twins hparent

/-- Renders of the same kind, whose roots and morphs are twins. -/
structure Rendered.Alike (s s' : Start) (rendered rendered' : Rendered) : Prop where
  root : rendered.root.Alike s s' rendered'.root
  morphs : List.Forall₂ (MorphId.Twin s s') rendered.morphs rendered'.morphs

theorem Root.Alike.node {root root' : Root} (h : root.Alike s s' root') :
    root.node.Twin s s' root'.node := by
  cases h with
  | single h => exact h
  | sequence h => exact h

namespace Hooks.Repeats

variable {hooks : Hooks σ} {scope : Scope} (h : hooks.Repeats s s' heap)
  (hscope : scope.NodeFree heap) {target target' : Target}

include h hscope

/-- A site is rendered alike at targets that are. -/
theorem renderSite (p : Program) (action : Action) (htarget : target.Alike s s' target') :
    Render.Repeats s s' heap (Option.Rel (MorphId.Twin s s'))
      (p.renderSite hooks scope action target) (p.renderSite hooks scope action target') := by
  cases action with
  | content call escaped =>
    refine (Render.Repeats.addMorph (.create htarget.node escaped htarget.context)).bind
      fun a b hab => (h.evaluateArguments hscope call).bind fun args args' hargs => ?_
    refine (h.content a b _ scope _ _ _ _ _ _ hscope hab hargs ?_).bind
      fun _ _ _ => .pure (.some hab)
    exact ⟨.some hab, .none, htarget.context, rfl, rfl, rfl, rfl⟩
  | block call program inverse =>
    refine (Render.Repeats.addMorph (.create htarget.node true htarget.context)).bind
      fun a b hab => (h.evaluateArguments hscope call).bind fun args args' hargs => ?_
    refine (h.content a b _ scope _ _ _ _ _ _ hscope hab hargs ?_).bind
      fun _ _ _ => .pure (.some hab)
    exact ⟨.some hab, .none, htarget.context, rfl, rfl, rfl, rfl⟩
  | component tag hash program =>
    refine (Render.Repeats.addMorph (.create htarget.node true htarget.context)).bind
      fun a b hab => ?_
    refine (h.component a b tag scope hash _ _ hscope hab ?_ rfl).bind
      fun _ _ _ => .pure (.some hab)
    exact ⟨.some hab, .none, htarget.context, rfl, rfl, rfl, rfl⟩
  | attr name quoted parts =>
    refine (h.evaluateParts hscope parts).bind fun values values' hvalues => ?_
    refine (h.attr _ _ name quoted scope _ _ _ _ hscope htarget.node hvalues ?_).bind
      fun _ _ _ => .pure .none
    exact ⟨.none, .some htarget.node, .none, rfl, rfl, rfl, rfl⟩
  | modifier call =>
    refine (h.evaluateArguments hscope call).bind fun args args' hargs => ?_
    refine (h.element _ _ _ scope _ _ _ _ _ _ hscope htarget.node hargs ?_).bind
      fun _ _ _ => .pure .none
    exact ⟨.none, .some htarget.node, .none, rfl, rfl, rfl, rfl⟩

/-- Sites are rendered alike, one after the other. -/
theorem run (p : Program) {sites sites' : List (Action × Target)}
    (hsites : List.Forall₂ (fun site site' => site.1 = site'.1 ∧ site.2.Alike s s' site'.2)
      sites sites') :
    Render.Repeats s s' heap (List.Forall₂ (Option.Rel (MorphId.Twin s s')))
      (p.run hooks scope sites) (p.run hooks scope sites') := by
  refine Render.Repeats.mapM hsites ?_
  rintro ⟨action, target⟩ ⟨_, target'⟩ ⟨rfl, htarget⟩
  exact h.renderSite hscope p action htarget

theorem renderSites (p : Program) {a b : NodeId} (hab : a.Twin s s' b)
    {context context' : Option NodeId} (hcontext : s.Place s' context context') :
    Render.Repeats s s' heap (List.Forall₂ (MorphId.Twin s s'))
      (p.renderSites hooks scope a context) (p.renderSites hooks scope b context') := by
  unfold Program.renderSites
  split
  · exact .pure .nil
  · refine Render.Repeats.bind (.read fun w w' hw => ?_) fun sites sites' hsites =>
      (h.run hscope p hsites).bind fun results results' hresults => ?_
    · refine List.rel_map ?_ (List.forall₂_same.2 fun _ _ => rfl)
      rintro site _ rfl
      exact ⟨rfl, hw.dom.target site hab hcontext⟩
    · exact .pure (List.rel_filterMap (fun _ _ hresult => hresult) hresults)

/-- A program is rendered alike for elements that hand down the same. -/
theorem render (hsimilar : s.Similar s') (p : Program) {context context' : Option NodeId}
    (hcontext : s.Place s' context context') :
    Render.Repeats s s' heap (Rendered.Alike s s') (p.render hooks scope context)
      (p.render hooks scope context') := by
  unfold Program.render
  refine Render.Repeats.bind (R := NodeId.Twin s s') (.runDom fun dom dom' hdom => ?_)
    fun a b hab => (h.renderSites hscope p hab hcontext).bind fun morphs morphs' hmorphs =>
      Render.Repeats.bind (.runDom fun dom dom' hdom => hdom.unwrap hab)
        fun root root' hroot => .pure ⟨hroot, hmorphs⟩
  rw [hdom.nsBelow hsimilar hcontext]
  exact hdom.plantFragment _

/-- What a program renders is the root of alike renders. -/
theorem render_root (hsimilar : s.Similar s') (p : Program) {context context' : Option NodeId}
    (hcontext : s.Place s' context context') :
    Render.Repeats s s' heap (Value.Alike s s')
      (do
        let rendered ← p.render hooks scope context
        return .node rendered.root.node)
      (do
        let rendered ← p.render hooks scope context'
        return .node rendered.root.node) :=
  (h.render hscope hsimilar p hcontext).bind fun _ _ hrendered => .pure (.twins hrendered.root.node)

/-! ## bodies and helpers -/

omit hscope in
/-- The helper of a name is the builtin one. -/
theorem lookupHelper_bind {α : Type} {R : α → α → Prop} {path : String}
    {f f' : Option (Helper σ) → Render σ α}
    (hf : Render.Repeats s s' heap R (f ((Builtin.ofName? path).map .builtin))
      (f' ((Builtin.ofName? path).map .builtin))) :
    Render.Repeats s s' heap R (hooks.lookupHelper path scope >>= f)
      (hooks.lookupHelper path scope >>= f') := by
  refine (h.lookupHelper path scope).bind ?_
  rintro helper _ ⟨rfl, rfl⟩
  exact hf

/-- Builtin helpers repeat. -/
theorem run_builtin (b : Builtin) {params params' : List Value}
    (hparams : List.Forall₂ (Value.Alike s s') params params') (hash hash' : Hash)
    {i i' : Invocation} (hi : i.Alike s s' i') :
    Render.Repeats s s' heap (Value.Alike s s') (b.run hooks scope params hash i)
      (b.run hooks scope params' hash' i') := by
  cases b with
  | concat => exact .pure (by rw [Value.Alike.joinedText_eq hparams]; exact .same _ rfl)
  | renderPartial => exact h.renderPartial scope _ _ _ _ _ _ hscope hparams hi
  | setAttribute =>
    have helement := hi.element
    simp only [Builtin.run]
    generalize i.element = element at helement ⊢
    generalize i'.element = element' at helement ⊢
    cases helement with
    | none => exact .pure (.same _ rfl)
    | some hab =>
      cases hparams with
      | nil => exact .pure (.same _ rfl)
      | cons hname hvalues =>
        simp only [hname.text, Value.Alike.joinedText_eq hvalues]
        exact (Render.Repeats.changeDom fun dom dom' hdom => hdom.setAttribute hab _ _).bind
          fun _ _ _ => .pure (.same _ rfl)

/-- The body of a component is rendered alike, and its block params are undefined. -/
theorem render_body (hsimilar : s.Similar s') {i i' : Invocation} (hi : i.Alike s s' i')
    (hinvocation : i.scope = scope) {element element' : Option NodeId}
    (helement : s.Place s' element element') :
    Render.Repeats s s' heap (Value.Alike s s') (i.render hooks scope.context element [])
      (i'.render hooks scope.context element' []) := by
  unfold Invocation.render Invocation.renderBody
  rw [← hi.body, ← hi.scope, hinvocation]
  split
  · exact .pure (.same _ rfl)
  · next p _ =>
    exact h.render_root (nodeFree_bind hscope p.blockParams) hsimilar p
      (helement.or hi.context hsimilar)

/-! ## attributes -/

theorem partTexts {parts parts' : List Value}
    (hparts : List.Forall₂ (Value.Alike s s') parts parts') (types : List ParamType) :
    Render.Repeats s s' heap Eq (partTexts hooks scope parts types)
      (partTexts hooks scope parts' types) := by
  induction hparts generalizing types with
  | nil => exact .pure rfl
  | @cons part part' rest rest' hpart _ ih =>
    rw [Hooks.partTexts, Hooks.partTexts]
    have hrest : ∀ value value' : Value, value.Alike s s' value' → Render.Repeats s s' heap Eq
        (Hooks.partTexts hooks scope rest types.tail >>= fun texts => pure (value.text :: texts))
        (Hooks.partTexts hooks scope rest' types.tail >>= fun texts =>
          pure (value'.text :: texts)) := by
      intro value value' hvalue
      refine (ih types.tail).bind ?_
      rintro texts _ rfl
      exact .pure (by rw [hvalue.text])
    rw [hpart.text]
    split
    · exact (h.simple scope _ hscope).bind hrest
    · exact hrest _ _ hpart

theorem attributeValue (quoted : Bool) {parts parts' : List Value}
    (hparts : List.Forall₂ (Value.Alike s s') parts parts') {i i' : Invocation}
    (hi : i.Alike s s' i') :
    Render.Repeats s s' heap (Value.Alike s s') (attributeValue hooks quoted scope parts i)
      (attributeValue hooks quoted scope parts' i') := by
  cases quoted with
  | true => exact h.concat scope _ _ _ _ hscope hparts hi
  | false =>
    unfold Hooks.attributeValue
    rw [if_neg Bool.false_ne_true, if_neg Bool.false_ne_true, hi.paramTypes]
    cases hparts with
    | nil => exact .pure (.same _ rfl)
    | cons hpart =>
      cases i'.paramTypes with
      | nil => exact .pure hpart
      | cons type types =>
        cases type with
        | id =>
          simp only [hpart.text]
          exact h.simple scope _ hscope
        | _ => exact .pure hpart

theorem setAttributes {a b : NodeId} (hab : a.Twin s s' b) (pairs : List (String × Param)) :
    Render.Repeats s s' heap Eq (setAttributes hooks scope a pairs)
      (setAttributes hooks scope b pairs) := by
  induction pairs with
  | nil => exact .pure rfl
  | cons pair pairs ih =>
    obtain ⟨name, param⟩ := pair
    rw [Hooks.setAttributes, Hooks.setAttributes]
    refine (h.evaluateParam hscope param).bind fun value value' hvalue => ?_
    rw [hvalue.isNullish, hvalue.text]
    split
    · exact (Render.Repeats.changeDom fun dom dom' hdom => hdom.setAttribute hab _ _).bind
        fun _ _ _ => ih
    · exact ih

end Hooks.Repeats

/-! ## default hooks -/

/-- The element as whose content a morph reads HTML is that of its twin. -/
theorem Hooks.repeats_morphContext {a b : Option MorphId}
    (hab : Option.Rel (MorphId.Twin s s') a b) :
    Render.Repeats s s' heap (s.Place s') (Hooks.morphContext a : Render σ (Option NodeId))
      (Hooks.morphContext b) := by
  refine .read fun w w' hw => ?_
  cases hab with
  | none => exact .none
  | @some a b hab =>
    have hmorph := hw.morph? a b hab
    simp only [Option.bind_some]
    generalize w.morph? a = m at hmorph ⊢
    generalize w'.morph? b = m' at hmorph ⊢
    cases hmorph with
    | none => exact .none
    | some hm => exact hm.context

namespace Hooks.Repeats

variable {self : Hooks σ} {scope : Scope} (h : self.Repeats s s' heap)

include h

/-- A component without a helper makes an element, with what the body renders in it. -/
theorem componentFallback_defaults (env : Environment σ) (hsimilar : s.Similar s')
    (hscope : scope.NodeFree heap) {a b : MorphId} (hab : a.Twin s s' b) (tag : String)
    (hash : List (String × Param)) {i i' : Invocation} (hi : i.Alike s s' i')
    (hinvocation : i.scope = scope) :
    Render.Repeats s s' heap (Value.Alike s s')
      ((Hooks.defaults env self).componentFallback a tag scope hash i)
      ((Hooks.defaults env self).componentFallback b tag scope hash i') := by
  refine (repeats_morphContext (.some hab)).bind fun context context' hcontext => ?_
  refine Render.Repeats.bind (R := NodeId.Twin s s') (.runDom fun dom dom' hdom => ?_)
    fun element element' helement => ?_
  · rw [hdom.nsBelow hsimilar hcontext]
    exact ⟨hdom.twin_size, hdom.create _⟩
  · refine (h.setAttributes hscope helement hash).bind fun _ _ _ =>
      (h.render_body hscope hsimilar hi hinvocation (.twins helement)).bind fun body body' hbody => ?_
    cases hbody with
    | same _ hnode =>
      cases body with
      | node id => cases hnode
      | _ => exact .pure (.twins helement)
    | twins hbody =>
      exact (Render.Repeats.changeDom fun dom dom' hdom => hdom.appendChild helement hbody).bind
        fun _ _ _ => .pure (.twins helement)

/-- The default hooks repeat where those they call do, whatever partials there are. -/
theorem defaults (hsimilar : s.Similar s') (partials : Dict Program) :
    (Hooks.defaults { partials } self).Repeats s s' heap where
  lookupHelper name scope := .pure ⟨rfl, rfl⟩
  simple scope path hscope := .read fun w w' hw => by
    rw [hw.left_heap, hw.right_heap]
    exact .same _ (hscope path)
  concat scope parts parts' i i' hscope hparts hi := by
    dsimp only [Hooks.defaults]
    rw [hi.paramTypes]
    refine (h.partTexts hscope hparts i'.paramTypes).bind ?_
    rintro texts _ rfl
    exact .pure (.same _ rfl)
  subexpr path scope params params' hash hash' i i' hscope hparams hi := by
    refine h.lookupHelper_bind ?_
    cases Builtin.ofName? path with
    | none => exact h.simple scope path hscope
    | some b => exact h.run_builtin hscope b hparams hash hash' hi
  renderPartial scope params params' hash hash' i i' hscope hparams hi := by
    have hname : (params.head?.map Value.text).getD "" =
        (params'.head?.map Value.text).getD "" := by
      cases hparams with
      | nil => rfl
      | cons hparam => exact hparam.text
    dsimp only [Hooks.defaults]
    rw [hname]
    split
    · exact .pure (.same _ rfl)
    · next p _ =>
      exact (repeats_morphContext hi.morph).bind fun _ _ hcontext =>
        h.render_root hscope hsimilar p (hcontext.or hi.context hsimilar)
  componentFallback a b tag scope hash i i' hscope hab hi hinvocation :=
    h.componentFallback_defaults _ hsimilar hscope hab tag hash hi hinvocation
  content a b path scope params params' hash hash' i i' hscope hab hparams hi := by
    refine h.lookupHelper_bind ?_
    cases Builtin.ofName? path with
    | none =>
      show Render.Repeats s s' heap Eq
        (if i.isLiteral then pure (.string path) >>= Render.updateMorph a
          else self.simple scope path >>= Render.updateMorph a : Render σ Unit)
        (if i'.isLiteral then pure (.string path) >>= Render.updateMorph b
          else self.simple scope path >>= Render.updateMorph b)
      rw [hi.isLiteral]
      split
      · exact (Render.Repeats.pure (.same _ rfl)).bind (.updateMorph hsimilar hab)
      · exact (h.simple scope path hscope).bind (.updateMorph hsimilar hab)
    | some builtin =>
      exact (h.run_builtin hscope builtin hparams hash hash' hi).bind (.updateMorph hsimilar hab)
  component a b tag scope hash i i' hscope hab hi hinvocation := by
    refine h.lookupHelper_bind ?_
    cases Builtin.ofName? tag with
    | none =>
      exact (h.componentFallback a b tag scope hash i i' hscope hab hi hinvocation).bind
        (.updateMorph hsimilar hab)
    | some builtin =>
      exact (h.evaluateHash hscope hash).bind fun hash hash' _ =>
        (h.run_builtin hscope builtin .nil hash hash' hi).bind (.updateMorph hsimilar hab)
  element a b path scope params params' hash hash' i i' hscope hab hparams hi := by
    refine h.lookupHelper_bind ?_
    cases Builtin.ofName? path with
    | none => exact .pure rfl
    | some builtin =>
      refine (h.run_builtin hscope builtin hparams hash hash' ?_).bind fun _ _ _ => .pure rfl
      exact { hi with element := .some hab }
  attr a b name quoted scope parts parts' i i' hscope hab hparts hi := by
    refine (h.attributeValue hscope quoted hparts hi).bind fun value value' hvalue =>
      .changeDom fun dom dom' hdom => ?_
    rw [hvalue.isNullish, hvalue.text]
    split
    · exact hdom.removeAttribute hab name
    · exact hdom.setAttribute hab name _

end Hooks.Repeats

/-- The hooks of an environment without helpers repeat at every depth. -/
theorem Hooks.repeats_hooks (heap : Heap) (hsimilar : s.Similar s') (partials : Dict Program)
    (depth : Nat) : (({ partials } : Environment σ).hooks depth).Repeats s s' heap := by
  induction depth with
  | zero => exact repeats_exhausted s s' heap
  | succ depth ih => exact ih.defaults hsimilar partials

/-! ## renders that repeat -/

/-- Renders that come to the same: to roots of one kind with trees that are alike, and to morphs
that are. -/
structure Rendered.Repeats (s s' : Start) (w w' : World σ) (rendered rendered' : Rendered) :
    Prop where
  root : rendered.root.Alike s s' rendered'.root
  tree : (w.dom.tree rendered.root.node).Alike s s' (w'.dom.tree rendered'.root.node)
  morphs : List.Forall₂ (fun id id' => id.Twin s s' id' ∧
      ∃ m m', w.morph? id = some m ∧ w'.morph? id' = some m' ∧ m.Alike s s' m')
    rendered.morphs rendered'.morphs

/-- The trees at twins are alike, if the documents hold trees there. -/
theorem Dom.GrownAlike.tree {dom dom' : Dom} (h : dom.GrownAlike s s' dom') {t t' : Tree NodeId}
    (htwin : t.label.Twin s s' t'.label) (ht : dom.Holds none t) (hnodup : t.labels.Nodup)
    (ht' : dom'.Holds none t') (hnodup' : t'.labels.Nodup) :
    (dom.tree t.label).Alike s s' (dom'.tree t'.label) := by
  rw [← treeTo_of_holds ht hnodup (Nat.le_max_left dom.size dom'.size),
    ← treeTo_of_holds ht' hnodup' (Nat.le_max_right dom.size dom'.size)]
  exact h.treeTo _ htwin

/-- Morphs that are twins are alike, if they are registered. -/
theorem World.GrownAlike.forall₂_morphs {w w' : World σ} (h : w.GrownAlike s s' heap w')
    {ids ids' : List MorphId} (hids : List.Forall₂ (MorphId.Twin s s') ids ids')
    (hregistered : ∀ id ∈ ids, ∃ m, w.morph? id = some m) :
    List.Forall₂ (fun id id' => id.Twin s s' id' ∧
      ∃ m m', w.morph? id = some m ∧ w'.morph? id' = some m' ∧ m.Alike s s' m') ids ids' := by
  induction hids with
  | nil => exact .nil
  | @cons id id' ids ids' htwin _ ih =>
    rw [List.forall_mem_cons] at hregistered
    refine .cons ⟨htwin, ?_⟩ (ih hregistered.2)
    obtain ⟨m, hm⟩ := hregistered.1
    have hmorph := h.morph? id id' htwin
    rw [hm] at hmorph
    generalize hm' : w'.morph? id' = m' at hmorph
    cases hmorph with
    | some hmorph => exact ⟨_, _, hm, rfl, hmorph⟩

/-- Rendering is repeatable, and leaves alone what there was.  Where no helpers are registered and
no partial reaches itself, hooks that are deep enough render a template in any two worlds with the
same objects, for elements of the same tag and namespace or for none.  Node for node and morph for
morph the two renders create the same, and neither changes anything else. -/
theorem Template.exists_render_repeats {partials : Dict Template} (t : Template) {scope : Scope}
    (hscope : scope.NodeFree heap)
    (hacyclic : Library.Acyclic { partials } heap scope t.children) :
    ∃ least, ∀ depth, least ≤ depth → ∀ (w w' : World σ) (context context' : Option NodeId),
      w.heap = heap → w'.heap = heap → (w.start context).Similar (w'.start context') →
        ∃ rendered rendered' w₁ w₁',
          t.compile.render ((Library.environment { partials }).hooks depth) scope context w =
            some (rendered, w₁) ∧
          t.compile.render ((Library.environment { partials }).hooks depth) scope context' w' =
            some (rendered', w₁') ∧
          w₁.GrownAlike (w.start context) (w'.start context') heap w₁' ∧
          rendered.Repeats (w.start context) (w'.start context') w₁ w₁' rendered' := by
  let programs : Dict Program := ⟨partials.entries.map fun entry => (entry.1, entry.2.compile)⟩
  obtain ⟨least, hrenders⟩ :=
    Library.exists_renders_shown (σ := σ) { partials } t hscope hacyclic.settled
  refine ⟨least, fun depth hdepth w w' context context' hheap hheap' hsimilar => ?_⟩
  have hexists : ∀ id, context = some id → id.index < w.dom.size := fun _ => hsimilar.context_lt
  have hexists' : ∀ id, context' = some id → id.index < w'.dom.size :=
    fun _ => hsimilar.symm.context_lt
  obtain ⟨rendered, w₁, root, hrender, hroot, -, hloose, -⟩ :=
    hrenders depth hdepth context w hheap hexists
  obtain ⟨rendered', w₁', root', hrender', hroot', -, hloose', -⟩ :=
    hrenders depth hdepth context' w' hheap' hexists'
  have hrepeats := (Hooks.repeats_hooks (σ := σ) heap hsimilar programs depth).render hscope
    hsimilar t.compile .given w w' (.refl hheap hheap' context context')
  obtain ⟨halike, hgrown⟩ : rendered.Alike (w.start context) (w'.start context') rendered' ∧
      w₁.GrownAlike (w.start context) (w'.start context') heap w₁' := by
    rw [show t.compile.render (({ partials := programs } : Environment σ).hooks depth) scope
      (w.start context).context w = some (rendered, w₁) from hrender,
      show t.compile.render (({ partials := programs } : Environment σ).hooks depth) scope
        (w'.start context').context w' = some (rendered', w₁') from hrender'] at hrepeats
    cases hrepeats with
    | some h => exact h
  have hregistered := exists_morph_compileBody
    (Hooks.sound_hooks (σ := σ) w.heap programs depth) (hheap ▸ hscope) hexists hrender
  refine ⟨rendered, rendered', w₁, w₁', hrender, hrender', hgrown, halike.root, ?_,
    hgrown.forall₂_morphs halike.morphs hregistered⟩
  have htwin := halike.root.node
  rw [hroot, hroot'] at htwin ⊢
  exact hgrown.dom.tree htwin hloose.holds hloose.nodup hloose'.holds hloose'.nodup

/-- A paragraph with the context in it, and behind it a partial. -/
def noted : Template where
  children := [
    .element ⟨"p", .xhtml, [], [], false⟩ [.insertion ⟨{ path := "this" }, true, {}⟩] {},
    .insertion ⟨{ path := "partial", params := [.string "note"] }, true, {}⟩]

/-- A partial that shows the context as HTML. -/
def notes : Dict Template :=
  ⟨[("note", { children := [.insertion ⟨{ path := "this" }, false, {}⟩] })]⟩

/-- Renders in a document that has one element, and in one with other nodes before it. -/
theorem Template.exists_render_repeats_noted :
    let scope : Scope := { context := .string "a<b>c</b>" }
    let operations : List Dom.Operation := [.create (.element "div" .xhtml {})]
    let operations' : List Dom.Operation := [.create (.text "x"),
      .create (.element "ul" .xhtml {}), .create (.element "div" .xhtml {}),
      .setAttribute ⟨2⟩ "id" "d", .insertBefore ⟨1⟩ ⟨2⟩ none]
    let dom : Dom := operations.foldl Dom.Operation.apply {}
    let dom' : Dom := operations'.foldl Dom.Operation.apply {}
    let w : World Unit := { dom, notes := () }
    let w' : World Unit := { dom := dom', notes := () }
    dom.Reached ∧ dom'.Reached ∧ scope.NodeFree {} ∧
      Library.Acyclic { partials := notes } {} scope noted.children ∧
      (w.start (some ⟨0⟩)).Similar (w'.start (some ⟨2⟩)) ∧
      ∃ least, ∀ depth, least ≤ depth → ∃ rendered rendered' w₁ w₁',
        noted.compile.render ((Library.environment { partials := notes }).hooks depth) scope
            (some ⟨0⟩) w = some (rendered, w₁) ∧
          noted.compile.render ((Library.environment { partials := notes }).hooks depth) scope
            (some ⟨2⟩) w' = some (rendered', w₁') ∧
          w₁.GrownAlike (w.start (some ⟨0⟩)) (w'.start (some ⟨2⟩)) {} w₁' ∧
          rendered.Repeats (w.start (some ⟨0⟩)) (w'.start (some ⟨2⟩)) w₁ w₁' rendered' := by
  intro scope operations operations' dom dom' w w'
  have hnew : ∀ {tag tag' ns ns' attributes},
      NodeData.element tag ns {} = .element tag' ns' attributes → attributes = {} := by
    rintro _ _ _ _ _ ⟨⟩
    rfl
  have hreached : dom.Reached := Dom.Reached.empty.operations ⟨fun _ _ _ => hnew, trivial⟩
  have hreached' : dom'.Reached := by
    refine Dom.Reached.empty.operations ⟨fun _ _ _ h => ?_, fun _ _ _ => hnew,
      fun _ _ _ => hnew, trivial, ⟨?_, ?_⟩, trivial⟩
    · cases h
    · decide
    · decide
  have hscope : scope.NodeFree {} := Scope.nodeFree_string _ {}
  have hacyclic : Library.Acyclic { partials := notes } {} scope noted.children := by
    refine Library.acyclic_of_rank (fun _ => 0) fun r r' h => ?_
    obtain ⟨t, ht, hr'⟩ := h
    have hmem := Library.mem_entries_of_get? ht
    simp only [notes, List.mem_singleton, Prod.mk.injEq] at hmem
    obtain ⟨-, rfl⟩ := hmem
    exact absurd hr' List.not_mem_nil
  have hsimilar : (w.start (some ⟨0⟩)).Similar (w'.start (some ⟨2⟩)) :=
    .some ⟨"div", .xhtml, {}, ⟨[("id", "d")]⟩, by decide, by decide⟩
  obtain ⟨least, h⟩ := exists_render_repeats (σ := Unit) noted hscope hacyclic
  exact ⟨hreached, hreached', hscope, hacyclic, hsimilar, least,
    fun depth hdepth => h depth hdepth w w' _ _ rfl rfl hsimilar⟩

end LiveTemplate
