import Mathlib.Logic.Relation
import LiveTemplate.Proofs.Program.Occurrence
import LiveTemplate.Proofs.Render.Sites

/-!
# LiveTemplate.Proofs.Program.Linking

Compiled programs fit together.

A site refers to the programs of its bodies by number, and the numbers of all sites of a
program count its children (`programs_compileBody`).  The instructions close every element
they open (`Balanced`), and the features are those that the sites use, so that leaving out
the sites of a program without features makes no difference to a render
(`render_eq_renderHydrated`).  All of this holds of the programs nested in a compiled body as
well, since these are the compiled bodies of its blocks and components (`IsLinked`).
-/

namespace LiveTemplate

/-! ## references -/

/-- The numbers of the programs that an action refers to. -/
def Action.programs : Action → List Nat
  | block _ program inverse => program :: inverse.toList
  | component _ _ program => [program]
  | content .. | attr .. | modifier _ => []

/-- A node has bodies of its own or children, never both. -/
theorem enclosed_or_children (node : Node) : node.enclosed = [] ∨ node.children = [] := by
  cases node <;> simp [Node.enclosed, Node.children]

/-- The bodies of a node are its own and those of its children. -/
theorem bodies_eq (node : Node) :
    node.bodies = node.enclosed.length + bodiesOf node.children := by
  cases node with
  | block call body inverse span => cases inverse <;> rfl
  | element tag children span => exact (Nat.zero_add _).symm
  | _ => rfl

/-- A node refers to the programs of its own bodies. -/
theorem programs_actions (base : Nat) (node : Node) :
    (node.actions base).flatMap Action.programs = List.range' base node.enclosed.length := by
  cases node with
  | element tag children span =>
    refine List.flatMap_eq_nil_iff.2 fun action haction => ?_
    rcases ElementTag.cases_of_mem_actions haction with ⟨_, rfl⟩ | ⟨_, _, _, rfl⟩ <;> rfl
  | block call body inverse span => cases inverse <;> rfl
  | _ => rfl

/-- The numbers that the sites of nodes refer to count on from the number of bodies before them. -/
theorem programs_occurrencesOf (nodes : List Node) (parent : List Nat) (around : Option Namespace)
    (index number base : Nat) :
    (occurrencesOf parent around index number base nodes).flatMap
        (fun o => (o.node.actions o.base).flatMap Action.programs) =
      List.range' base (bodiesOf nodes) := by
  induction nodes using nodes_induction generalizing parent around index number base with
  | nil => rfl
  | cons node nodes ihchildren ihnodes =>
    rw [occurrencesOf_cons, List.flatMap_cons, List.flatMap_append, ihchildren, ihnodes,
      programs_actions, bodiesOf]
    rcases enclosed_or_children node with hnone | hnone
    · rw [bodies_eq, hnone, List.length_nil, List.range'_zero, List.nil_append, Nat.zero_add,
        List.range'_append_1]
    · rw [bodies_eq, hnone, bodiesOf, List.range'_zero, List.nil_append, Nat.add_zero,
        List.range'_append_1]

/-- The sites of a compiled body refer to its children one after the other. -/
theorem programs_compileBody (body : Body Node) :
    (compileBody body).sites.flatMap (fun s => s.action.programs) =
      List.range (compileBody body).children.length := by
  have hsites : ∀ o : Occurrence, o.sites.flatMap (fun s => s.action.programs) =
      (o.node.actions o.base).flatMap Action.programs := fun o => by
    rw [Occurrence.sites, List.flatMap_map]
  rw [sites_compileBody, List.flatMap_assoc, List.range_eq_range']
  simp only [hsites]
  obtain ⟨children, blockParams, span⟩ := body
  rw [compileBody, length_children_compileNodes]
  exact programs_occurrencesOf children [] none 0 0 0

/-- The children of compiled nodes are the programs of the bodies of all nodes. -/
theorem children_compileNodes (nodes : List Node) (parent : List Nat) (around : Option Namespace)
    (index number base : Nat) :
    (compileNodes parent around index base nodes).children =
      (occurrencesOf parent around index number base nodes).flatMap
        (fun o => o.node.enclosed.map compileBody) := by
  induction nodes using nodes_induction generalizing parent around index number base with
  | nil => rfl
  | cons node nodes ihchildren ihnodes =>
    rw [compileNodes, Program.children_append, length_children_compile, occurrencesOf_cons,
      List.flatMap_cons, List.flatMap_append, ← ihchildren, ← ihnodes, ← List.append_assoc]
    congr 1
    cases node with
    | element tag children span => exact children_compile_element ..
    | _ => exact (children_compile_of_not_element _ rfl ..).trans (List.append_nil _).symm

/-- The programs that a compiled body refers to are those of the bodies of its nodes. -/
theorem mem_children_compileBody {body : Body Node} {q : Program} :
    q ∈ (compileBody body).children ↔
      ∃ o ∈ body.occurrences, ∃ inside ∈ o.node.enclosed, q = compileBody inside := by
  obtain ⟨children, blockParams, span⟩ := body
  rw [compileBody, children_compileNodes children [] none 0 0 0]
  simp only [List.mem_flatMap, List.mem_map, Body.occurrences, eq_comm]

/-! ## instructions -/

/-- Instructions that close every element they open, and no other.  The attributes of an element
are set as soon as it is opened. -/
inductive Balanced : List Instruction → Prop where
  | nil : Balanced []
  | text {rest : List Instruction} (s : String) (hrest : Balanced rest) :
    Balanced (.text s :: rest)
  | comment {rest : List Instruction} (s : String) (hrest : Balanced rest) :
    Balanced (.comment s :: rest)
  | placeholder {rest : List Instruction} (hrest : Balanced rest) :
    Balanced (.placeholder :: rest)
  | element {inside rest : List Instruction} (tag : String) (ns : Option Namespace)
    (attributes : List (String × String)) (hinside : Balanced inside) (hrest : Balanced rest) :
    Balanced (.openElement tag ns ::
      (attributes.map (fun (name, value) => .setAttribute name value) ++ inside ++
        .closeElement :: rest))

/-- The instructions of nodes are balanced, if those that follow are. -/
theorem balanced_compileNodes (nodes : List Node) (parent : List Nat) (around : Option Namespace)
    (index base : Nat) {rest : List Instruction} (hrest : Balanced rest) :
    Balanced ((compileNodes parent around index base nodes).build ++ rest) := by
  induction nodes using nodes_induction generalizing parent around index base rest with
  | nil => exact hrest
  | cons node nodes ihchildren ihnodes =>
    rw [compileNodes, Program.build_append, List.append_assoc]
    have hbehind := ihnodes parent around (index + 1)
      (base + (node.compile (parent ++ [index]) around base).children.length) hrest
    generalize (compileNodes parent around (index + 1) _ nodes).build ++ rest = behind at hbehind ⊢
    cases node with
    | text s span => exact .text s hbehind
    | comment s span => exact .comment s hbehind
    | insertion i =>
      rw [Node.compile, build_insertion]
      exact .placeholder hbehind
    | element tag children span =>
      have hinside := ihchildren (parent ++ [index])
        (knownNamespaceBelow tag.name (knownNamespace tag.name around)) 0 base .nil
      have hattributes : tag.attributes.filterMap Attribute.instruction? =
          (tag.attributes.filterMap Attribute.static?).map
            fun (name, value) => .setAttribute name value := by
        rw [List.map_filterMap, funext Attribute.instruction?_eq]
      have helement := Balanced.element tag.name (knownNamespace tag.name around)
        (tag.attributes.filterMap Attribute.static?) hinside hbehind
      rw [Node.compile, Program.build_append, Program.build_append, ElementTag.compile,
        Program.build_append, (Program.sitesAt_parts ..).1, List.append_nil, hattributes]
      simpa [Program.instruction, Node.children] using helement
    | block call body inverse span => exact .placeholder hbehind
    | component tag body span => exact .placeholder hbehind

theorem balanced_compileBody (body : Body Node) : Balanced (compileBody body).build := by
  obtain ⟨children, blockParams, span⟩ := body
  have h := balanced_compileNodes children [] none 0 0 .nil
  rwa [List.append_nil] at h

/-! ## renders -/

section Render

variable {σ : Type}

/-- Renders a program and looks for its sites whatever its features are. -/
def Program.renderHydrated (p : Program) (hooks : Hooks σ) (scope : Scope)
    (context : Option NodeId) : Render σ Rendered := do
  let fragment ← Render.runDom fun dom => dom.plantFragment (p.forest (dom.nsBelow context))
  let targets ← Render.read fun w => p.sites.map fun s =>
    (s.action, s.target w.dom fragment context)
  let morphs ← targets.mapM fun (action, target) => p.renderSite hooks scope action target
  let root ← Render.runDom fun dom => dom.unwrap fragment
  return { root, morphs := morphs.filterMap id }

/-- Nothing is left out where a program without features has no sites. -/
theorem Program.render_eq_renderHydrated {p : Program} (h : p.isStatic = true → p.sites = [])
    (hooks : Hooks σ) (scope : Scope) (context : Option NodeId) :
    p.render hooks scope context = p.renderHydrated hooks scope context := by
  rw [render, renderHydrated]
  refine bind_congr fun fragment => ?_
  rw [renderSites]
  by_cases hstatic : p.isStatic
  · rw [if_pos hstatic, h hstatic]
    rfl
  · rw [if_neg hstatic]
    simp only [bind_assoc, pure_bind]

end Render

/-! ## nested programs -/

/-- A program and those nested in it, at any depth. -/
def Program.Nests : Program → Program → Prop :=
  Relation.ReflTransGen fun p q => q ∈ p.children

/-- A body and those of the blocks and components in it, at any depth. -/
def Body.Nests : Body Node → Body Node → Prop :=
  Relation.ReflTransGen fun body inside => ∃ o ∈ body.occurrences, inside ∈ o.node.enclosed

/-- What happens at a site needs the feature of its kind, and that for partials where content comes
from the path of the helper for them. -/
inductive Action.Needs : Action → Feature → Prop where
  | content (call : Call) (escaped : Bool) : Needs (.content call escaped) .content
  | block (call : Call) (program : Nat) (inverse : Option Nat) :
    Needs (.block call program inverse) .block
  | component (tag : String) (hash : List (String × Param)) (program : Nat) :
    Needs (.component tag hash program) .component
  | attr (name : String) (quoted : Bool) (parts : List Param) :
    Needs (.attr name quoted parts) .attr
  | modifier (call : Call) : Needs (.modifier call) .modifier
  | partials {call : Call} (escaped : Bool) (hpath : call.path = "partial")
    (hliteral : call.literal = none) : Needs (.content call escaped) .partials

/-- A call shows a partial if it calls the path of the helper for partials. -/
theorem Call.isPartial_iff (call : Call) :
    call.isPartial = true ↔ call.path = "partial" ∧ call.literal = none := by
  rw [isPartial, Bool.and_eq_true, beq_iff_eq, Option.isNone_iff_eq_none]
  rfl

/-- What an action makes use of is what it needs. -/
theorem Action.uses_iff {action : Action} {f : Feature} : action.uses f = true ↔ action.Needs f := by
  rw [uses, Bool.or_eq_true, beq_iff_eq, Bool.and_eq_true, beq_iff_eq]
  constructor
  · rintro (rfl | ⟨rfl, hpartial⟩)
    · cases action <;> constructor
    · cases action with
      | content call escaped =>
        obtain ⟨hpath, hliteral⟩ := call.isPartial_iff.1 hpartial
        exact .partials escaped hpath hliteral
      | block | component | attr | modifier => cases hpartial
  · intro h
    cases h with
    | partials escaped hpath hliteral => exact .inr ⟨rfl, (Call.isPartial_iff _).2 ⟨hpath, hliteral⟩⟩
    | _ => exact .inl rfl

/-- A program fits together, and is what a body says. -/
structure Program.IsLinked (p : Program) (body : Body Node) : Prop where
  /-- The site of a block refers to the programs of its body and of its inverse. -/
  block : ∀ path call program inverse, ⟨path, .block call program inverse⟩ ∈ p.sites →
    ∃ inside otherwise span,
      nodeAt? body.children path = some (.block call inside otherwise span) ∧
      p.children[program]? = some (compileBody inside) ∧
      Option.Rel (fun k b => p.children[k]? = some (compileBody b)) inverse otherwise
  /-- The site of a component refers to the program of its body. -/
  component : ∀ path tag hash program, ⟨path, .component tag hash program⟩ ∈ p.sites →
    ∃ component inside span,
      nodeAt? body.children path = some (.component component inside span) ∧
      component.name = tag ∧ p.children[program]? = some (compileBody inside)
  /-- Every child is referred to once. -/
  programs : p.sites.flatMap (fun s => s.action.programs) = List.range p.children.length
  blockParams : p.blockParams = body.blockParams
  balanced : Balanced p.build
  /-- A feature is there exactly if a site needs it. -/
  features : ∀ f, p.features.has f = true ↔ ∃ s ∈ p.sites, s.action.Needs f
  /-- A mustache that shows a partial calls a path for it. -/
  partials : p.features.has .partials = true ↔
    ∃ path i, nodeAt? body.children path = some (.insertion i) ∧ i.call.path = "partial" ∧
      i.call.literal = none
  static : p.isStatic = true ↔ p.sites = []
  render : ∀ {σ : Type} (hooks : Hooks σ) (scope : Scope) (context : Option NodeId),
    p.render hooks scope context = p.renderHydrated hooks scope context

/-- A site comes from the node that its path leads to, and the programs of the bodies of this node
follow each other. -/
theorem exists_of_mem_sites {body : Body Node} {path : List Nat} {action : Action}
    (h : ⟨path, action⟩ ∈ (compileBody body).sites) :
    ∃ node base, nodeAt? body.children path = some node ∧ action ∈ node.actions base ∧
      ∀ (k : Nat) (inside : Body Node), node.enclosed[k]? = some inside →
        (compileBody body).children[base + k]? = some (compileBody inside) := by
  rw [sites_compileBody, List.mem_flatMap] at h
  obtain ⟨o, ho, hsite⟩ := h
  obtain ⟨action', haction, heq⟩ := List.mem_map.1 hsite
  cases heq
  exact ⟨o.node, o.base, nodeAt?_iff.2 ⟨o, ho, rfl, rfl⟩, haction,
    fun _ _ => getElem?_children_compileBody ho⟩

theorem isLinked_compileBody (body : Body Node) : (compileBody body).IsLinked body where
  block path call program inverse h := by
    obtain ⟨node, base, hat, haction, hchild⟩ := exists_of_mem_sites h
    rcases cases_of_mem_actions haction with ⟨_, -, heq⟩ | ⟨_, inside, otherwise, span, rfl, heq⟩ |
      ⟨_, _, _, -, heq⟩ | ⟨_, _, _, -, ⟨_, heq⟩ | ⟨_, _, _, heq⟩⟩ <;> cases heq
    refine ⟨inside, otherwise, span, hat, hchild 0 inside rfl, ?_⟩
    cases otherwise with
    | none => exact .none
    | some otherwise => exact .some (hchild 1 otherwise rfl)
  component path tag hash program h := by
    obtain ⟨node, base, hat, haction, hchild⟩ := exists_of_mem_sites h
    rcases cases_of_mem_actions haction with ⟨_, -, heq⟩ | ⟨_, _, _, _, -, heq⟩ |
      ⟨component, inside, span, rfl, heq⟩ | ⟨_, _, _, -, ⟨_, heq⟩ | ⟨_, _, _, heq⟩⟩ <;> cases heq
    exact ⟨component, inside, span, hat, rfl, hchild 0 inside rfl⟩
  programs := programs_compileBody body
  blockParams := by cases body; rfl
  balanced := balanced_compileBody body
  features f := by
    rw [exact_compileBody body f, List.any_eq_true]
    exact exists_congr fun s => and_congr_right fun _ => Action.uses_iff
  partials := by
    rw [exact_compileBody body .partials, List.any_eq_true]
    constructor
    · rintro ⟨⟨path, action⟩, hsite, huses⟩
      obtain ⟨node, base, hat, haction, -⟩ := exists_of_mem_sites hsite
      rcases cases_of_mem_actions haction with ⟨i, rfl, rfl⟩ | ⟨_, _, _, _, -, rfl⟩ |
        ⟨_, _, _, -, rfl⟩ | ⟨_, _, _, -, ⟨_, rfl⟩ | ⟨_, _, _, rfl⟩⟩
      · exact ⟨path, i, hat, i.call.isPartial_iff.1 huses⟩
      all_goals cases huses
    · rintro ⟨path, i, hat, hpartial⟩
      obtain ⟨o, ho, rfl, hnode⟩ := nodeAt?_iff.1 hat
      refine ⟨⟨o.path, .content i.call i.escaped⟩, ?_, i.call.isPartial_iff.2 hpartial⟩
      rw [sites_compileBody]
      refine List.mem_flatMap.2 ⟨o, ho, List.mem_map.2 ⟨_, ?_, rfl⟩⟩
      rw [hnode]
      exact List.mem_singleton_self _
  static := (exact_compileBody body).isStatic_iff
  render := Program.render_eq_renderHydrated sites_of_isStatic

/-- The programs nested in a compiled body are the compiled bodies of its blocks and components, at
any depth, and each of them fits together. -/
theorem nests_compileBody_iff (body : Body Node) (q : Program) :
    (compileBody body).Nests q ↔
      ∃ inside, body.Nests inside ∧ q = compileBody inside ∧ q.IsLinked inside := by
  constructor
  · intro h
    induction h with
    | refl => exact ⟨body, .refl, rfl, isLinked_compileBody body⟩
    | tail _ hchild ih =>
      obtain ⟨inside, hinside, rfl, -⟩ := ih
      obtain ⟨o, ho, b, hb, rfl⟩ := mem_children_compileBody.1 hchild
      exact ⟨b, hinside.tail ⟨o, ho, hb⟩, rfl, isLinked_compileBody b⟩
  · rintro ⟨inside, h, rfl, -⟩
    induction h with
    | refl => exact .refl
    | tail _ hchild ih =>
      obtain ⟨o, ho, hb⟩ := hchild
      exact ih.tail (mem_children_compileBody.2 ⟨o, ho, _, hb, rfl⟩)

end LiveTemplate
