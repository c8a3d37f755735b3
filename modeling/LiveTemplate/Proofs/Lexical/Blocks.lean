import LiveTemplate.Proofs.Lexical.Levels
import LiveTemplate.Proofs.Library.Evaluating

/-!
# LiveTemplate.Proofs.Lexical.Blocks

What the morphs of a template show where helpers render what they enclose.

1. A helper renders the body of its call or the part behind `else`, with a context and with
   arguments of its own choice (`BlockHelper`).
2. Read off the template: a mustache shows what its path is resolved to in the levels around it,
   and a body adds a level to those around the block (`nodesValues`).
3. Params are evaluated to their values, and the world stays as it is (`Hooks.Evaluates`).
-/

namespace LiveTemplate

variable {σ : Type}

/-! ## helpers -/

/-- What a helper renders, and what it renders that with. -/
structure Supply where
  /-- Whether the part behind `else` is rendered, and not the body. -/
  inverse : Bool := false
  context : Value := .undefined
  arguments : List Value := []

/-- A helper that renders a part of what calls it.  Which part, and what with, may depend on the
scope, on the params and the hash of the call, and on the objects. -/
abbrev BlockHelper := Scope → List Value → Hash → Heap → Supply

/-- The function of the helper. -/
def BlockHelper.run (helper : BlockHelper) (hooks : Hooks σ) : HelperFn σ :=
  fun scope params hash invocation => do
    let supply ← Render.read fun w => helper scope params hash w.heap
    if supply.inverse then
      invocation.renderInverse hooks supply.context none supply.arguments
    else invocation.render hooks supply.context none supply.arguments

/-- The environment in which the helpers are registered, and nothing else. -/
def blockEnvironment (helpers : Dict BlockHelper) : Environment σ where
  helpers := ⟨helpers.entries.map fun entry => (entry.1, entry.2.run)⟩

/-- The names of the helpers, which have no value in arguments: there they enclose nothing. -/
def blockLibrary (helpers : Dict BlockHelper) : Library := { yields := helpers.keys }

/-! ## what is shown -/

/-- What a morph shows: a value, or a part of the template that has been rendered. -/
inductive Shown where
  | value (value : Value)
  | part

/-- The text of a value that is shown. -/
def Shown.text? : Shown → Option String
  | .value v => some v.text
  | .part => none

section Values

variable (helpers : Dict BlockHelper) (heap : Heap)

/-- The values of the pairs of a hash. -/
def pairValues (levels : List Level) (pairs : List (String × Param)) : Hash :=
  .ofPairs (pairs.map fun pair =>
    (pair.1, (blockLibrary helpers).paramValue (scopeOf levels) heap pair.2))

/-- What a helper renders for a call with these params and pairs. -/
def supplied (helper : BlockHelper) (levels : List Level) (params : List Param)
    (pairs : List (String × Param)) : Supply :=
  helper (scopeOf levels) ((blockLibrary helpers).paramValues (scopeOf levels) heap params)
    (pairValues helpers heap levels pairs) heap

/-- What a mustache shows: what its path is resolved to, unless that is the name of a helper, and
unless it is a literal, which stands for its text. -/
def mustacheValue (levels : List Level) (call : Call) : Value :=
  match (blockLibrary helpers).callee call.path with
  | .path => if call.literal.isSome then .string call.path else resolve heap levels call.path
  | .passThrough | .builtin _ =>
    (blockLibrary helpers).calledValue (scopeOf levels) heap call.path
      ((blockLibrary helpers).paramValues (scopeOf levels) heap call.params)

mutual

/-- What the morphs of a node show inside of levels, in the order of their sites. -/
def nodeValues (levels : List Level) : Node → List Shown
  | .text .. | .comment .. => []
  | .insertion i => [.value (mustacheValue helpers heap levels i.call)]
  | .element _ children _ => nodesValues levels children
  | .block call body inverse _ =>
    match helpers.get? call.path with
    | some helper =>
      let supply := supplied helpers heap helper levels call.params call.hash
      if supply.inverse then
        inverseValues (⟨[], supply.arguments, supply.context⟩ :: levels) inverse
      else .part :: bodyValues (⟨body.blockParams, supply.arguments, supply.context⟩ :: levels) body
    | none => [.value (mustacheValue helpers heap levels call)]
  | .component tag body _ =>
    match helpers.get? tag.name with
    | some helper =>
      let supply := supplied helpers heap helper levels [] tag.pairs
      if supply.inverse then [.value .undefined]
      else .part :: bodyValues (⟨[], supply.arguments, supply.context⟩ :: levels) body
    | none =>
      if (Builtin.ofName? tag.name).isSome then
        [.value (mustacheValue helpers heap levels { path := tag.name })]
      else .part :: bodyValues levels body

/-- What the part behind `else` shows, where it is to be rendered. -/
def inverseValues (levels : List Level) : Option (Body Node) → List Shown
  | some inverse => .part :: bodyValues levels inverse
  | none => [.value .undefined]

/-- What the morphs of a body show. -/
def bodyValues (levels : List Level) : Body Node → List Shown
  | ⟨children, _, _⟩ => nodesValues levels children

/-- What the morphs of nodes show. -/
def nodesValues (levels : List Level) : List Node → List Shown
  | [] => []
  | node :: nodes => nodeValues levels node ++ nodesValues levels nodes

end

/-- What the morphs of a node itself show, and not those of the nodes in it. -/
def Node.ownValues (levels : List Level) : Node → List Shown
  | .element .. => []
  | node => nodeValues helpers heap levels node

theorem nodeValues_eq (levels : List Level) (node : Node) :
    nodeValues helpers heap levels node =
      node.ownValues helpers heap levels ++ nodesValues helpers heap levels node.children := by
  cases node with
  | element tag children span => rw [nodeValues]; rfl
  | _ => exact (List.append_nil _).symm

/-- The morphs of nodes show what those of the nodes where they occur do. -/
theorem nodesValues_eq_flatMap (levels : List Level) (nodes : List Node) (parent : List Nat)
    (around : Option Namespace) (index number base : Nat) :
    nodesValues helpers heap levels nodes =
      (occurrencesOf parent around index number base nodes).flatMap fun o =>
        o.node.ownValues helpers heap levels := by
  induction nodes using nodes_induction generalizing parent around index number base with
  | nil => rfl
  | cons node nodes ihchildren ihnodes =>
    rw [nodesValues, nodeValues_eq, occurrencesOf_cons, List.flatMap_cons, List.flatMap_append,
      ← ihchildren, ← ihnodes, List.append_assoc]

end Values

/-! ## evaluation -/

section Lookups

variable (helpers : Dict BlockHelper) (self : Hooks σ) (name : String)

/-- The registered helpers come before the builtin ones. -/
theorem defaultLookup_blockEnvironment :
    Hooks.defaultLookup (blockEnvironment helpers) self name =
      ((helpers.get? name).map fun helper => .custom (helper.run self)).or
        ((Builtin.ofName? name).map .builtin) := by
  rw [Hooks.defaultLookup, blockEnvironment, helpers.get?_map]
  cases helpers.get? name <;> rfl

theorem callee_blockLibrary :
    (blockLibrary helpers).callee name =
      if (helpers.get? name).isSome then .passThrough
      else (Builtin.ofName? name).elim .path .builtin := by
  rw [Library.callee, blockLibrary]
  by_cases hname : name ∈ helpers.keys
  · rw [if_pos hname, if_pos (Dict.mem_keys_iff.1 hname)]
  · rw [if_neg hname, if_neg fun h => hname (Dict.mem_keys_iff.2 h)]
    cases Builtin.ofName? name <;> rfl

end Lookups

/-- Hooks that look paths up, and evaluate calls in parentheses to their values, in all worlds. -/
structure Hooks.Evaluates (lib : Library) (hooks : Hooks σ) : Prop where
  simple : ∀ scope path w, hooks.simple scope path w = some (scope.lookup w.heap path, w)
  subexpr : ∀ path scope params hash (call : Call) w,
    hooks.subexpr path scope params hash (.ofCall call scope) w =
      some (lib.calledValue scope w.heap path params, w)

namespace Hooks.Evaluates

variable {lib : Library} {hooks : Hooks σ}

mutual

/-- Params are evaluated to their values. -/
theorem evaluateParam_eq (h : hooks.Evaluates lib) (scope : Scope) (w : World σ) : (p : Param) →
    evaluateParam hooks scope p w = some (lib.paramValue scope w.heap p, w)
  | .id path => h.simple scope path w
  | .call c => evaluateCall_eq h scope w c
  | .string _ => rfl
  | .number _ => rfl
  | .boolean _ => rfl

theorem evaluateCall_eq (h : hooks.Evaluates lib) (scope : Scope) (w : World σ) : (c : Call) →
    evaluateCall hooks scope c w = some (lib.callValue scope w.heap c, w)
  | ⟨path, some literal, params, hash⟩ => rfl
  | ⟨path, none, params, hash⟩ => by
    rw [evaluateCall]
    refine (Render.bind_of_eq (evaluateParams_eq h scope w params)).trans ?_
    refine (Render.bind_of_eq (evaluatePairs_eq h scope w hash)).trans ?_
    exact h.subexpr path scope _ _ ⟨path, none, params, hash⟩ w

theorem evaluateParams_eq (h : hooks.Evaluates lib) (scope : Scope) (w : World σ) :
    (ps : List Param) →
      evaluateParams hooks scope ps w = some (lib.paramValues scope w.heap ps, w)
  | [] => rfl
  | p :: ps => by
    rw [evaluateParams]
    refine (Render.bind_of_eq (evaluateParam_eq h scope w p)).trans ?_
    exact (Render.bind_of_eq (evaluateParams_eq h scope w ps)).trans rfl

theorem evaluatePairs_eq (h : hooks.Evaluates lib) (scope : Scope) (w : World σ) :
    (pairs : List (String × Param)) → evaluatePairs hooks scope pairs w =
      some (pairs.map fun pair => (pair.1, lib.paramValue scope w.heap pair.2), w)
  | [] => rfl
  | (key, p) :: pairs => by
    rw [evaluatePairs]
    refine (Render.bind_of_eq (evaluateParam_eq h scope w p)).trans ?_
    exact (Render.bind_of_eq (evaluatePairs_eq h scope w pairs)).trans rfl

end

section

variable (h : hooks.Evaluates lib) (scope : Scope) (w : World σ)
include h

theorem evaluateHash_eq (pairs : List (String × Param)) :
    evaluateHash hooks scope pairs w = some
      (.ofPairs (pairs.map fun pair => (pair.1, lib.paramValue scope w.heap pair.2)), w) :=
  (Render.bind_of_eq (h.evaluatePairs_eq scope w pairs)).trans rfl

/-- The arguments of a call are evaluated. -/
theorem evaluateArguments_eq (call : Call) :
    evaluateArguments hooks scope call w = some
      ((lib.paramValues scope w.heap call.params,
        .ofPairs (call.hash.map fun pair => (pair.1, lib.paramValue scope w.heap pair.2))), w) :=
  (Render.bind_of_eq (h.evaluateParams_eq scope w call.params)).trans
    ((Render.bind_of_eq (h.evaluateHash_eq scope w call.hash)).trans rfl)

/-- The parts of an attribute are evaluated. -/
theorem exists_evaluateParts (parts : List Param) :
    ∃ values, parts.mapM (evaluatePart hooks scope) w = some (values, w) := by
  have hpart : ∀ p, ∃ value, evaluatePart hooks scope p w = some (value, w) := by
    intro p
    cases p with
    | call c => exact ⟨_, h.evaluateCall_eq scope w c⟩
    | _ => exact ⟨_, rfl⟩
  induction parts with
  | nil => exact ⟨[], rfl⟩
  | cons p parts ih =>
    obtain ⟨value, hvalue⟩ := hpart p
    obtain ⟨values, hvalues⟩ := ih
    refine ⟨value :: values, ?_⟩
    rw [List.mapM_cons]
    refine (Render.bind_of_eq hvalue).trans ?_
    exact (Render.bind_of_eq hvalues).trans rfl

end

end Hooks.Evaluates

/-! ## hooks of the helpers -/

section Called

variable {helpers : Dict BlockHelper} {path : String} {w : World σ} (depth : Nat) (scope : Scope)
  (params : List Value) (hash : Hash) (invocation : Invocation) (otherwise : Render σ Value)

/-- A registered helper is called. -/
theorem called_of_get? {helper : BlockHelper} (h : helpers.get? path = some helper) :
    Library.called ((blockEnvironment helpers).hooks (depth + 1)) path scope params hash invocation
        otherwise w =
      helper.run ((blockEnvironment helpers).hooks depth) scope params hash invocation w := by
  refine (Render.bind_of_eq (show _ = some (Hooks.defaultLookup (blockEnvironment helpers)
    ((blockEnvironment helpers).hooks depth) path, w) from rfl)).trans ?_
  rw [defaultLookup_blockEnvironment, h]
  rfl

/-- Without a registered helper a builtin one is called, if there is one. -/
theorem called_of_get?_eq_none (h : helpers.get? path = none) :
    Library.called ((blockEnvironment helpers).hooks (depth + 1)) path scope params hash invocation
        otherwise w =
      (Builtin.ofName? path).elim (otherwise w) fun b =>
        b.run ((blockEnvironment helpers).hooks (depth + 1)) scope params hash invocation w := by
  refine (Render.bind_of_eq (show _ = some (Hooks.defaultLookup (blockEnvironment helpers)
    ((blockEnvironment helpers).hooks depth) path, w) from rfl)).trans ?_
  rw [defaultLookup_blockEnvironment, h]
  cases Builtin.ofName? path <;> rfl

/-- A path calls nothing. -/
theorem called_of_path (h : (blockLibrary helpers).callee path = .path) :
    Library.called ((blockEnvironment helpers).hooks (depth + 1)) path scope params hash invocation
        otherwise w = otherwise w := by
  rw [callee_blockLibrary] at h
  cases hhelper : helpers.get? path with
  | some helper => simp [hhelper] at h
  | none =>
    cases hb : Builtin.ofName? path with
    | some b => simp [hhelper, hb] at h
    | none => rw [called_of_get?_eq_none depth _ _ _ _ _ hhelper, hb, Option.elim_none]

variable {invocation}

/-- On no element a builtin helper has the value of its call. -/
theorem run_builtin_of_not_element {b : Builtin}
    (h : (blockLibrary helpers).callee path = .builtin b) (helement : invocation.element = none) :
    b.run ((blockEnvironment helpers).hooks (depth + 1)) scope params hash invocation w =
      some ((blockLibrary helpers).calledValue scope w.heap path params, w) := by
  rw [Library.calledValue, h]
  cases b with
  | setAttribute =>
    simp only [Builtin.run, helement]
    rfl
  | renderPartial => rfl
  | concat => rfl

/-- A registered helper renders nothing where it encloses nothing. -/
theorem run_of_empty (helper : BlockHelper) (hooks : Hooks σ) (hbody : invocation.body = none)
    (hinverse : invocation.inverse = none) :
    helper.run hooks scope params hash invocation w = some (.undefined, w) := by
  refine (Render.bind_of_eq (show Render.read _ w = some (helper scope params hash w.heap, w)
    from rfl)).trans ?_
  simp only [Invocation.renderInverse, Invocation.render, Invocation.renderBody, hbody, hinverse,
    ite_self]
  rfl

/-- What is called on no element has its value, unless it is a helper that encloses something. -/
theorem called_of_empty (h : (blockLibrary helpers).callee path ≠ .path)
    (hempty : helpers.get? path = none ∨ invocation.body = none ∧ invocation.inverse = none)
    (helement : invocation.element = none) :
    Library.called ((blockEnvironment helpers).hooks (depth + 1)) path scope params hash invocation
        otherwise w =
      some ((blockLibrary helpers).calledValue scope w.heap path params, w) := by
  have hcallee := callee_blockLibrary helpers path
  cases hhelper : helpers.get? path with
  | some helper =>
    rw [hhelper] at hcallee hempty
    obtain ⟨hbody, hinverse⟩ := hempty.resolve_left (Option.some_ne_none _)
    rw [called_of_get? depth _ _ _ _ _ hhelper, Library.calledValue, hcallee]
    exact run_of_empty scope params hash helper _ hbody hinverse
  | none =>
    rw [hhelper, Option.isSome_none, if_neg Bool.false_ne_true] at hcallee
    rw [called_of_get?_eq_none depth _ _ _ _ _ hhelper]
    cases hb : Builtin.ofName? path with
    | none => exact absurd (by rw [hcallee, hb]; rfl) h
    | some b =>
      exact run_builtin_of_not_element depth scope params hash (by rw [hcallee, hb]; rfl) helement

/-- The hooks evaluate params to their values. -/
theorem evaluates_hooks (helpers : Dict BlockHelper) (depth : Nat) :
    ((blockEnvironment helpers : Environment σ).hooks (depth + 2)).Evaluates
      (blockLibrary helpers) where
  simple _ _ _ := rfl
  subexpr path scope params hash call w := by
    show Library.called ((blockEnvironment helpers).hooks (depth + 1)) path scope params hash _
      (((blockEnvironment helpers).hooks (depth + 1)).simple scope path) w = _
    by_cases h : (blockLibrary helpers).callee path = .path
    · rw [called_of_path depth scope params hash _ _ h, Library.calledValue, h]
      rfl
    · exact called_of_empty depth scope params hash _ h (.inr ⟨rfl, rfl⟩) rfl

end Called

end LiveTemplate
