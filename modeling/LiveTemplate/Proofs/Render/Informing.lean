import LiveTemplate.Expr.Parser
import LiveTemplate.Proofs.Render.Sites

/-!
# LiveTemplate.Proofs.Render.Informing

What helpers are told of the hash they get.

1. Whatever calls a helper evaluates a list of hash pairs for it and tells it the types of
   these very pairs (`Informed`): it makes no difference what helpers do where that is not so
   (`Program.render_whenInformed`).
2. Of pairs with one key the last gives the value and the first the type, so the type is that
   of the value exactly if both pairs have the same type (`Informed.hashType?_iff`).
-/

namespace LiveTemplate

variable {σ : Type}

/-! ## calls of helpers -/

/-- The types of hash pairs, as helpers are told them. -/
def pairTypes (pairs : List (String × Param)) : List (String × ParamType) :=
  pairs.map fun (key, p) => (key, p.type)

/-- Evaluating hash pairs in a world gives this hash, and the invocation has their types. -/
structure InformedBy (hooks : Hooks σ) (scope : Scope) (pairs : List (String × Param))
    (w : World σ) (hash : Hash) (i : Invocation) : Prop where
  evaluates : ∃ w', evaluateHash hooks scope pairs w = some (hash, w')
  hashTypes : i.hashTypes = pairTypes pairs

variable (σ) in
/-- The types that a helper is told are those of the pairs whose values it gets. -/
def Informed (hash : Hash) (i : Invocation) : Prop :=
  ∃ (hooks : Hooks σ) (scope : Scope) (pairs : List (String × Param)) (w : World σ),
    InformedBy hooks scope pairs w hash i

/-- Of an invocation only the types of the hash matter. -/
theorem Informed.of_hashTypes {hash : Hash} {i i' : Invocation} (h : Informed σ hash i)
    (heq : i'.hashTypes = i.hashTypes) : Informed σ hash i' := by
  obtain ⟨hooks, scope, pairs, w, hevaluates, htypes⟩ := h
  exact ⟨hooks, scope, pairs, w, hevaluates, heq.trans htypes⟩

open Classical in
/-- A helper that does something else where it is not informed. -/
noncomputable def Helper.whenInformed (other : HelperFn σ) (self : Hooks σ) (h : Helper σ) :
    Helper σ :=
  .custom fun scope params hash i =>
    if Informed σ hash i then h.run self scope params hash i else other scope params hash i

/-- A table whose helpers do something else where they are not informed. -/
noncomputable def Hooks.whenInformed (other : HelperFn σ) (self : Hooks σ) : Hooks σ :=
  { self with
    lookupHelper := fun name scope => do
      let helper ← self.lookupHelper name scope
      return helper.map (·.whenInformed other self) }

theorem Helper.run_whenInformed {other : HelperFn σ} {self self' : Hooks σ} (h : Helper σ)
    (scope : Scope) (params : List Value) {hash : Hash} {i : Invocation}
    (hinformed : Informed σ hash i) :
    (h.whenInformed other self).run self' scope params hash i = h.run self scope params hash i :=
  if_pos hinformed

namespace Render

variable {α β : Type}

/-- A computation is the same if it goes on in the same way wherever its first part ends. -/
theorem bind_congr_of {x : Render σ α} {f g : α → Render σ β} {w : World σ}
    (h : ∀ a w', x w = some (a, w') → f a w' = g a w') : (x >>= f) w = (x >>= g) w := by
  rw [bind_apply, bind_apply]
  cases hx : x w with
  | none => rfl
  | some p => exact h p.1 p.2 hx

end Render

/-! ## tables that agree -/

/-- Tables that do the same at sites, as far as helpers are informed there. -/
structure Hooks.AgreeInformed (hooks hooks' : Hooks σ) : Prop where
  simple : hooks.simple = hooks'.simple
  attr : hooks.attr = hooks'.attr
  content : ∀ morph path scope params hash i, Informed σ hash i →
    hooks.content morph path scope params hash i = hooks'.content morph path scope params hash i
  element : ∀ node path scope params hash i, Informed σ hash i →
    hooks.element node path scope params hash i = hooks'.element node path scope params hash i
  subexpr : ∀ path scope params hash i, Informed σ hash i →
    hooks.subexpr path scope params hash i = hooks'.subexpr path scope params hash i
  component : ∀ morph tag scope pairs i, i.hashTypes = pairTypes pairs →
    hooks.component morph tag scope pairs i = hooks'.component morph tag scope pairs i

namespace Hooks.AgreeInformed

variable {hooks hooks' : Hooks σ}

mutual

theorem evaluateParam (h : hooks.AgreeInformed hooks') (scope : Scope) :
    (p : Param) → LiveTemplate.evaluateParam hooks scope p =
      LiveTemplate.evaluateParam hooks' scope p
  | .id path => by rw [LiveTemplate.evaluateParam, LiveTemplate.evaluateParam, h.simple]
  | .call c => by
    rw [LiveTemplate.evaluateParam, LiveTemplate.evaluateParam, h.evaluateCall scope c]
  | .string _ | .number _ | .boolean _ => rfl

theorem evaluateCall (h : hooks.AgreeInformed hooks') (scope : Scope) :
    (c : Call) → LiveTemplate.evaluateCall hooks scope c = LiveTemplate.evaluateCall hooks' scope c
  | ⟨_, some _, _, _⟩ => rfl
  | ⟨path, none, params, hash⟩ => by
    funext w
    rw [LiveTemplate.evaluateCall, LiveTemplate.evaluateCall, h.evaluateParams scope params,
      h.evaluatePairs scope hash]
    refine Render.bind_congr_of fun values w₁ _ => Render.bind_congr_of fun pairs w₂ hpairs => ?_
    have hhash : LiveTemplate.evaluateHash hooks' scope hash w₁ = some (.ofPairs pairs, w₂) :=
      Render.bind_of_eq hpairs
    have hinformed : Informed σ (.ofPairs pairs) (.ofCall ⟨path, none, params, hash⟩ scope) :=
      ⟨hooks', scope, hash, w₁, ⟨w₂, hhash⟩, rfl⟩
    rw [h.subexpr path scope values _ _ hinformed]

theorem evaluateParams (h : hooks.AgreeInformed hooks') (scope : Scope) :
    (ps : List Param) → LiveTemplate.evaluateParams hooks scope ps =
      LiveTemplate.evaluateParams hooks' scope ps
  | [] => rfl
  | p :: ps => by
    rw [LiveTemplate.evaluateParams, LiveTemplate.evaluateParams, h.evaluateParam scope p,
      h.evaluateParams scope ps]

theorem evaluatePairs (h : hooks.AgreeInformed hooks') (scope : Scope) :
    (pairs : List (String × Param)) → LiveTemplate.evaluatePairs hooks scope pairs =
      LiveTemplate.evaluatePairs hooks' scope pairs
  | [] => rfl
  | (key, p) :: pairs => by
    rw [LiveTemplate.evaluatePairs, LiveTemplate.evaluatePairs, h.evaluateParam scope p,
      h.evaluatePairs scope pairs]

end

theorem evaluateHash (h : hooks.AgreeInformed hooks') (scope : Scope)
    (pairs : List (String × Param)) :
    LiveTemplate.evaluateHash hooks scope pairs = LiveTemplate.evaluateHash hooks' scope pairs := by
  rw [LiveTemplate.evaluateHash, LiveTemplate.evaluateHash, h.evaluatePairs scope pairs]

theorem evaluateArguments (h : hooks.AgreeInformed hooks') (scope : Scope) (call : Call) :
    LiveTemplate.evaluateArguments hooks scope call =
      LiveTemplate.evaluateArguments hooks' scope call := by
  rw [LiveTemplate.evaluateArguments, LiveTemplate.evaluateArguments, h.evaluateParams scope,
    h.evaluateHash scope]

theorem evaluatePart (h : hooks.AgreeInformed hooks') (scope : Scope) (p : Param) :
    LiveTemplate.evaluatePart hooks scope p = LiveTemplate.evaluatePart hooks' scope p := by
  cases p with
  | call c => exact h.evaluateCall scope c
  | id | string | number | boolean => rfl

/-- The hash of evaluated arguments is that of the call, in the world behind the params. -/
theorem informed_of_evaluateArguments {scope : Scope} {call : Call} {values : List Value}
    {hash : Hash} {w w' : World σ} {i : Invocation}
    (h : LiveTemplate.evaluateArguments hooks scope call w = some ((values, hash), w'))
    (hi : i.hashTypes = pairTypes call.hash) : Informed σ hash i := by
  obtain ⟨_, w₁, -, h⟩ := Render.exists_of_bind_eq h
  obtain ⟨_, _, hhash, h⟩ := Render.exists_of_bind_eq h
  cases h
  exact ⟨hooks, scope, call.hash, w₁, ⟨_, hhash⟩, hi⟩

/-- Sites are rendered alike: the hash that they hand on is evaluated from the pairs whose types
they tell. -/
theorem renderSite (h : hooks.AgreeInformed hooks') (p : Program) (scope : Scope) (action : Action)
    (target : Target) :
    p.renderSite hooks scope action target = p.renderSite hooks' scope action target := by
  funext w
  cases action with
  | content call escaped =>
    rw [Program.renderSite, Program.renderSite, h.evaluateArguments scope call]
    refine Render.bind_congr_of fun morph w₁ _ => Render.bind_congr_of fun arguments w₂ heq => ?_
    obtain ⟨values, hash⟩ := arguments
    simp only
    rw [h.content _ _ _ _ _ _ (informed_of_evaluateArguments heq rfl)]
  | block call program inverse =>
    rw [Program.renderSite, Program.renderSite, h.evaluateArguments scope call]
    refine Render.bind_congr_of fun morph w₁ _ => Render.bind_congr_of fun arguments w₂ heq => ?_
    obtain ⟨values, hash⟩ := arguments
    simp only
    rw [h.content _ _ _ _ _ _ (informed_of_evaluateArguments heq rfl)]
  | component tag pairs program =>
    rw [Program.renderSite, Program.renderSite]
    refine Render.bind_congr_of fun morph w₁ _ => ?_
    rw [h.component _ _ _ _ _ rfl]
  | attr name quoted parts =>
    have hparts : LiveTemplate.evaluatePart hooks scope = LiveTemplate.evaluatePart hooks' scope :=
      funext (h.evaluatePart scope)
    rw [Program.renderSite, Program.renderSite, hparts, h.attr]
  | modifier call =>
    rw [Program.renderSite, Program.renderSite, h.evaluateArguments scope call]
    refine Render.bind_congr_of fun arguments w₁ heq => ?_
    obtain ⟨values, hash⟩ := arguments
    simp only
    rw [h.element _ _ _ _ _ _ (informed_of_evaluateArguments heq rfl)]

/-- Programs are rendered alike. -/
theorem render (h : hooks.AgreeInformed hooks') (p : Program) (scope : Scope)
    (context : Option NodeId) :
    p.render hooks scope context = p.render hooks' scope context := by
  have hsites : p.renderSite hooks scope = p.renderSite hooks' scope :=
    funext fun action => funext (h.renderSite p scope action)
  rw [Program.render, Program.render]
  unfold Program.renderSites
  rw [hsites]

end Hooks.AgreeInformed

/-! ## default hooks -/

namespace Hooks

variable {env : Environment σ} {self : Hooks σ} {other : HelperFn σ}

/-- What is done with a helper that is looked up, if it is the same where helpers are informed. -/
theorem bind_lookup_whenInformed {α : Type} {name : String} {scope : Scope}
    {f g : Option (Helper σ) → Render σ α}
    (h : ∀ found : Option (Helper σ), f (found.map (·.whenInformed other self)) = g found) :
    ((self.whenInformed other).lookupHelper name scope >>= f) =
      (self.lookupHelper name scope >>= g) := by
  rw [← funext h]
  exact bind_assoc (self.lookupHelper name scope) _ _

/-- But for its helpers a table is the one it is made from. -/
theorem agreeInformed_whenInformed (self : Hooks σ) (other : HelperFn σ) :
    (self.whenInformed other).AgreeInformed self where
  simple := rfl
  attr := rfl
  content _ _ _ _ _ _ _ := rfl
  element _ _ _ _ _ _ _ := rfl
  subexpr _ _ _ _ _ _ := rfl
  component _ _ _ _ _ _ := rfl

/-- What default hooks call helpers with is what they are called with, or a hash that they evaluate
themselves. -/
theorem agreeInformed_defaults (env : Environment σ) (self : Hooks σ) (other : HelperFn σ) :
    (defaults env (self.whenInformed other)).AgreeInformed (defaults env self) where
  simple := rfl
  attr := rfl
  content morph path scope params hash i hinformed := by
    refine bind_lookup_whenInformed fun found => ?_
    cases found with
    | none => rfl
    | some helper =>
      exact congrArg (· >>= Render.updateMorph morph)
        (helper.run_whenInformed scope params hinformed)
  element node path scope params hash i hinformed := by
    refine bind_lookup_whenInformed fun found => ?_
    cases found with
    | none => rfl
    | some helper =>
      exact congrArg (· >>= fun _ => pure ())
        (helper.run_whenInformed scope params (hinformed.of_hashTypes rfl))
  subexpr path scope params hash i hinformed := by
    refine bind_lookup_whenInformed fun found => ?_
    cases found with
    | none => rfl
    | some helper => exact helper.run_whenInformed scope params hinformed
  component morph tag scope pairs i htypes := by
    refine bind_lookup_whenInformed fun found => ?_
    cases found with
    | none => rfl
    | some helper =>
      funext w
      simp only [Option.map_some, (self.agreeInformed_whenInformed other).evaluateHash scope pairs]
      refine Render.bind_congr_of fun hash w₁ hhash => ?_
      have hinformed : Informed σ hash i := ⟨self, scope, pairs, w, ⟨w₁, hhash⟩, htypes⟩
      exact congrFun (congrArg (· >>= Render.updateMorph morph)
        (helper.run_whenInformed scope [] hinformed)) w₁

end Hooks

/-- It makes no difference to any program what helpers do where they are told other types than
those of the pairs whose values they get. -/
theorem Program.render_whenInformed (env : Environment σ) (self : Hooks σ) (other : HelperFn σ)
    (p : Program) (scope : Scope) (context : Option NodeId) :
    p.render (.defaults env (self.whenInformed other)) scope context =
      p.render (.defaults env self) scope context :=
  (Hooks.agreeInformed_defaults env self other).render p scope context

/-! ## pairs with one key -/

/-- Evaluating pairs keeps their keys. -/
theorem map_fst_of_evaluatePairs {hooks : Hooks σ} {scope : Scope} {pairs : List (String × Param)}
    {w w' : World σ} {values : List (String × Value)}
    (h : evaluatePairs hooks scope pairs w = some (values, w')) :
    values.map Prod.fst = pairs.map Prod.fst := by
  induction pairs generalizing w values with
  | nil =>
    cases h
    rfl
  | cons pair pairs ih =>
    obtain ⟨key, p⟩ := pair
    obtain ⟨value, w₁, -, h⟩ := Render.exists_of_bind_eq h
    obtain ⟨others, w₂, hothers, h⟩ := Render.exists_of_bind_eq h
    cases h
    rw [List.map_cons, List.map_cons, ih hothers]

/-- The value under a key is that of the last pair with the key, evaluated after the pairs in front
of it. -/
theorem exists_pair_of_evaluatePairs {hooks : Hooks σ} {scope : Scope}
    {pairs : List (String × Param)} {w w' : World σ} {values : List (String × Value)}
    (h : evaluatePairs hooks scope pairs w = some (values, w')) {k : String} {v : Value}
    (hv : (Dict.ofPairs values).get? k = some v) :
    ∃ before p after firsts w₁ w₂, pairs = before ++ (k, p) :: after ∧ k ∉ after.map Prod.fst ∧
      evaluatePairs hooks scope before w = some (firsts, w₁) ∧
      evaluateParam hooks scope p w₁ = some (v, w₂) := by
  induction pairs generalizing w values with
  | nil =>
    cases h
    cases hv
  | cons pair pairs ih =>
    obtain ⟨key, p⟩ := pair
    obtain ⟨value, w₁, hvalue, h⟩ := Render.exists_of_bind_eq h
    obtain ⟨others, w₂, hothers, h⟩ := Render.exists_of_bind_eq h
    cases h
    rw [Dict.get?_ofPairs_cons] at hv
    cases hget : (Dict.ofPairs others).get? k with
    | some v' =>
      obtain rfl : v' = v := by
        rw [hget] at hv
        exact Option.some.inj hv
      obtain ⟨before, q, after, firsts, w₃, w₄, rfl, hafter, hbefore, hq⟩ := ih hothers hget
      refine ⟨(key, p) :: before, q, after, (key, value) :: firsts, w₃, w₄, rfl, hafter, ?_, hq⟩
      exact (Render.bind_of_eq hvalue).trans (Render.bind_of_eq hbefore)
    | none =>
      rw [hget, Option.none_or] at hv
      split at hv
      · next hk =>
        cases hv
        subst hk
        refine ⟨[], p, pairs, [], w, w₁, rfl, fun hmem => ?_, rfl, hvalue⟩
        rw [← map_fst_of_evaluatePairs hothers] at hmem
        obtain ⟨other, hother, heq⟩ := List.mem_map.1 hmem
        rw [Dict.get?_ofPairs, List.lookup_eq_none_iff] at hget
        exact absurd (beq_iff_eq.2 heq.symm) (by simpa using hget other (by simpa using hother))
      · cases hv

/-- The type of a key is that of the first pair with it. -/
theorem lookup_pairTypes (k : String) (pairs : List (String × Param)) :
    (pairTypes pairs).lookup k = (pairs.lookup k).map Param.type := by
  induction pairs with
  | nil => rfl
  | cons pair pairs ih =>
    rw [pairTypes, List.map_cons, List.lookup_cons, List.lookup_cons]
    split
    · rfl
    · exact ih

/-- Where a pair with a key stands behind others, the type of the key is its own exactly if it is
that of the first of these with the key, if there is one. -/
theorem lookup_pairTypes_eq_iff (before : List (String × Param)) (k : String) (p : Param)
    (after : List (String × Param)) :
    (pairTypes (before ++ (k, p) :: after)).lookup k = some p.type ↔
      ∀ q ∈ before.lookup k, q.type = p.type := by
  rw [lookup_pairTypes, List.lookup_append, List.lookup_cons_self]
  cases before.lookup k with
  | none => simp
  | some q => simp

/-- Whatever calls a helper, the helper is told the types of the pairs whose values it gets.  The
value under a key is that of the last pair with it, and the type is that of this very pair exactly
if the first pair with the key has the same type. -/
theorem Program.hashType?_iff (env : Environment σ) (self : Hooks σ) (other : HelperFn σ)
    (p : Program) (scope : Scope) (context : Option NodeId) :
    p.render (.defaults env (self.whenInformed other)) scope context =
        p.render (.defaults env self) scope context ∧
      ∀ (hooks : Hooks σ) (scope : Scope) (pairs : List (String × Param)) (w : World σ)
        (hash : Hash) (i : Invocation), InformedBy hooks scope pairs w hash i →
        ∀ k v, hash.get? k = some v →
          ∃ before p after firsts w₁ w₂, pairs = before ++ (k, p) :: after ∧
            k ∉ after.map Prod.fst ∧
            evaluatePairs hooks scope before w = some (firsts, w₁) ∧
            evaluateParam hooks scope p w₁ = some (v, w₂) ∧
            (i.hashType? k = some p.type ↔ ∀ q ∈ before.lookup k, q.type = p.type) := by
  refine ⟨p.render_whenInformed env self other scope context, ?_⟩
  rintro hooks scope pairs w hash i ⟨⟨w', hevaluates⟩, htypes⟩ k v hv
  obtain ⟨values, w₁, hvalues, heq⟩ := Render.exists_of_bind_eq hevaluates
  cases heq
  obtain ⟨before, p, after, firsts, w₂, w₃, rfl, hafter, hbefore, hp⟩ :=
    exists_pair_of_evaluatePairs hvalues hv
  refine ⟨before, p, after, firsts, w₂, w₃, rfl, hafter, hbefore, hp, ?_⟩
  rw [Invocation.hashType?, htypes]
  exact lookup_pairTypes_eq_iff before k p after

/-- The call of a helper with one key twice. -/
def repeatedKey (p q : Param) : Call := { path := "t", hash := [("k", p), ("k", q)] }

/-- Of a string and then a boolean the helper gets the boolean, and is told that it is a string. -/
theorem Program.not_hashType?_last :
    Expression.ofContent "t k=\"s\" k=true" ⟨0, 0⟩ =
        .ok { call := repeatedKey (.string "s") (.boolean true) } ∧
      ∃ hash, evaluateHash (.defaults ({} : Environment Unit) .exhausted) {}
          (repeatedKey (.string "s") (.boolean true)).hash { notes := () } =
            some (hash, { notes := () }) ∧
        hash.get? "k" = some (.bool true) ∧
        (Invocation.ofCall (repeatedKey (.string "s") (.boolean true)) {}).hashType? "k" ≠
          some (Param.boolean true).type := by
  refine ⟨rfl, _, rfl, rfl, ?_⟩
  decide

/-- Of two strings the helper gets the second, and is told that it is a string. -/
theorem Program.hashType?_iff_strings :
    ∃ hash, InformedBy (.defaults ({} : Environment Unit) .exhausted) {}
        (repeatedKey (.string "s") (.string "t")).hash { notes := () } hash
        (.ofCall (repeatedKey (.string "s") (.string "t")) {}) ∧
      hash.get? "k" = some (.string "t") ∧
      ∃ before p after firsts w₁ w₂,
        [("k", Param.string "s"), ("k", .string "t")] = before ++ ("k", p) :: after ∧
        "k" ∉ after.map Prod.fst ∧
        evaluatePairs (.defaults ({} : Environment Unit) .exhausted) {} before { notes := () } =
          some (firsts, w₁) ∧
        evaluateParam (.defaults ({} : Environment Unit) .exhausted) {} p w₁ =
          some (.string "t", w₂) ∧
        ((Invocation.ofCall (repeatedKey (.string "s") (.string "t")) {}).hashType? "k" =
          some p.type ↔ ∀ q ∈ before.lookup "k", q.type = p.type) := by
  have hby : InformedBy (.defaults ({} : Environment Unit) .exhausted) {}
      (repeatedKey (.string "s") (.string "t")).hash { notes := () }
      (.ofPairs [("k", .string "s"), ("k", .string "t")])
      (.ofCall (repeatedKey (.string "s") (.string "t")) {}) :=
    ⟨⟨_, rfl⟩, rfl⟩
  exact ⟨_, hby, rfl, (Program.hashType?_iff {} .exhausted (fun _ _ _ _ => .exhausted)
    {} {} none).2 _ _ _ _ _ _ hby "k" _ rfl⟩

end LiveTemplate
