import LiveTemplate.Value.Scope

/-!
# LiveTemplate.Proofs.Lexical.Levels

What a path stands for inside of bodies.

1. The bodies around a place are levels, innermost first.  A level has the names that the body
   declares, the arguments it is given, and the context it is rendered with.
2. The head of a path is an argument of the innermost level that declares it, or else an entry
   of the innermost context; the other segments are steps from there (`resolve`).
3. Scopes are made level by level, by a change of the context and by binding names
   (`scopeOf`).  A path is looked up in such a scope as it is resolved in the levels
   (`lookup_scopeOf`).
-/

namespace LiveTemplate

/-- What a body that is rendered adds to what surrounds it. -/
structure Level where
  names : List String := []
  arguments : List Value := []
  context : Value := .undefined

/-- The argument at the first position of a name, if the level declares it.  Where there are too
few arguments it is undefined. -/
def Level.argument? (l : Level) (name : String) : Option Value :=
  (l.names.idxOf? name).map fun i => (l.arguments[i]?).getD .undefined

/-! ## resolving -/

/-- The context of the innermost level. -/
def innermostContext (levels : List Level) : Value :=
  (levels.head?.map Level.context).getD .undefined

/-- What the head of a path stands for. -/
def resolveHead (heap : Heap) (levels : List Level) (name : String) : Value :=
  if name = "this" ∨ name = "" then innermostContext levels
  else (levels.findSome? (·.argument? name)).getD ((innermostContext levels).get heap name)

/-- What a path stands for: it is split at its points, and from what its head stands for one step
after the other is taken. -/
def resolve (heap : Heap) (levels : List Level) (path : String) : Value :=
  let names := (path.toList.splitOn '.').map String.ofList
  names.tail.foldl (Value.get heap) (resolveHead heap levels (names.headD ""))

/-! ## scopes -/

/-- The scope inside of levels. -/
def scopeOf : List Level → Scope
  | [] => {}
  | l :: levels => ((scopeOf levels).withContext l.context).bind l.names l.arguments

theorem context_bind (s : Scope) (names : List String) (values : List Value) :
    (s.bind names values).context = s.context := by
  rw [Scope.bind]
  split <;> rfl

theorem context_scopeOf (levels : List Level) :
    (scopeOf levels).context = innermostContext levels := by
  cases levels with
  | nil => rfl
  | cons l levels =>
    rw [scopeOf, context_bind]
    rfl

/-- A frame has for a name the argument at its first position. -/
theorem lookup_positional (names : List String) (values : List Value) (name : String) :
    (positional names values).lookup name =
      (names.idxOf? name).map fun i => (values[i]?).getD .undefined := by
  induction names generalizing values with
  | nil => cases values <;> rfl
  | cons first names ih =>
    have hframe : positional (first :: names) values =
        (first, (values[0]?).getD .undefined) :: positional names values.tail := by
      cases values <;> rfl
    rw [hframe, List.lookup_cons, List.idxOf?_cons]
    by_cases hname : name = first
    · subst hname
      simp
    · rw [beq_eq_false_iff_ne.2 hname, beq_eq_false_iff_ne.2 (Ne.symm hname), ih]
      cases names.idxOf? name with
      | none => rfl
      | some i => cases values <;> rfl

/-- Binding names puts them in front of those that are bound already. -/
theorem local?_bind (s : Scope) (l : Level) (name : String) :
    (s.bind l.names l.arguments).local? name = (l.argument? name).or (s.local? name) := by
  rw [Scope.bind]
  split
  · next hnames =>
    rw [Level.argument?, List.isEmpty_iff.1 hnames]
    rfl
  · rw [Scope.local?, List.findSome?_cons, lookup_positional, ← Level.argument?]
    cases l.argument? name <;> rfl

theorem local?_scopeOf (levels : List Level) (name : String) :
    (scopeOf levels).local? name = levels.findSome? (·.argument? name) := by
  induction levels with
  | nil => rfl
  | cons l levels ih =>
    rw [scopeOf, local?_bind, List.findSome?_cons,
      show ((scopeOf levels).withContext l.context).local? name = (scopeOf levels).local? name
        from rfl, ih]
    cases l.argument? name <;> rfl

/-- Behind a nullish value there is nothing, however many steps are taken from it. -/
theorem foldl_get_undefined (heap : Heap) (names : List String) :
    names.foldl (Value.get heap) .undefined = .undefined := by
  induction names with
  | nil => rfl
  | cons name names ih => exact ih

theorem follow_eq (heap : Heap) (value : Value) (names : List String) :
    Scope.follow heap value names = names.foldl (Value.get heap) value := by
  induction names generalizing value with
  | nil => rfl
  | cons name names ih =>
    rw [Scope.follow, List.foldl_cons, ih]
    split
    · next hnull =>
      have hget : value.get heap name = .undefined := by
        cases value <;> first | rfl | cases hnull
      rw [hget, foldl_get_undefined]
    · rfl

/-- A path is looked up in the scope inside of levels as it is resolved in them. -/
theorem lookup_scopeOf (heap : Heap) (levels : List Level) (path : String) :
    (scopeOf levels).lookup heap path = resolve heap levels path := by
  have hhead : ∀ name, (scopeOf levels).head heap name = resolveHead heap levels name := by
    intro name
    rw [Scope.head, resolveHead, context_scopeOf, local?_scopeOf]
  rw [Scope.lookup, resolve, ← segments_eq_splitOn]
  split
  · next hnil => exact absurd (List.map_eq_nil_iff.1 hnil) (segments_ne_nil _)
  · next name rest hnames =>
    rw [hnames, hhead, follow_eq]
    rfl

end LiveTemplate
