import LiveTemplate.Value.Basic

/-!
# LiveTemplate.Value.Scope

Scopes: the context of a render, and the block params bound around it.

A path is split at its points.  Its head is looked up in the block params, the
innermost first, and then in the context; `this` and the empty head stand for the
context itself.
-/

namespace LiveTemplate

/-- A context, and the block params bound by the blocks around, innermost first. -/
structure Scope where
  context : Value := .undefined
  frames : List (List (String × Value)) := []

instance : Inhabited Scope := ⟨{}⟩

/-- The segments of a path. -/
def segments : List Char → List (List Char)
  | [] => [[]]
  | c :: cs =>
    if c = '.' then [] :: segments cs
    else
      match segments cs with
      | first :: rest => (c :: first) :: rest
      | [] => [[c]]

theorem segments_ne_nil (s : List Char) : segments s ≠ [] := by
  cases s with
  | nil => simp [segments]
  | cons c cs =>
    unfold segments
    split
    · simp
    · split <;> simp

/-- No segment holds a point. -/
theorem not_mem_of_mem_segments {s segment : List Char} (h : segment ∈ segments s) :
    '.' ∉ segment := by
  induction s generalizing segment with
  | nil => simp_all [segments]
  | cons c cs ih =>
    rw [segments] at h
    split at h
    · rcases List.mem_cons.1 h with rfl | h
      · exact List.not_mem_nil
      · exact ih h
    · next hc =>
      split at h
      · next first rest hsegments =>
        rw [hsegments] at ih
        rcases List.mem_cons.1 h with rfl | h
        · exact List.not_mem_cons_of_ne_of_not_mem (Ne.symm hc) (ih List.mem_cons_self)
        · exact ih (List.mem_cons_of_mem _ h)
      · next hnil => exact absurd hnil (segments_ne_nil cs)

/-- The segments of a path with points between them are the path. -/
theorem intercalate_segments (s : List Char) : ['.'].intercalate (segments s) = s := by
  have hcons : ∀ first rest, rest ≠ [] →
      ['.'].intercalate (first :: rest) = first ++ '.' :: ['.'].intercalate rest := by
    intro first rest hne
    obtain ⟨second, rest, rfl⟩ := List.exists_cons_of_ne_nil hne
    simp
  induction s with
  | nil => rfl
  | cons c cs ih =>
    rw [segments]
    split
    · next hc => rw [hcons [] _ (segments_ne_nil cs), ih, hc, List.nil_append]
    · split
      · next first rest hsegments =>
        rw [hsegments] at ih
        cases rest with
        | nil => simp_all
        | cons second rest =>
          rw [hcons _ _ (by simp)] at ih ⊢
          rw [List.cons_append, ih]
      · next hnil => exact absurd hnil (segments_ne_nil cs)

/-- Paths are split at their points. -/
theorem segments_eq_splitOn (s : List Char) : segments s = s.splitOn '.' := by
  have h := List.splitOn_intercalate '.' (fun _ => not_mem_of_mem_segments) (segments_ne_nil s)
  rw [← h, intercalate_segments]

/-- Names with the values at their positions; a name without a value is `undefined`. -/
def positional : List String → List Value → List (String × Value)
  | [], _ => []
  | name :: names, [] => (name, .undefined) :: positional names []
  | name :: names, value :: values => (name, value) :: positional names values

namespace Scope

/-- The same block params around another context. -/
def withContext (s : Scope) (context : Value) : Scope := { s with context }

/-- Binds names on top of the scope. -/
def bind (s : Scope) (names : List String) (values : List Value) : Scope :=
  if names.isEmpty then s else { s with frames := positional names values :: s.frames }

/-- The innermost value bound to a name; of two in one block the first. -/
def local? (s : Scope) (name : String) : Option Value :=
  s.frames.findSome? fun frame => frame.lookup name

/-- The value of the head of a path. -/
def head (s : Scope) (heap : Heap) (name : String) : Value :=
  if name = "this" ∨ name = "" then s.context
  else (s.local? name).getD (s.context.get heap name)

/-- Follows further segments; behind a nullish value there is nothing. -/
def follow (heap : Heap) (value : Value) : List String → Value
  | [] => value
  | segment :: rest =>
    if value.isNullish then .undefined else follow heap (value.get heap segment) rest

/-- The value of a path. -/
def lookup (s : Scope) (heap : Heap) (path : String) : Value :=
  match (segments path.toList).map String.ofList with
  | [] => s.context
  | name :: rest => follow heap (s.head heap name) rest

end Scope

end LiveTemplate
