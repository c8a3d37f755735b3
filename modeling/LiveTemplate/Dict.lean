/-!
# LiveTemplate.Dict

Dictionaries that keep the order of insertion.

Setting a name that is there already changes its value and not its place.
Attribute lists, objects, hashes and registries are dictionaries.
-/

namespace LiveTemplate

/-- Values by name, in the order in which the names came. -/
structure Dict (α : Type) where
  entries : List (String × α) := []
deriving Repr, DecidableEq

namespace Dict

variable {α : Type}

instance : Inhabited (Dict α) := ⟨{}⟩

/-- The names, in order. -/
def keys (d : Dict α) : List String := d.entries.map Prod.fst

def size (d : Dict α) : Nat := d.entries.length

/-- The value under a name. -/
def get? (d : Dict α) (name : String) : Option α := d.entries.lookup name

def contains (d : Dict α) (name : String) : Bool := (d.get? name).isSome

/-- Entries with a value set: in place where the name occurs, at the end otherwise. -/
def setEntry (name : String) (value : α) : List (String × α) → List (String × α)
  | [] => [(name, value)]
  | (n, v) :: entries =>
    if n = name then (n, value) :: entries else (n, v) :: setEntry name value entries

/-- Sets the value under a name. -/
def set (d : Dict α) (name : String) (value : α) : Dict α := ⟨setEntry name value d.entries⟩

/-- Removes a name. -/
def erase (d : Dict α) (name : String) : Dict α := ⟨d.entries.filter (·.1 != name)⟩

/-- The dictionary that results from setting pairs one after the other. -/
def ofPairs (pairs : List (String × α)) : Dict α :=
  pairs.foldl (fun d (name, value) => d.set name value) {}

theorem lookup_setEntry (name n : String) (value : α) (entries : List (String × α)) :
    (setEntry name value entries).lookup n =
      if n = name then some value else entries.lookup n := by
  induction entries with
  | nil => by_cases h : n = name <;> simp [setEntry, List.lookup_cons, h, beq_eq_false_iff_ne.2]
  | cons e es ih =>
    obtain ⟨m, v⟩ := e
    by_cases hm : m = name
    · by_cases hn : n = name
      · simp [setEntry, hm, hn]
      · simp [setEntry, hm, hn, List.lookup_cons, beq_eq_false_iff_ne.2 hn]
    · by_cases hn : n = m
      · simp [setEntry, hm, hn]
      · simp [setEntry, hm, List.lookup_cons, beq_eq_false_iff_ne.2 hn, ih]

/-- What is under a name after setting another or the same one. -/
theorem get?_set (d : Dict α) (name n : String) (value : α) :
    (d.set name value).get? n = if n = name then some value else d.get? n :=
  lookup_setEntry name n value d.entries

theorem map_fst_setEntry (name : String) (value : α) (entries : List (String × α)) :
    (setEntry name value entries).map Prod.fst =
      if name ∈ entries.map Prod.fst then entries.map Prod.fst
      else entries.map Prod.fst ++ [name] := by
  induction entries with
  | nil => simp [setEntry]
  | cons e es ih =>
    obtain ⟨m, v⟩ := e
    by_cases hm : m = name
    · simp [setEntry, hm]
    · have hne : name ≠ m := Ne.symm hm
      simp only [setEntry, if_neg hm, List.map_cons, ih, List.mem_cons, hne, false_or]
      split <;> rfl

/-- Setting keeps the names in place, and adds one that is new at the end. -/
theorem keys_set (d : Dict α) (name : String) (value : α) :
    (d.set name value).keys = if name ∈ d.keys then d.keys else d.keys ++ [name] :=
  map_fst_setEntry name value d.entries

/-- Setting never makes a name occur twice. -/
theorem nodup_keys_set {d : Dict α} (name : String) (value : α) (h : d.keys.Nodup) :
    (d.set name value).keys.Nodup := by
  rw [keys_set]
  split
  · exact h
  · next hmem =>
    refine List.nodup_append.2 ⟨h, by simp, ?_⟩
    intro a ha b hb hab
    exact hmem (by simp_all)

/-- The names are those with a value. -/
theorem mem_keys_iff {d : Dict α} {name : String} : name ∈ d.keys ↔ (d.get? name).isSome := by
  rw [get?, List.lookup_isSome_iff, keys, List.mem_map]
  constructor
  · rintro ⟨entry, hentry, rfl⟩
    exact ⟨entry, hentry, beq_self_eq_true _⟩
  · rintro ⟨entry, hentry, hname⟩
    exact ⟨entry, hentry, (beq_iff_eq.1 hname).symm⟩

/-- Values that are changed under all names are found under the same names. -/
theorem get?_map {β : Type} (d : Dict α) (f : α → β) (name : String) :
    Dict.get? ⟨d.entries.map fun entry => (entry.1, f entry.2)⟩ name = (d.get? name).map f := by
  rw [get?, get?]
  induction d.entries with
  | nil => rfl
  | cons entry entries ih =>
    rw [List.map_cons, List.lookup_cons, List.lookup_cons]
    split
    · rfl
    · exact ih

/-- Of names that are set one after the other none occurs twice. -/
theorem nodup_keys_ofPairs (pairs : List (String × α)) : (ofPairs pairs).keys.Nodup := by
  have hfold : ∀ d : Dict α, d.keys.Nodup →
      (pairs.foldl (fun d pair => d.set pair.1 pair.2) d).keys.Nodup := by
    induction pairs with
    | nil => exact fun d h => h
    | cons pair pairs ih => exact fun d h => ih _ (nodup_keys_set pair.1 pair.2 h)
  exact hfold {} List.nodup_nil

/-- Of pairs with one name the last one counts. -/
theorem get?_ofPairs (pairs : List (String × α)) (name : String) :
    (ofPairs pairs).get? name = pairs.reverse.lookup name := by
  have hfold : ∀ d : Dict α, (pairs.foldl (fun d pair => d.set pair.1 pair.2) d).get? name =
      (pairs.reverse.lookup name).or (d.get? name) := by
    induction pairs with
    | nil => exact fun d => rfl
    | cons pair pairs ih =>
      intro d
      rw [List.foldl_cons, ih, get?_set, List.reverse_cons, List.lookup_append, Option.or_assoc,
        List.lookup_cons]
      by_cases hname : name = pair.1
      · rw [if_pos hname, beq_iff_eq.2 hname]
        rfl
      · rw [if_neg hname, beq_eq_false_iff_ne.2 hname]
        rfl
  exact (hfold {}).trans Option.or_none

/-- A pair in front of others counts where none of these has its name. -/
theorem get?_ofPairs_cons (n : String) (v : α) (pairs : List (String × α))
    (name : String) : (ofPairs ((n, v) :: pairs)).get? name =
      ((ofPairs pairs).get? name).or (if name = n then some v else none) := by
  rw [get?_ofPairs, get?_ofPairs, List.reverse_cons, List.lookup_append, List.lookup_cons]
  by_cases hname : name = n
  · rw [if_pos hname, beq_iff_eq.2 hname]
  · rw [if_neg hname, beq_eq_false_iff_ne.2 hname]
    rfl

end Dict

end LiveTemplate
