import LiveTemplate.Dom.Tree

/-!
# LiveTemplate.Proofs.Dom.Reordering

Trees that are the same up to the order of attributes.

The order of attributes is the order in which they were set.  It is of no interest to a
reader of HTML, so trees are compared without it.
-/

namespace LiveTemplate

/-- The same up to the order of attributes. -/
inductive NodeData.Reordered : NodeData → NodeData → Prop
  | refl (data : NodeData) : Reordered data data
  | element (tag : String) (ns : Namespace) {attributes attributes' : Dict String}
    (h : attributes.entries.Perm attributes'.entries) :
    Reordered (.element tag ns attributes) (.element tag ns attributes')

mutual

/-- Trees that are the same up to the order of the attributes of each element. -/
def Tree.Reordered : Markup → Markup → Prop
  | .node _ data ts, .node _ data' us => data.Reordered data' ∧ ReorderedAll ts us

/-- Trees that are the same one by one, up to the order of attributes. -/
def ReorderedAll : List Markup → List Markup → Prop
  | [], [] => True
  | t :: ts, u :: us => t.Reordered u ∧ ReorderedAll ts us
  | [], _ :: _ | _ :: _, [] => False

end

namespace NodeData.Reordered

variable {data data' data'' : NodeData}

theorem symm (h : data.Reordered data') : data'.Reordered data := by
  cases h with
  | refl => exact .refl _
  | element tag ns h => exact .element tag ns h.symm

theorem trans (h : data.Reordered data') (h' : data'.Reordered data'') :
    data.Reordered data'' := by
  cases h with
  | refl => exact h'
  | element tag ns h =>
    cases h' with
    | refl => exact .element tag ns h
    | element _ _ h' => exact .element tag ns (h.trans h')

end NodeData.Reordered

mutual

theorem Tree.Reordered.refl : (t : Markup) → t.Reordered t
  | .node _ data ts => ⟨.refl data, ReorderedAll.refl ts⟩

theorem ReorderedAll.refl : (ts : List Markup) → ReorderedAll ts ts
  | [] => trivial
  | t :: ts => ⟨.refl t, .refl ts⟩

end

mutual

theorem Tree.Reordered.symm : {t u : Markup} → t.Reordered u → u.Reordered t
  | .node .., .node .., ⟨hdata, hchildren⟩ => ⟨hdata.symm, ReorderedAll.symm hchildren⟩

theorem ReorderedAll.symm : {ts us : List Markup} → ReorderedAll ts us → ReorderedAll us ts
  | [], [], _ => trivial
  | _ :: _, _ :: _, ⟨ht, hts⟩ => ⟨ht.symm, ReorderedAll.symm hts⟩

end

mutual

theorem Tree.Reordered.trans : {t u v : Markup} → t.Reordered u → u.Reordered v → t.Reordered v
  | .node .., .node .., .node .., ⟨hdata, hchildren⟩, ⟨hdata', hchildren'⟩ =>
    ⟨hdata.trans hdata', ReorderedAll.trans hchildren hchildren'⟩

theorem ReorderedAll.trans : {ts us vs : List Markup} → ReorderedAll ts us → ReorderedAll us vs →
    ReorderedAll ts vs
  | [], [], [], _, _ => trivial
  | _ :: _, _ :: _, _ :: _, ⟨ht, hts⟩, ⟨hu, hus⟩ => ⟨ht.trans hu, ReorderedAll.trans hts hus⟩

end

theorem ReorderedAll.append {ts us ts' us' : List Markup} (h : ReorderedAll ts us)
    (h' : ReorderedAll ts' us') : ReorderedAll (ts ++ ts') (us ++ us') := by
  induction ts generalizing us with
  | nil =>
    cases us with
    | nil => exact h'
    | cons => exact h.elim
  | cons t ts ih =>
    cases us with
    | nil => exact h.elim
    | cons u us => exact ⟨h.1, ih h.2⟩

end LiveTemplate
