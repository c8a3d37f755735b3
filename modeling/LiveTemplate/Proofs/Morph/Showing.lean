import LiveTemplate.Proofs.Dom.Building
import LiveTemplate.Proofs.Dom.Replacing

/-!
# LiveTemplate.Proofs.Morph.Showing

What showing a value makes of the document.

Whatever way an update takes, it replaces the trees in front of the anchor
(`updated_update`).  Unless the value is shown already, what stands there afterwards
has the HTML of the value (`valueHtml`), which depends on nothing that was there
before.
-/

namespace LiveTemplate

namespace Morph

/-! ## the trees that show a value -/

/-- The trees that show a value which is no node, in new nodes of a document. -/
def newTrees (m : Morph) (value : Value) (dom : Dom) : List (Tree NodeId) :=
  if value.isNullish then []
  else if m.escaped then [.node ⟨dom.size⟩ (.text value.text) []]
  else numberForest (dom.size + 1) (forestOfHtml (dom.nsBelow m.context) value.text)

/-- The HTML that shows a value which is no node: `ns` is the namespace HTML is read in. -/
def valueHtml (escaped : Bool) (ns : Namespace) (value : Value) : List Char :=
  if value.isNullish then []
  else if escaped then escape .content value.text.toList
  else forestHtml (forestOfHtml ns value.text)

theorem forestHtml_newTrees (m : Morph) (value : Value) (dom : Dom) :
    forestHtml (m.newTrees value dom) = valueHtml m.escaped (dom.nsBelow m.context) value := by
  rw [newTrees, valueHtml]
  split
  · rfl
  · split
    · simp [forestHtml, Tree.html, NodeData.html]
    · rw [forestHtml_numberForest]

/-- The trees that show a value in `dom`: those of a node that `base` does not have, or new ones. -/
inductive Displays (m : Morph) (base dom : Dom) : Value → List (Tree NodeId) → Prop where
  | node (t : Tree NodeId) (loose : base.Loose dom t) : Displays m base dom (.node t.label) t.shown
  | new (value : Value) (notNode : value.isNode = false) :
    Displays m base dom value (m.newTrees value dom)

theorem content_of_isNullish (m : Morph) {value : Value} (h : value.isNullish) (dom : Dom) :
    m.content value dom = (none, dom) := by
  cases value <;> first | rfl | simp [Value.isNullish] at h

theorem content_eq (m : Morph) {value : Value} (hnull : value.isNullish = false)
    (hnode : value.isNode = false) (dom : Dom) :
    m.content value dom =
      if m.escaped then (some ⟨dom.size⟩, (dom.create (.text value.text)).2)
      else (some (dom.parseHtml value.text m.context).1,
        (dom.parseHtml value.text m.context).2) := by
  unfold content
  split
  · simp [Value.isNullish] at hnull
  · simp [Value.isNullish] at hnull
  · simp [Value.isNode] at hnode
  · by_cases hescaped : m.escaped
    · rw [if_pos hescaped, if_pos hescaped]
      rfl
    · rw [if_neg hescaped, if_neg hescaped]

/-- A value that is no node is shown by a new tree. -/
theorem content_new (m : Morph) {value : Value} (hnull : value.isNullish = false)
    (hnode : value.isNode = false) (dom : Dom) :
    ∃ t, (m.content value dom).1 = some t.label ∧ dom.Extends (m.content value dom).2 ∧
      dom.Loose (m.content value dom).2 t ∧ t.shown = m.newTrees value dom := by
  have hnull' : ¬value.isNullish = true := by rw [hnull]; exact Bool.false_ne_true
  rw [content_eq m hnull hnode, newTrees, if_neg hnull']
  by_cases hescaped : m.escaped
  · rw [if_pos hescaped, if_pos hescaped]
    have hloose := dom.loose_create (.text value.text)
    exact ⟨_, rfl, hloose.1, hloose.2, rfl⟩
  · rw [if_neg hescaped, if_neg hescaped]
    have hloose := dom.loose_plantFragment
      (plantableAll_forestOfHtml (dom.nsBelow m.context) value.text)
    exact ⟨_, rfl, hloose.1, hloose.2, rfl⟩

/-- What is displayed is inserted in front of the anchor; the nodes shown before are gone. -/
theorem replaced_replace (m : Morph) {base dom : Dom} {p : NodeId} {value : Value}
    {old trees : List (Tree NodeId)} (hext : base.Extends (removeNodes dom p m.nodes))
    (hdisplays : m.Displays base (removeNodes dom p m.nodes) value trees)
    (hold : base.HoldsAll (some p) old) (hp : p.index < base.size) (hpold : p ∉ forestLabels old) :
    (m.replace value p dom).1 = m.showing value (rootLabels trees) ∧
      base.Replaced (m.replace value p dom).2 p m.anchor old (old ++ trees) := by
  -- Either nothing is inserted, or the root of a loose tree.
  have hcontent : ((m.content value (removeNodes dom p m.nodes)).1 = none ∧ trees = [] ∧
        base.Extends (m.content value (removeNodes dom p m.nodes)).2) ∨
      ∃ t, (m.content value (removeNodes dom p m.nodes)).1 = some t.label ∧ t.shown = trees ∧
        base.Extends (m.content value (removeNodes dom p m.nodes)).2 ∧
        base.Loose (m.content value (removeNodes dom p m.nodes)).2 t := by
    cases hdisplays with
    | node t hloose => exact .inr ⟨t, rfl, rfl, hext, hloose⟩
    | new _ hnode =>
      by_cases hnull : value.isNullish
      · rw [content_of_isNullish m hnull, newTrees, if_pos hnull]
        exact .inl ⟨rfl, rfl, hext⟩
      · obtain ⟨t, hlabel, hgrown, hloose, hshown⟩ :=
          m.content_new (Bool.eq_false_iff.2 hnull) hnode (removeNodes dom p m.nodes)
        have hle := hext.size_le
        exact .inr ⟨t, hlabel, hshown, hext.trans hgrown, hloose.holds, hloose.nodup,
          fun x hx => Nat.le_trans hle (hloose.fresh x hx)⟩
  rw [replace]
  rcases hcontent with ⟨hnone, rfl, hgrown⟩ | ⟨t, hsome, rfl, hgrown, hloose⟩
  · split
    · next dom' heq =>
      rw [heq] at hgrown
      rw [List.append_nil]
      exact ⟨rfl, hgrown.replaced m.anchor hold hp⟩
    · next id dom' heq => simp [heq] at hnone
  · split
    · next dom' heq => simp [heq] at hsome
    · next id dom' heq =>
      rw [heq] at hsome hgrown hloose
      obtain rfl : id = t.label := Option.some.inj hsome
      refine ⟨?_, Dom.replaced_insertBefore hgrown hloose m.anchor hold hp hpold⟩
      have hrecord := hloose.holds.record_label
      rw [inserted, Dom.data_of_record hrecord, Dom.children_of_record hrecord, Tree.shown]
      split <;> rfl

/-! ## updates -/

/-- A morph that shows nothing yet shows a value by inserting it; without a place for it, it does
nothing. -/
theorem update_of_nodes_eq_nil {m : Morph} (hnodes : m.nodes = []) (hvalue : m.value = none)
    (value : Value) (dom : Dom) :
    m.update value dom =
      match dom.parent? m.anchor with
      | none => (m, dom)
      | some parent => m.replace value parent dom := by
  have hshows : m.shows value = false := by simp [shows, hvalue]
  have hreusable : m.reusable? value dom = none := by
    rw [reusable?, hnodes]
    exact ite_self _
  cases hanchor : dom.parent? m.anchor with
  | none => rw [update_of_detached hshows hanchor, ← hvalue]
  | some parent => exact update_eq_replace hshows hanchor hreusable

/-- Removing nodes does not matter for the trees that show a value. -/
theorem newTrees_removeNodes (m : Morph) (value : Value) (dom : Dom) (p : NodeId)
    (nodes : List NodeId) :
    m.newTrees value (removeNodes dom p nodes) = m.newTrees value dom := by
  have hns : (removeNodes dom p nodes).nsBelow m.context = dom.nsBelow m.context := by
    cases hcontext : m.context with
    | none => rfl
    | some id => rw [Dom.nsBelow, Dom.nsBelow, Dom.data_removeNodes]
  rw [newTrees, newTrees, Dom.size_removeNodes, hns]

/-- The trees that show a value hold new nodes only, and none of them twice. -/
theorem labels_newTrees (m : Morph) {value : Value} (hnode : value.isNode = false) (dom : Dom) :
    (forestLabels (m.newTrees value dom)).Nodup ∧
      ∀ x ∈ forestLabels (m.newTrees value dom), dom.size ≤ x.index := by
  by_cases hnull : value.isNullish
  · rw [newTrees, if_pos hnull]
    simp [forestLabels]
  · obtain ⟨t, -, -, hloose, hshown⟩ := m.content_new (Bool.eq_false_iff.2 hnull) hnode dom
    rw [← hshown]
    have hsublist := forestLabels_shown_sublist t
    exact ⟨hsublist.nodup hloose.nodup, fun x hx => hloose.fresh x (hsublist.subset hx)⟩

/-- The trees that display a value hold nodes that `base` does not have, and none of them twice. -/
theorem Displays.labels {m : Morph} {base dom : Dom} {value : Value} {trees : List (Tree NodeId)}
    (h : m.Displays base dom value trees) (hsize : base.size ≤ dom.size) :
    (forestLabels trees).Nodup ∧ ∀ x ∈ forestLabels trees, base.size ≤ x.index := by
  cases h with
  | node t hloose =>
    have hsublist := forestLabels_shown_sublist t
    exact ⟨hsublist.nodup hloose.nodup, fun x hx => hloose.fresh x (hsublist.subset hx)⟩
  | new _ hnode =>
    obtain ⟨hnodup, hfresh⟩ := m.labels_newTrees hnode dom
    exact ⟨hnodup, fun x hx => Nat.le_trans hsize (hfresh x hx)⟩

/-- The node that can be reused is all that is shown, a text. -/
theorem reusable?_eq_some {m : Morph} {value : Value} {dom : Dom} {node : NodeId}
    (h : m.reusable? value dom = some node) :
    m.escaped = true ∧ value.isNullish = false ∧ m.nodes = [node] ∧ (dom.data node).isText := by
  rw [reusable?] at h
  split at h
  · next hcond =>
    simp only [Bool.and_eq_true, Bool.not_eq_true'] at hcond
    split at h
    · next node' hnodes =>
      split at h
      · next htext =>
        cases h
        exact ⟨hcond.1.1, hcond.1.2, hnodes, htext⟩
      · simp at h
    · simp at h
  · simp at h

/-- A node that can be reused is held as all that is shown. -/
theorem exists_of_reusable? {m : Morph} {value : Value} {dom : Dom} {node : NodeId}
    (h : m.reusable? value dom = some node) {q : Option NodeId} {old : List (Tree NodeId)}
    (hnodes : m.nodes = rootLabels old) (hold : dom.HoldsAll q old) :
    ∃ s kids, old = [.node node (.text s) kids] := by
  obtain ⟨-, -, hsingle, htext⟩ := reusable?_eq_some h
  rw [hnodes] at hsingle
  obtain ⟨t, rfl, hlabel⟩ := List.map_eq_singleton_iff.1 hsingle
  obtain ⟨id, data, kids⟩ := t
  obtain rfl : id = node := hlabel
  rw [Dom.data_of_record hold.1.2.1] at htext
  cases data with
  | text s => exact ⟨s, kids, rfl⟩
  | element tag ns attributes => simp [NodeData.isText] at htext
  | comment s => simp [NodeData.isText] at htext
  | fragment => simp [NodeData.isText] at htext

/-- What an update makes of a region: the morph's nodes are its roots again, and it has the HTML of
the value unless the value was shown already. -/
structure Updated (m : Morph) (value : Value) (dom : Dom) (p : NodeId)
    (old new : List (Tree NodeId)) : Prop where
  replaced : dom.Replaced (m.update value dom).2 p m.anchor old new
  nodup : (forestLabels new).Nodup
  old_or_fresh : ∀ x ∈ forestLabels new, x ∈ forestLabels old ∨ dom.size ≤ x.index
  morph : (m.shows value = true ∧ new = old ∧ (m.update value dom).1 = m) ∨
    (m.shows value = false ∧ (m.update value dom).1 = m.showing value (rootLabels new) ∧
      forestHtml new = valueHtml m.escaped (dom.nsBelow m.context) value)

/-- An update with a value that is no node replaces the region of the morph, whatever way it
takes. -/
theorem updated_update (m : Morph) {value : Value} {dom : Dom} {p : NodeId}
    {old : List (Tree NodeId)} (hnode : value.isNode = false)
    (hparent : dom.parent? m.anchor = some p) (hnodes : m.nodes = rootLabels old)
    (hold : dom.HoldsAll (some p) old) (hnodup : (forestLabels old).Nodup)
    (hp : p.index < dom.size) (hpold : p ∉ forestLabels old) :
    ∃ new, m.Updated value dom p old new := by
  by_cases hshows : m.shows value
  · have hupdate := update_of_shows dom hshows
    refine ⟨old, ?_, hnodup, fun x hx => .inl hx, .inl ⟨hshows, rfl, by rw [hupdate]⟩⟩
    rw [hupdate]
    exact (Dom.Extends.refl dom).replaced m.anchor hold hp
  have hshows' : m.shows value = false := Bool.eq_false_iff.2 hshows
  cases hreusable : m.reusable? value dom with
  | some node =>
    obtain ⟨hescaped, hnull, -, -⟩ := reusable?_eq_some hreusable
    have hupdate := update_of_reusable hshows' hparent hreusable
    -- All that is shown is one text, which is changed in place.
    obtain ⟨s, kids, rfl⟩ := exists_of_reusable? hreusable hnodes hold
    have hne : p ≠ node := by
      rintro rfl
      exact hpold (by simp [forestLabels, Tree.labels])
    refine ⟨[.node node (.text value.text) kids], ?_, hnodup, fun x hx => .inl hx,
      .inr ⟨hshows', ?_, ?_⟩⟩
    · rw [hupdate]
      exact Dom.replaced_setText hold hnodup hne value.text
    · rw [hupdate, hnodes]
      rfl
    · rw [valueHtml, if_neg (by simp [hnull]), if_pos hescaped]
      simp [forestHtml, Tree.html, NodeData.html]
  | none =>
    have hupdate := update_eq_replace hshows' hparent hreusable
    have hremoved := Dom.replaced_removeNodes dom m.anchor hpold
    rw [← hnodes] at hremoved
    have hreplaced := m.replaced_replace (Dom.Extends.refl _) (.new value hnode)
      (show (removeNodes dom p m.nodes).HoldsAll (some p) [] from trivial)
      (by rw [Dom.size_removeNodes]; exact hp) (by simp [forestLabels])
    rw [newTrees_removeNodes, List.nil_append] at hreplaced
    have hlabels := m.labels_newTrees hnode dom
    refine ⟨m.newTrees value dom, ?_, hlabels.1, fun x hx => .inr (hlabels.2 x hx),
      .inr ⟨hshows', ?_, forestHtml_newTrees m value dom⟩⟩
    · rw [hupdate]
      exact hremoved.trans hreplaced.2
    · rw [hupdate]
      exact hreplaced.1

end Morph

end LiveTemplate
