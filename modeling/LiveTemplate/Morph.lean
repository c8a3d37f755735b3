import LiveTemplate.Dom.Html
import LiveTemplate.Value.Basic

/-!
# LiveTemplate.Morph

Morphs: the regions of a document that show a value and can be updated.

A morph shows its nodes in front of its anchor and remembers what it shows.

1. Updating with the value that is shown, in the form in which it is shown, does
   nothing.
2. While the anchor is detached nothing is shown, and the value is forgotten, so
   that no later update is skipped.
3. A text that is shown by a single text node is changed in place.
4. In all other cases the old nodes are removed and new ones inserted: none for a
   nullish value, the node for a node, a text for an escaped value, and the parsed
   HTML for an unescaped one.  A fragment is shown as the nodes it holds.
-/

namespace LiveTemplate

/-- A region of a document that shows a value. -/
structure Morph where
  /-- The node in front of which the content stands. -/
  anchor : NodeId
  /-- The nodes that are shown. -/
  nodes : List NodeId := []
  /-- Whether values are shown as text, or as HTML. -/
  escaped : Bool
  /-- The element as whose content HTML is read. -/
  context : Option NodeId
  /-- The value that is shown, if any is. -/
  value : Option Value := none
  /-- Whether the value is shown as text. -/
  shownEscaped : Bool

namespace Morph

/-- A morph that shows nothing yet. -/
def create (anchor : NodeId) (escaped : Bool) (context : Option NodeId) : Morph :=
  { anchor, escaped, context, shownEscaped := escaped }

/-- Whether the value is shown already. -/
def shows (m : Morph) (value : Value) : Bool :=
  m.value.any (·.same value) && m.shownEscaped == m.escaped

/-- The text node that can show the value in place of what it shows. -/
def reusable? (m : Morph) (value : Value) (dom : Dom) : Option NodeId :=
  if m.escaped && !value.isNullish && !value.isNode then
    match m.nodes with
    | [node] => if (dom.data node).isText then some node else none
    | _ => none
  else none

/-- The node to insert for a value: none, the value itself, or one that is created. -/
def content (m : Morph) (value : Value) (dom : Dom) : Option NodeId × Dom :=
  match value with
  | .undefined | .null => (none, dom)
  | .node id => (some id, dom)
  | value =>
    let (id, dom) :=
      if m.escaped then dom.create (.text value.text) else dom.parseHtml value.text m.context
    (some id, dom)

/-- The nodes that inserting a node shows. -/
def inserted (dom : Dom) (id : NodeId) : List NodeId :=
  if (dom.data id).isFragment then dom.children id else [id]

/-- The morph once it shows a value with the given nodes. -/
def showing (m : Morph) (value : Value) (nodes : List NodeId) : Morph :=
  { m with nodes, value := some value, shownEscaped := m.escaped }

/-- Takes the nodes of a morph out of the children of `parent`. -/
def removeNodes (dom : Dom) (parent : NodeId) (nodes : List NodeId) : Dom :=
  nodes.foldl (fun dom node => dom.removeChild parent node) dom

/-- Replaces the content below `parent`. -/
def replace (m : Morph) (value : Value) (parent : NodeId) (dom : Dom) : Morph × Dom :=
  match m.content value (removeNodes dom parent m.nodes) with
  | (none, dom) => (m.showing value [], dom)
  | (some id, dom) =>
    (m.showing value (inserted dom id), dom.insertBefore parent id (some m.anchor))

/-- Shows a value. -/
def update (m : Morph) (value : Value) (dom : Dom) : Morph × Dom :=
  if m.shows value then (m, dom)
  else
    match dom.parent? m.anchor with
    | none => ({ m with value := none }, dom)
    | some parent =>
      match m.reusable? value dom with
      | some node => (m.showing value m.nodes, dom.setText node value.text)
      | none => m.replace value parent dom

/-- Shows nothing. -/
def clear (m : Morph) (dom : Dom) : Morph × Dom := m.update .null dom

/-! ## the ways of an update -/

variable {m : Morph} {value : Value} {dom : Dom} {parent node : NodeId}

/-- Clearing is an update like any other. -/
theorem clear_eq (m : Morph) (dom : Dom) : m.clear dom = m.update .null dom := rfl

theorem update_of_shows (dom : Dom) (h : m.shows value) : m.update value dom = (m, dom) := by
  simp [update, h]

/-- No text is reused for a node. -/
theorem reusable?_node (m : Morph) (n : NodeId) (dom : Dom) : m.reusable? (.node n) dom = none := by
  simp [reusable?, Value.isNode]

/-- Without a place for it a value is not shown. -/
theorem update_of_detached (hshows : m.shows value = false)
    (hanchor : dom.parent? m.anchor = none) :
    m.update value dom = ({ m with value := none }, dom) := by
  rw [update, if_neg (by simp [hshows]), hanchor]

/-- A text that is all the morph remembers is changed, wherever it is. -/
theorem update_of_reusable (hshows : m.shows value = false)
    (hanchor : dom.parent? m.anchor = some parent)
    (hreusable : m.reusable? value dom = some node) :
    m.update value dom = (m.showing value m.nodes, dom.setText node value.text) := by
  rw [update, if_neg (by simp [hshows]), hanchor]
  simp only [hreusable]

/-- In all other cases the content is replaced below the anchor's parent. -/
theorem update_eq_replace (hshows : m.shows value = false)
    (hanchor : dom.parent? m.anchor = some parent) (hreusable : m.reusable? value dom = none) :
    m.update value dom = m.replace value parent dom := by
  rw [update, if_neg (by simp [hshows]), hanchor]
  simp only [hreusable]

/-- What an update can come to. -/
inductive Way (m : Morph) (value : Value) (dom : Dom) : Morph × Dom → Prop where
  | idle (shows : m.shows value = true) : Way m value dom (m, dom)
  | detached (shows : m.shows value = false) (anchor : dom.parent? m.anchor = none) :
    Way m value dom ({ m with value := none }, dom)
  | reuse {parent node : NodeId} (shows : m.shows value = false)
    (anchor : dom.parent? m.anchor = some parent) (reusable : m.reusable? value dom = some node) :
    Way m value dom (m.showing value m.nodes, dom.setText node value.text)
  | replace {parent : NodeId} (shows : m.shows value = false)
    (anchor : dom.parent? m.anchor = some parent) (reusable : m.reusable? value dom = none) :
    Way m value dom (m.replace value parent dom)

theorem way_update (m : Morph) (value : Value) (dom : Dom) :
    m.Way value dom (m.update value dom) := by
  cases hshows : m.shows value with
  | true =>
    rw [update_of_shows dom hshows]
    exact .idle hshows
  | false =>
    cases hanchor : dom.parent? m.anchor with
    | none =>
      rw [update_of_detached hshows hanchor]
      exact .detached hshows hanchor
    | some parent =>
      cases hreusable : m.reusable? value dom with
      | some node =>
        rw [update_of_reusable hshows hanchor hreusable]
        exact .reuse hshows hanchor hreusable
      | none =>
        rw [update_eq_replace hshows hanchor hreusable]
        exact .replace hshows hanchor hreusable

end Morph

end LiveTemplate
