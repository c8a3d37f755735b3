import LiveTemplate.Dom.Tree

/-!
# LiveTemplate.Dom.Arena

Documents: nodes with a parent and children, which are created, moved and changed.

1. Nodes are numbered in the order of their creation.  A node is never removed from
   the document; one that is detached has no parent.
2. A node has its place in one list of children at most, so inserting it moves it.
3. Inserting a fragment moves its children and leaves it empty.  A fragment never
   has a parent.
4. Operations on a number that no node has change nothing.
-/

namespace LiveTemplate

/-- The number of a node. -/
structure NodeId where
  index : Nat
deriving DecidableEq, Repr, Inhabited

/-- A node in its place. -/
structure NodeRecord where
  data : NodeData
  parent : Option NodeId := none
  children : List NodeId := []
deriving Repr, DecidableEq, Inhabited

/-- A document. -/
structure Dom where
  nodes : Array NodeRecord := #[]
deriving Repr, DecidableEq, Inhabited

namespace Dom

/-! ## reading -/

/-- The number of nodes ever created. -/
def size (dom : Dom) : Nat := dom.nodes.size

/-- The record of a node. -/
def record (dom : Dom) (id : NodeId) : NodeRecord :=
  (dom.nodes[id.index]?).getD { data := .fragment }

def data (dom : Dom) (id : NodeId) : NodeData := (dom.record id).data

def parent? (dom : Dom) (id : NodeId) : Option NodeId := (dom.record id).parent

def children (dom : Dom) (id : NodeId) : List NodeId := (dom.record id).children

/-- The value of an attribute of an element. -/
def attribute? (dom : Dom) (id : NodeId) (name : String) : Option String :=
  match dom.data id with
  | .element _ _ attributes => attributes.get? name
  | _ => none

/-- The namespace children of `element` are created in; without an element this is XHTML. -/
def nsBelow (dom : Dom) : Option NodeId → Namespace
  | some id => (dom.data id).nsBelow
  | none => .xhtml

/-! ## single changes -/

/-- Changes the record of a node. -/
def modify (dom : Dom) (id : NodeId) (f : NodeRecord → NodeRecord) : Dom :=
  ⟨dom.nodes.modify id.index f⟩

def setChildren (dom : Dom) (id : NodeId) (children : List NodeId) : Dom :=
  dom.modify id fun r => { r with children }

def setParent (dom : Dom) (id : NodeId) (parent : Option NodeId) : Dom :=
  dom.modify id fun r => { r with parent }

/-- Creates a node without a place. -/
def create (dom : Dom) (data : NodeData) : NodeId × Dom :=
  (⟨dom.size⟩, ⟨dom.nodes.push { data }⟩)

/-- Sets an attribute of an element. -/
def setAttribute (dom : Dom) (id : NodeId) (name value : String) : Dom :=
  dom.modify id fun r => { r with data := r.data.mapAttributes (·.set name value) }

/-- Removes an attribute of an element. -/
def removeAttribute (dom : Dom) (id : NodeId) (name : String) : Dom :=
  dom.modify id fun r => { r with data := r.data.mapAttributes (·.erase name) }

/-- Changes the content of a text or of a comment. -/
def setText (dom : Dom) (id : NodeId) (text : String) : Dom :=
  dom.modify id fun r => { r with data := r.data.setText text }

/-! ### what single changes change -/

theorem record_modify (dom : Dom) (id n : NodeId) (f : NodeRecord → NodeRecord) :
    (dom.modify id f).record n =
      if n = id ∧ n.index < dom.size then f (dom.record n) else dom.record n := by
  by_cases hn : n = id
  · subst hn
    by_cases hlt : n.index < dom.size
    · have hlt' : n.index < dom.nodes.size := hlt
      simp [record, modify, Array.getElem_modify, hlt, hlt']
    · have hge : dom.nodes.size ≤ n.index := Nat.not_lt.1 hlt
      simp [record, modify, hlt, hge]
  · have hne : id.index ≠ n.index := fun h => hn (by cases id; cases n; simp_all)
    simp [record, modify, Array.getElem?_modify, hn, hne]

/-- A new node has its data and no place; all others stay as they are. -/
theorem record_create (dom : Dom) (d : NodeData) (n : NodeId) :
    (dom.create d).2.record n = if n.index = dom.size then { data := d } else dom.record n := by
  by_cases h : n.index = dom.size
  · simp_all [record, create, size]
  · have h' : n.index ≠ dom.nodes.size := h
    simp [record, create, Array.getElem?_push, h, h']

@[simp] theorem size_modify (dom : Dom) (id : NodeId) (f : NodeRecord → NodeRecord) :
    (dom.modify id f).size = dom.size := by
  simp [size, modify]

@[simp] theorem size_create (dom : Dom) (d : NodeData) :
    (dom.create d).2.size = dom.size + 1 := by
  simp [size, create]

@[simp] theorem data_setChildren (dom : Dom) (id n : NodeId) (children : List NodeId) :
    (dom.setChildren id children).data n = dom.data n := by
  simp only [data, setChildren, record_modify]; split <;> rfl

@[simp] theorem parent?_setChildren (dom : Dom) (id n : NodeId) (children : List NodeId) :
    (dom.setChildren id children).parent? n = dom.parent? n := by
  simp only [parent?, setChildren, record_modify]; split <;> rfl

@[simp] theorem data_setParent (dom : Dom) (id n : NodeId) (parent : Option NodeId) :
    (dom.setParent id parent).data n = dom.data n := by
  simp only [data, setParent, record_modify]; split <;> rfl

@[simp] theorem children_setParent (dom : Dom) (id n : NodeId) (parent : Option NodeId) :
    (dom.setParent id parent).children n = dom.children n := by
  simp only [children, setParent, record_modify]; split <;> rfl

theorem children_setChildren (dom : Dom) (id n : NodeId) (cs : List NodeId) :
    (dom.setChildren id cs).children n =
      if n = id ∧ n.index < dom.size then cs else dom.children n := by
  simp only [children, setChildren, record_modify]; split <;> rfl

theorem parent?_setParent (dom : Dom) (id n : NodeId) (parent : Option NodeId) :
    (dom.setParent id parent).parent? n =
      if n = id ∧ n.index < dom.size then parent else dom.parent? n := by
  simp only [parent?, setParent, record_modify]; split <;> rfl

/-! ## places -/

/-- Takes a node out of the children of `parent`. -/
def removeChild (dom : Dom) (parent child : NodeId) : Dom :=
  let dom := dom.setChildren parent ((dom.children parent).filter (· ≠ child))
  if dom.parent? child = some parent then dom.setParent child none else dom

/-- Takes a node out of its place. -/
def detach (dom : Dom) (id : NodeId) : Dom :=
  match dom.parent? id with
  | some parent => dom.removeChild parent id
  | none => dom

/-- The nodes that inserting `child` moves, taken out of their place. -/
def lift (dom : Dom) (child : NodeId) : List NodeId × Dom :=
  if (dom.data child).isFragment then (dom.children child, dom.setChildren child [])
  else ([child], dom.detach child)

/-- Siblings with `moved` put in front of `reference`, or at the end if it is not among
them. -/
def insertAmong (siblings moved : List NodeId) (reference : Option NodeId) : List NodeId :=
  match reference with
  | none => siblings ++ moved
  | some r => siblings.takeWhile (· ≠ r) ++ moved ++ siblings.dropWhile (· ≠ r)

/-- Inserts `child`, or the children of a fragment, into the children of `parent`: in front of
`reference`, or at the end without one. -/
def insertBefore (dom : Dom) (parent child : NodeId) (reference : Option NodeId) : Dom :=
  let (moved, dom) := dom.lift child
  let siblings := insertAmong (dom.children parent) moved reference
  (moved.foldl (fun dom id => dom.setParent id (some parent)) dom).setChildren parent siblings

/-- Inserts at the end of the children. -/
def appendChild (dom : Dom) (parent child : NodeId) : Dom := dom.insertBefore parent child none

/-! ## trees -/

/-- The tree at a node, down to a given depth.  Texts and comments are leaves. -/
def treeTo (dom : Dom) : Nat → NodeId → Tree NodeId
  | 0, id => .node id (dom.data id) []
  | depth + 1, id =>
    match dom.data id with
    | .text s => .node id (.text s) []
    | .comment s => .node id (.comment s) []
    | data => .node id data ((dom.children id).map (dom.treeTo depth))

/-- The tree at a node.  No node is deeper in it than there are nodes. -/
def tree (dom : Dom) (id : NodeId) : Tree NodeId := dom.treeTo dom.size id

/-- The HTML of a node. -/
def html (dom : Dom) (id : NodeId) : String := String.ofList (dom.tree id).html

mutual

/-- Creates the nodes of a tree at the end of the children of `parent`, parents before their
children and siblings in order. -/
def plantTree (parent : NodeId) : Markup → Dom → Dom
  | .node _ data children, dom =>
    let (id, dom) := dom.create data
    plant id children (dom.appendChild parent id)

/-- Creates the nodes of trees at the end of the children of `parent`. -/
def plant (parent : NodeId) : List Markup → Dom → Dom
  | [], dom => dom
  | t :: ts, dom => plant parent ts (plantTree parent t dom)

end

/-- Creates a fragment with the given children. -/
def plantFragment (dom : Dom) (forest : List Markup) : NodeId × Dom :=
  let (id, dom) := dom.create .fragment
  (id, plant id forest dom)

end Dom

end LiveTemplate
