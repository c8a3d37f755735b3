import LiveTemplate.Dom.Tree

/-!
# LiveTemplate.Dom.Builder

Building trees from a stream of openings, leaves and closings.

A `Builder` holds the nodes since the innermost opening, last first, and the open
elements, innermost first, each with the nodes before it.  Closings without an open
element do nothing, and what is open at the end is closed there.
-/

namespace LiveTemplate

/-- An open element and the nodes before it, last first. -/
structure OpenNode where
  data : NodeData
  before : List Markup

/-- Trees under construction. -/
structure Builder where
  nodes : List Markup := []
  opened : List OpenNode := []

namespace Builder

/-- Adds a node without children. -/
def leaf (b : Builder) (data : NodeData) : Builder :=
  { b with nodes := .node () data [] :: b.nodes }

/-- Opens a node. -/
def enter (b : Builder) (data : NodeData) : Builder :=
  { nodes := [], opened := ⟨data, b.nodes⟩ :: b.opened }

/-- Closes the innermost node. -/
def leave (b : Builder) : Builder :=
  match b.opened with
  | [] => b
  | ⟨data, before⟩ :: opened => { nodes := .node () data b.nodes.reverse :: before, opened }

/-- Closes a number of nodes, from the innermost on. -/
def leaveMany : Nat → Builder → Builder
  | 0, b => b
  | n + 1, b => leaveMany n b.leave

/-- Changes the innermost open node. -/
def modifyInnermost (f : NodeData → NodeData) (b : Builder) : Builder :=
  match b.opened with
  | [] => b
  | ⟨data, before⟩ :: opened => { b with opened := ⟨f data, before⟩ :: opened }

/-- Closes the innermost node for which `p` holds and all that was opened inside it. -/
def leaveThrough (p : NodeData → Bool) (b : Builder) : Builder :=
  match b.opened.findIdx? (fun o => p o.data) with
  | some n => leaveMany (n + 1) b
  | none => b

/-- The trees, once all is closed. -/
def finish (b : Builder) : List Markup := (leaveMany b.opened.length b).nodes.reverse

end Builder

end LiveTemplate
