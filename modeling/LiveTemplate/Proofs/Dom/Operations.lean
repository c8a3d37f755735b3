import LiveTemplate.Proofs.Dom.Building
import LiveTemplate.Proofs.Dom.Linking

/-!
# LiveTemplate.Proofs.Dom.Operations

The documents that can come about.

A document starts empty and is changed by operations on nodes that it has (`Reached`).
What holds of all such documents is kept by every single operation (`Consistent`): links
agree, no attribute of an element occurs twice, and no fragment has a parent.  Morphs and
HTML change documents by nothing but these operations or what comes to the same.
-/

namespace LiveTemplate

/-! ## the data of trees -/

mutual

/-- What the nodes of a tree are, in document order. -/
def Tree.allData {α : Type} : Tree α → List NodeData
  | .node _ data ts => data :: forestData ts

/-- What the nodes of trees are, in document order. -/
def forestData {α : Type} : List (Tree α) → List NodeData
  | [] => []
  | t :: ts => t.allData ++ forestData ts

end

theorem mem_forestData {α : Type} {data : NodeData} {ts : List (Tree α)} :
    data ∈ forestData ts ↔ ∃ t ∈ ts, data ∈ t.allData := by
  induction ts with
  | nil => simp [forestData]
  | cons t ts ih => simp [forestData, ih]

/-- Numbering trees keeps what their nodes are. -/
theorem forestData_numberForest (first : Nat) (ts : List Markup) :
    forestData (numberForest first ts) = forestData ts := by
  induction ts using forest_induction generalizing first with
  | nil => rfl
  | cons _ data kids ts ihkids ihts =>
    rw [numberForest, numberTree, forestData, Tree.allData, ihkids, ihts, forestData, Tree.allData]

/-- The nodes of trees that a document holds are what the document has them as. -/
theorem Dom.HoldsAll.data_mem {dom : Dom} {parent : Option NodeId} {ts : List (Tree NodeId)}
    (h : dom.HoldsAll parent ts) : ∀ x ∈ forestLabels ts, dom.data x ∈ forestData ts := by
  induction ts using forest_induction generalizing parent with
  | nil => simp [forestLabels]
  | cons id data kids ts ihkids ihts =>
    obtain ⟨⟨-, hrecord, hkids⟩, hts⟩ := h
    intro x hx
    simp only [forestLabels, Tree.labels, List.cons_append, List.mem_cons, List.mem_append] at hx
    simp only [forestData, Tree.allData, List.cons_append, List.mem_cons, List.mem_append]
    rcases hx with rfl | hx | hx
    · exact .inl (Dom.data_of_record hrecord)
    · exact .inr (.inl (ihkids hkids x hx))
    · exact .inr (.inr (ihts hts x hx))

/-- What the nodes of trees are that a document holds, the document has them as. -/
theorem Dom.HoldsAll.exists_of_mem_data {dom : Dom} {parent : Option NodeId}
    {ts : List (Tree NodeId)} (h : dom.HoldsAll parent ts) {data : NodeData}
    (hdata : data ∈ forestData ts) : ∃ x ∈ forestLabels ts, dom.data x = data := by
  induction ts using forest_induction generalizing parent with
  | nil => simp [forestData] at hdata
  | cons id own kids ts ihkids ihts =>
    obtain ⟨⟨-, hrecord, hkids⟩, hts⟩ := h
    simp only [forestData, Tree.allData, List.cons_append, List.mem_cons, List.mem_append] at hdata
    simp only [forestLabels, Tree.labels, List.cons_append, List.mem_cons, List.mem_append]
    rcases hdata with rfl | hdata | hdata
    · exact ⟨id, .inl rfl, Dom.data_of_record hrecord⟩
    · obtain ⟨x, hx, hxdata⟩ := ihkids hkids hdata
      exact ⟨x, .inr (.inl hx), hxdata⟩
    · obtain ⟨x, hx, hxdata⟩ := ihts hts hdata
      exact ⟨x, .inr (.inr hx), hxdata⟩

/-- No node of plantable trees is a fragment. -/
theorem not_isFragment_of_mem_forestData {α : Type} {ts : List (Tree α)} (h : PlantableAll ts)
    {data : NodeData} (hdata : data ∈ forestData ts) : data.isFragment = false := by
  induction ts using forest_induction with
  | nil => simp [forestData] at hdata
  | cons _ own kids ts ihkids ihts =>
    simp only [forestData, Tree.allData, List.cons_append, List.mem_cons, List.mem_append] at hdata
    rcases hdata with rfl | hdata | hdata
    · exact h.1.1
    · exact ihkids h.1.2 hdata
    · exact ihts h.2 hdata

/-! ## attributes -/

/-- No attribute of an element occurs twice. -/
def NodeData.DistinctNames (data : NodeData) : Prop :=
  ∀ tag ns attributes, data = .element tag ns attributes → attributes.keys.Nodup

namespace Dict

variable {α : Type}

theorem nodup_keys_erase {d : Dict α} (name : String) (h : d.keys.Nodup) :
    (d.erase name).keys.Nodup :=
  (List.Sublist.map Prod.fst List.filter_sublist).nodup h

end Dict

theorem NodeData.DistinctNames.mapAttributes {data : NodeData} (h : data.DistinctNames)
    {f : Dict String → Dict String} (hf : ∀ d : Dict String, d.keys.Nodup → (f d).keys.Nodup) :
    (data.mapAttributes f).DistinctNames := by
  rintro tag ns attributes heq
  cases data with
  | element tag' ns' attributes' =>
    cases heq
    exact hf _ (h _ _ _ rfl)
  | _ => cases heq

theorem NodeData.DistinctNames.setText {data : NodeData} (h : data.DistinctNames) (s : String) :
    (data.setText s).DistinctNames := by
  rintro tag ns attributes heq
  cases data with
  | element tag' ns' attributes' => exact h _ _ _ heq
  | _ => cases heq

namespace Builder

/-- What the nodes under construction are. -/
def allData (b : Builder) : List NodeData :=
  forestData b.nodes ++ b.opened.flatMap fun o => o.data :: forestData o.before

/-- Closing a node makes no other one. -/
theorem allData_leave_subset (b : Builder) : b.leave.allData ⊆ b.allData := by
  intro data hdata
  rw [leave] at hdata
  split at hdata
  · exact hdata
  · next own before opened hopened =>
    rw [allData, hopened]
    simp only [allData, forestData, Tree.allData, List.mem_append, List.mem_cons,
      List.flatMap_cons, mem_forestData, List.mem_reverse] at hdata ⊢
    rcases hdata with ((hown | hnodes) | hbefore) | hrest
    · exact .inr (.inl (.inl hown))
    · exact .inl hnodes
    · exact .inr (.inl (.inr hbefore))
    · exact .inr (.inr hrest)

theorem allData_leaveMany_subset (n : Nat) (b : Builder) : (leaveMany n b).allData ⊆ b.allData := by
  induction n generalizing b with
  | zero => exact List.Subset.refl _
  | succ n ih => exact fun _ hdata => b.allData_leave_subset (ih b.leave hdata)

theorem allData_leaveThrough_subset (p : NodeData → Bool) (b : Builder) :
    (b.leaveThrough p).allData ⊆ b.allData := by
  rw [leaveThrough]
  split
  · exact allData_leaveMany_subset _ b
  · exact List.Subset.refl _

theorem forestData_finish_subset (b : Builder) : forestData b.finish ⊆ b.allData := by
  intro data hdata
  refine allData_leaveMany_subset b.opened.length b (List.mem_append_left _ ?_)
  simpa [finish, mem_forestData] using hdata

/-- A token of HTML adds no element with an attribute that occurs twice. -/
theorem distinctNames_html (root : Namespace) {b : Builder}
    (h : ∀ data ∈ b.allData, data.DistinctNames) (token : Token) :
    ∀ data ∈ (b.html root token).allData, data.DistinctNames := by
  have hleaf : ∀ new : NodeData, new.DistinctNames →
      ∀ data ∈ (b.leaf new).allData, data.DistinctNames := by
    intro new hnew data hdata
    simp only [leaf, allData, forestData, Tree.allData, List.mem_append, List.mem_cons,
      List.cons_append, List.nil_append] at hdata
    rcases hdata with rfl | hdata
    · exact hnew
    · exact h data (List.mem_append.2 hdata)
  cases token with
  | startTag tag =>
    have hnew : (NodeData.ofStartTag tag (b.inherited root)).DistinctNames := by
      rintro _ _ _ heq
      cases heq
      exact Dict.nodup_keys_ofPairs _
    rw [html]
    split
    · intro data hdata
      simp only [enter, allData, forestData, List.flatMap_cons, List.nil_append, List.cons_append,
        List.mem_cons, List.mem_append] at hdata
      rcases hdata with rfl | hdata
      · exact hnew
      · exact h data (List.mem_append.2 hdata)
    · exact hleaf _ hnew
  | endTag name span => exact fun data hdata => h data (allData_leaveThrough_subset _ b hdata)
  | text s span => exact hleaf _ (fun _ _ _ heq => by cases heq)
  | comment s span => exact hleaf _ (fun _ _ _ heq => by cases heq)
  | mustache m => exact h

/-- Tokens of HTML add no element with an attribute that occurs twice. -/
theorem distinctNames_foldl_html (root : Namespace) (tokens : List Token) {b : Builder}
    (h : ∀ data ∈ b.allData, data.DistinctNames) :
    ∀ data ∈ (tokens.foldl (Builder.html root) b).allData, data.DistinctNames := by
  induction tokens generalizing b with
  | nil => exact h
  | cons token tokens ih => exact ih (distinctNames_html root h token)

end Builder

/-- HTML describes no element with an attribute that occurs twice. -/
theorem distinctNames_forestOfHtml (root : Namespace) (html : String) :
    ∀ data ∈ forestData (forestOfHtml root html), data.DistinctNames := by
  intro data hdata
  rw [forestOfHtml] at hdata
  split at hdata
  · refine Builder.distinctNames_foldl_html root _ ?_ data
      (Builder.forestData_finish_subset _ hdata)
    simp [Builder.allData, forestData]
  · simp only [forestData, Tree.allData, List.append_nil, List.mem_singleton] at hdata
    rintro _ _ _ rfl
    cases hdata

/-! ## operations -/

namespace Dom

/-- An operation on a document. -/
inductive Operation where
  | create (data : NodeData)
  | setAttribute (element : NodeId) (name value : String)
  | removeAttribute (element : NodeId) (name : String)
  | setText (node : NodeId) (text : String)
  | insertBefore (parent child : NodeId) (reference : Option NodeId)
  | removeChild (parent child : NodeId)
  | detach (node : NodeId)
  | parseHtml (html : String) (context : Option NodeId)

namespace Operation

/-- The document after an operation. -/
def apply (dom : Dom) : Operation → Dom
  | create data => (dom.create data).2
  | setAttribute element name value => dom.setAttribute element name value
  | removeAttribute element name => dom.removeAttribute element name
  | setText node text => dom.setText node text
  | insertBefore parent child reference => dom.insertBefore parent child reference
  | removeChild parent child => dom.removeChild parent child
  | detach node => dom.detach node
  | parseHtml html context => (dom.parseHtml html context).2

/-- The operations that may be applied to a document: elements are created without attributes, and
nodes are inserted into nodes that the document has. -/
def Allowed (dom : Dom) : Operation → Prop
  | create data => ∀ tag ns attributes, data = .element tag ns attributes → attributes = {}
  | insertBefore parent child _ => parent.index < dom.size ∧ child.index < dom.size
  | setAttribute .. | removeAttribute .. | setText .. | removeChild .. | detach _ | parseHtml .. =>
    True

end Operation

/-- No operation takes nodes out of existence. -/
theorem Operation.size_le {dom : Dom} (hlinked : dom.Linked) (op : Operation) :
    dom.size ≤ (op.apply dom).size := by
  cases op with
  | create data =>
    rw [apply, size_create]
    exact Nat.le_succ _
  | setAttribute element name value => exact Nat.le_of_eq (size_modify ..).symm
  | removeAttribute element name => exact Nat.le_of_eq (size_modify ..).symm
  | setText node text => exact Nat.le_of_eq (size_modify ..).symm
  | insertBefore parent child reference => exact Nat.le_of_eq (size_insertBefore ..).symm
  | removeChild parent child => exact Nat.le_of_eq (size_removeChild ..).symm
  | detach node => exact Nat.le_of_eq (size_detach ..).symm
  | parseHtml html context => exact Nat.le_of_lt (hlinked.plantFragment _).2

/-- The documents that operations make of the empty one. -/
inductive Reached : Dom → Prop where
  | empty : Reached {}
  | step {dom : Dom} (h : Reached dom) (op : Operation) (allowed : op.Allowed dom) :
    Reached (op.apply dom)

/-- Operations that may be applied one after the other. -/
def Allows (dom : Dom) : List Operation → Prop
  | [] => True
  | op :: ops => op.Allowed dom ∧ (op.apply dom).Allows ops

theorem Reached.operations {dom : Dom} (h : dom.Reached) {ops : List Operation}
    (allowed : dom.Allows ops) : (ops.foldl Operation.apply dom).Reached := by
  induction ops generalizing dom with
  | nil => exact h
  | cons op ops ih => exact ih (h.step op allowed.1) allowed.2

/-- What planting adds besides the trees is a fragment that has no parent. -/
theorem exists_record_plantFragment {dom : Dom} {ts : List Markup} (hplantable : PlantableAll ts)
    {x : NodeId} (hx : dom.size ≤ x.index)
    (hmem : x ∉ forestLabels (numberForest (dom.size + 1) ts)) :
    ∃ children, (dom.plantFragment ts).2.record x = ⟨.fragment, none, children⟩ := by
  obtain ⟨hid, hsize, hholds, -⟩ := dom.planted_plantFragment hplantable
  by_cases heq : x.index = dom.size
  · have hfragment : x = (dom.plantFragment ts).1 := by rw [hid, ← heq]
    exact ⟨_, by rw [hfragment]; exact hholds.2.1⟩
  · refine ⟨[], record_of_size_le (Nat.not_lt.1 fun hlt => hmem ?_)⟩
    rw [mem_forestLabels_numberForest]
    rw [forestLabels_numberForest, List.length_map, List.length_range'] at hsize
    omega

/-- What holds of all documents that come about. -/
structure Consistent (dom : Dom) : Prop where
  linked : dom.Linked
  /-- No attribute of an element occurs twice. -/
  distinctNames : ∀ x, (dom.data x).DistinctNames
  /-- No fragment has a parent. -/
  not_isFragment : ∀ x p, dom.parent? x = some p → (dom.data x).isFragment = false

namespace Consistent

variable {dom dom' : Dom}

theorem empty : ({} : Dom).Consistent where
  linked := Linked.empty
  distinctNames := by
    rintro x _ _ _ heq
    cases heq
  not_isFragment x p hp := by
    rw [parent?_of_size_le (Nat.zero_le _)] at hp
    cases hp

/-- Links may change while data and the parents of fragments stay. -/
theorem relink (h : dom.Consistent) (hlinked : dom'.Linked) (hdata : ∀ x, dom'.data x = dom.data x)
    (hparent : ∀ x p, dom'.parent? x = some p → (dom.data x).isFragment = false) :
    dom'.Consistent where
  linked := hlinked
  distinctNames x := by
    rw [hdata]
    exact h.distinctNames x
  not_isFragment x p hp := by
    rw [hdata]
    exact hparent x p hp

/-- Data may change without making an attribute occur twice or a fragment of anything. -/
theorem changeData (h : dom.Consistent) (id : NodeId) {f : NodeData → NodeData}
    (hnames : ∀ data : NodeData, data.DistinctNames → (f data).DistinctNames)
    (hfragment : ∀ data : NodeData, (f data).isFragment = data.isFragment) :
    (dom.modify id fun r => { r with data := f r.data }).Consistent where
  linked := h.linked.changeData id f
  distinctNames x := by
    rw [data, record_modify]
    split
    · exact hnames _ (h.distinctNames x)
    · exact h.distinctNames x
  not_isFragment x p hp := by
    have hkept :
        (dom.modify id fun r => { r with data := f r.data }).parent? x = dom.parent? x := by
      rw [parent?, record_modify]
      split <;> rfl
    have hx := h.not_isFragment x p (hkept ▸ hp)
    rw [data, record_modify]
    split
    · exact (hfragment _).trans hx
    · exact hx

/-- Nodes may be added that are as they have to be. -/
theorem extend (h : dom.Consistent) (hlinked : dom'.Linked)
    (hframe : ∀ x : NodeId, x.index < dom.size → dom'.record x = dom.record x)
    (hnew : ∀ x : NodeId, dom.size ≤ x.index → (dom'.data x).DistinctNames ∧
      ∀ p, dom'.parent? x = some p → (dom'.data x).isFragment = false) :
    dom'.Consistent where
  linked := hlinked
  distinctNames x := by
    by_cases hx : x.index < dom.size
    · rw [data, hframe x hx]
      exact h.distinctNames x
    · exact (hnew x (Nat.not_lt.1 hx)).1
  not_isFragment x p hp := by
    by_cases hx : x.index < dom.size
    · rw [data, hframe x hx]
      rw [parent?, hframe x hx] at hp
      exact h.not_isFragment x p hp
    · exact (hnew x (Nat.not_lt.1 hx)).2 p hp

theorem create (h : dom.Consistent) {data : NodeData} (hdata : data.DistinctNames) :
    (dom.create data).2.Consistent := by
  refine h.extend (h.linked.create data) (fun x hx => record_create_of_lt data hx) fun x hx => ?_
  have hrecord := record_create dom data x
  by_cases heq : x.index = dom.size
  · rw [if_pos heq] at hrecord
    refine ⟨by rw [data_of_record hrecord]; exact hdata, fun p hp => ?_⟩
    rw [parent?, hrecord] at hp
    cases hp
  · rw [if_neg heq, record_of_size_le hx] at hrecord
    refine ⟨?_, fun p hp => ?_⟩
    · rw [data_of_record hrecord]
      rintro _ _ _ heq
      cases heq
    · rw [parent?, hrecord] at hp
      cases hp

theorem removeChild (h : dom.Consistent) (parent child : NodeId) :
    (dom.removeChild parent child).Consistent := by
  refine h.relink (h.linked.removeChild parent child) (data_removeChild dom parent child)
    fun x p hp => ?_
  rw [parent?_removeChild] at hp
  split at hp
  · cases hp
  · exact h.not_isFragment x p hp

theorem detach (h : dom.Consistent) (node : NodeId) : (dom.detach node).Consistent := by
  rw [Dom.detach]
  split
  · exact h.removeChild _ node
  · exact h

theorem insertBefore (h : dom.Consistent) {parent child : NodeId}
    (hparent : parent.index < dom.size) (hchild : child.index < dom.size)
    (reference : Option NodeId) : (dom.insertBefore parent child reference).Consistent := by
  refine h.relink (h.linked.insertBefore hparent hchild reference)
    (data_insertBefore dom parent child reference) fun x p hp => ?_
  rw [h.linked.parent?_insertBefore hchild] at hp
  split at hp
  · next hmoved =>
    -- Either a child of the fragment that is inserted, or what is inserted and no fragment.
    rw [moved] at hmoved
    split at hmoved
    · exact h.not_isFragment x child ((h.linked.mem_children_iff child x).1 hmoved)
    · next hfragment =>
      rw [List.mem_singleton.1 hmoved]
      exact Bool.eq_false_iff.2 hfragment
  · exact h.not_isFragment x p hp

theorem parseHtml (h : dom.Consistent) (html : String) (context : Option NodeId) :
    (dom.parseHtml html context).2.Consistent := by
  have hplantable := plantableAll_forestOfHtml (dom.nsBelow context) html
  obtain ⟨-, -, hholds, hframe⟩ := dom.planted_plantFragment hplantable
  refine h.extend (h.linked.plantFragment _).1 hframe fun x hx => ?_
  by_cases hmem : x ∈ forestLabels (numberForest (dom.size + 1)
      (forestOfHtml (dom.nsBelow context) html))
  · have hdata := hholds.2.2.data_mem x hmem
    rw [forestData_numberForest] at hdata
    exact ⟨distinctNames_forestOfHtml _ html _ hdata,
      fun p _ => not_isFragment_of_mem_forestData hplantable hdata⟩
  · obtain ⟨children, hrecord⟩ := exists_record_plantFragment hplantable hx hmem
    refine ⟨?_, fun p hp => ?_⟩
    · rw [Dom.parseHtml, data_of_record hrecord]
      rintro _ _ _ heq
      cases heq
    · rw [Dom.parseHtml, parent?, hrecord] at hp
      cases hp

end Consistent

/-- Every document that comes about is consistent. -/
theorem Reached.consistent {dom : Dom} (h : dom.Reached) : dom.Consistent := by
  induction h with
  | empty => exact Consistent.empty
  | @step dom _ op allowed ih =>
    cases op with
    | create data =>
      refine ih.create fun tag ns attributes heq => ?_
      rw [allowed tag ns attributes heq]
      exact List.nodup_nil
    | setAttribute element name value =>
      refine ih.changeData element
        (fun data hdata => hdata.mapAttributes fun d => Dict.nodup_keys_set name value)
        fun data => ?_
      cases data <;> rfl
    | removeAttribute element name =>
      refine ih.changeData element
        (fun data hdata => hdata.mapAttributes fun d => Dict.nodup_keys_erase name) fun data => ?_
      cases data <;> rfl
    | setText node text =>
      refine ih.changeData node (fun data hdata => hdata.setText text) fun data => ?_
      cases data <;> rfl
    | insertBefore parent child reference => exact ih.insertBefore allowed.1 allowed.2 reference
    | removeChild parent child => exact ih.removeChild parent child
    | detach node => exact ih.detach node
    | parseHtml html context => exact ih.parseHtml html context

end Dom

end LiveTemplate
