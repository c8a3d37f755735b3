import Mathlib.Data.List.Forall2
import LiveTemplate.Proofs.Dom.Births
import LiveTemplate.Proofs.Dom.Nested

/-!
# LiveTemplate.Proofs.Dom.Lineage

The order in which HTML is read.

1. A `Lineage` is what is known of the nodes while HTML is read: their births so far, and which
   elements are open.  Every node is born to the innermost open element.
2. Builders keep a lineage (`Lineage.ofBuilder`), and every token does to it what it does to
   them (`ofBuilder_html`).  So the document grows by the births that the tokens bring about,
   one after the other (`Dom.grownBy_parseHtml`).
3. Open elements are born to each other (`Lineage.Sound`).  What comes after an end tag is born
   where the element was that it closes, and later.
-/

namespace LiveTemplate

/-- The births so far, and those of the elements that are open, innermost first. -/
structure Lineage where
  births : List Birth := []
  opened : List Birth := []

/-- The innermost of the open elements; the fragment, if there are none. -/
def innermost (fragment : NodeId) : List Birth → NodeId
  | [] => fragment
  | o :: _ => o.node

namespace Lineage

/-- The namespace that the innermost open element hands down; `root` at the top. -/
def inherited (root : Namespace) (l : Lineage) : Namespace :=
  match l.opened with
  | [] => root
  | o :: _ => o.data.nsBelow

variable (fragment : NodeId)

/-- The next birth. -/
def next (l : Lineage) (data : NodeData) : Birth :=
  ⟨⟨fragment.index + 1 + l.births.length⟩, innermost fragment l.opened, data⟩

/-- Adds a node without children. -/
def leaf (l : Lineage) (data : NodeData) : Lineage :=
  { l with births := l.births ++ [l.next fragment data] }

/-- Opens an element. -/
def enter (l : Lineage) (data : NodeData) : Lineage where
  births := l.births ++ [l.next fragment data]
  opened := l.next fragment data :: l.opened

/-- Closes the innermost open element of a name and all that were opened inside it. -/
def leaveThrough (l : Lineage) (name : String) : Lineage :=
  match l.opened.findIdx? fun o => o.data.tag? == some name with
  | some n => { l with opened := l.opened.drop (n + 1) }
  | none => l

/-- The birth that a token brings about. -/
def birth? (root : Namespace) (l : Lineage) (token : Token) : Option Birth :=
  (token.data? (l.inherited root)).map (l.next fragment)

/-- Reads a token of HTML. -/
def read (root : Namespace) (l : Lineage) : Token → Lineage
  | .startTag tag =>
    let data := NodeData.ofStartTag tag (l.inherited root)
    if data.hasContent && !tag.selfClosing then l.enter fragment data else l.leaf fragment data
  | .endTag name _ => l.leaveThrough name
  | .text s _ => l.leaf fragment (.text s)
  | .comment s _ => l.leaf fragment (.comment s)
  | .mustache _ => l

/-- Reads tokens of HTML, one after the other. -/
def ofTokens (root : Namespace) (tokens : List Token) : Lineage :=
  tokens.foldl (read fragment root) {}

variable {fragment} {root : Namespace} {l : Lineage}

theorem births_read (fragment : NodeId) (root : Namespace) (l : Lineage) (token : Token) :
    (l.read fragment root token).births = l.births ++ (l.birth? fragment root token).toList := by
  cases token with
  | startTag tag =>
    rw [read]
    split <;> rfl
  | endTag name span =>
    rw [read, leaveThrough]
    split <;> exact (List.append_nil _).symm
  | text s span => rfl
  | comment s span => rfl
  | mustache m => exact (List.append_nil _).symm

/-! ## end tags -/

theorem opened_leaveThrough {name : String} {inner outer : List Birth} {e : Birth}
    (hopened : l.opened = inner ++ e :: outer) (he : e.data.tag? = some name)
    (hinner : ∀ o ∈ inner, o.data.tag? ≠ some name) : (l.leaveThrough name).opened = outer := by
  have hindex : l.opened.findIdx? (fun o => o.data.tag? == some name) = some inner.length := by
    rw [hopened, List.findIdx?_append,
      List.findIdx?_eq_none_iff.2 fun o ho => beq_eq_false_iff_ne.2 (hinner o ho), Option.none_or,
      List.findIdx?_cons, if_pos (beq_iff_eq.2 he), Option.map_some, Nat.zero_add]
  rw [leaveThrough, hindex]
  show l.opened.drop (inner.length + 1) = outer
  rw [hopened, List.drop_append, List.drop_of_length_le (Nat.le_succ _), List.nil_append,
    Nat.add_sub_cancel_left]
  rfl

/-! ## builders -/

variable (fragment)

/-- Adds trees. -/
def sow (l : Lineage) (ts : List Markup) : Lineage where
  births := l.births ++ forestBirths (innermost fragment l.opened)
    (numberForest (fragment.index + 1 + l.births.length) ts)
  opened := l.opened

/-- The births of open nodes and of what stands before them. -/
def ofOpened : List OpenNode → Lineage
  | [] => {}
  | o :: opened => ((ofOpened opened).sow fragment o.before.reverse).enter fragment o.data

/-- The births of the nodes under construction. -/
def ofBuilder (b : Builder) : Lineage := (ofOpened fragment b.opened).sow fragment b.nodes.reverse

variable {fragment}

@[simp] theorem sow_nil : l.sow fragment [] = l := by
  rw [sow, numberForest, forestBirths, List.append_nil]

theorem sow_append (ts us : List Markup) :
    l.sow fragment (ts ++ us) = (l.sow fragment ts).sow fragment us := by
  rw [sow, numberForest_append, forestBirths_append, sow, sow, List.length_append,
    length_forestBirths_numberForest, List.append_assoc, Nat.add_assoc _ l.births.length]

/-- A tree is added by opening its root and adding what is below. -/
theorem sow_node (data : NodeData) (kids : List Markup) :
    l.sow fragment [.node () data kids] =
      ⟨((l.enter fragment data).sow fragment kids).births, l.opened⟩ := by
  rw [sow, sow, enter, numberForest, numberTree, forestBirths, Tree.births, numberForest,
    forestBirths, List.append_nil, List.length_append, List.append_assoc]
  rfl

theorem ofBuilder_leaf (b : Builder) (data : NodeData) :
    ofBuilder fragment (b.leaf data) = (ofBuilder fragment b).leaf fragment data := by
  rw [ofBuilder, Builder.leaf, List.reverse_cons, sow_append, sow_node, sow_nil]
  rfl

theorem ofBuilder_enter (b : Builder) (data : NodeData) :
    ofBuilder fragment (b.enter data) = (ofBuilder fragment b).enter fragment data := sow_nil

/-- Closing the innermost node makes no difference to what has been born. -/
theorem ofBuilder_leave (b : Builder) :
    ofBuilder fragment b.leave =
      ⟨(ofBuilder fragment b).births, (ofBuilder fragment b).opened.tail⟩ := by
  obtain ⟨nodes, opened⟩ := b
  cases opened with
  | nil => rfl
  | cons o opened =>
    rw [ofBuilder, Builder.leave, List.reverse_cons, sow_append, sow_node]
    rfl

theorem ofBuilder_leaveMany (fragment : NodeId) (n : Nat) (b : Builder) :
    ofBuilder fragment (Builder.leaveMany n b) =
      ⟨(ofBuilder fragment b).births, (ofBuilder fragment b).opened.drop n⟩ := by
  induction n generalizing b with
  | zero => rfl
  | succ n ih => rw [Builder.leaveMany, ih, ofBuilder_leave, List.drop_tail]

/-- The open nodes are what their births say. -/
theorem map_data_ofBuilder (fragment : NodeId) (b : Builder) :
    (ofBuilder fragment b).opened.map Birth.data = b.opened.map OpenNode.data := by
  obtain ⟨nodes, opened⟩ := b
  show (ofOpened fragment opened).opened.map Birth.data = opened.map OpenNode.data
  induction opened with
  | nil => rfl
  | cons o opened ih => exact congrArg (o.data :: ·) ih

theorem inherited_ofBuilder (b : Builder) :
    (ofBuilder fragment b).inherited root = b.inherited root := by
  obtain ⟨nodes, opened⟩ := b
  cases opened <;> rfl

theorem ofBuilder_leaveThrough (b : Builder) (name : String) :
    ofBuilder fragment (b.leaveThrough fun data => data.tag? == some name) =
      (ofBuilder fragment b).leaveThrough name := by
  have hindex : b.opened.findIdx? (fun o => o.data.tag? == some name) =
      (ofBuilder fragment b).opened.findIdx? (fun o => o.data.tag? == some name) := by
    have h := congrArg (List.findIdx? fun data => data.tag? == some name)
      (map_data_ofBuilder fragment b)
    rw [List.findIdx?_map, List.findIdx?_map] at h
    exact h.symm
  rw [Builder.leaveThrough, leaveThrough, hindex]
  cases (ofBuilder fragment b).opened.findIdx? fun o => o.data.tag? == some name with
  | some n => exact ofBuilder_leaveMany fragment (n + 1) b
  | none => rfl

/-- A token does to the births under construction what it does to the builder. -/
theorem ofBuilder_html (b : Builder) (token : Token) :
    ofBuilder fragment (b.html root token) = (ofBuilder fragment b).read fragment root token := by
  cases token with
  | startTag tag =>
    rw [Builder.html, read, inherited_ofBuilder]
    split
    · exact ofBuilder_enter b _
    · exact ofBuilder_leaf b _
  | endTag name span => exact ofBuilder_leaveThrough b name
  | text s span => exact ofBuilder_leaf b _
  | comment s span => exact ofBuilder_leaf b _
  | mustache m => rfl

theorem ofBuilder_foldl (tokens : List Token) (b : Builder) :
    ofBuilder fragment (tokens.foldl (Builder.html root) b) =
      tokens.foldl (read fragment root) (ofBuilder fragment b) := by
  induction tokens generalizing b with
  | nil => rfl
  | cons token tokens ih => rw [List.foldl_cons, List.foldl_cons, ih, ofBuilder_html]

theorem ofTokens_eq (tokens : List Token) :
    ofTokens fragment root tokens =
      ofBuilder fragment (tokens.foldl (Builder.html root) {}) :=
  (ofBuilder_foldl tokens {}).symm

/-- Closing everything makes no difference to what has been born. -/
theorem births_finish (b : Builder) :
    forestBirths fragment (numberForest (fragment.index + 1) b.finish) =
      (ofBuilder fragment b).births := by
  have hopened := Builder.opened_leaveMany b.opened.length b
  have h := congrArg births (ofBuilder_leaveMany fragment b.opened.length b)
  rw [List.drop_length] at hopened
  rw [ofBuilder, hopened] at h
  exact h

/-! ## open elements -/

/-- Elements, innermost first, that are born to each other. -/
def Chained (fragment : NodeId) : List Birth → Prop
  | [] => True
  | o :: outer => o.parent = innermost fragment outer ∧ Chained fragment outer

/-- The open elements have been born, each to the one around it. -/
structure Sound (fragment : NodeId) (l : Lineage) : Prop where
  born : l.opened ⊆ l.births
  chained : Chained fragment l.opened

theorem Chained.of_append {inner outer : List Birth} (h : Chained fragment (inner ++ outer)) :
    Chained fragment outer := by
  induction inner with
  | nil => exact h
  | cons o inner ih => exact ih h.2

namespace Sound

theorem leaf (h : l.Sound fragment) (data : NodeData) : (l.leaf fragment data).Sound fragment :=
  ⟨fun _ ho => List.mem_append_left _ (h.born ho), h.chained⟩

theorem enter (h : l.Sound fragment) (data : NodeData) : (l.enter fragment data).Sound fragment := by
  refine ⟨fun o ho => ?_, rfl, h.chained⟩
  rcases List.mem_cons.1 ho with rfl | ho
  · exact List.mem_append_right _ (List.mem_singleton_self _)
  · exact List.mem_append_left _ (h.born ho)

theorem leaveThrough (h : l.Sound fragment) (name : String) :
    (l.leaveThrough name).Sound fragment := by
  rw [Lineage.leaveThrough]
  split
  · next n _ =>
    refine ⟨fun o ho => h.born (List.mem_of_mem_drop ho), ?_⟩
    have hchained := h.chained
    rw [← List.take_append_drop (n + 1) l.opened] at hchained
    exact hchained.of_append
  · exact h

theorem read (h : l.Sound fragment) (token : Token) : (l.read fragment root token).Sound fragment := by
  cases token with
  | startTag tag =>
    rw [Lineage.read]
    split
    · exact h.enter _
    · exact h.leaf _
  | endTag name span => exact h.leaveThrough name
  | text s span => exact h.leaf _
  | comment s span => exact h.leaf _
  | mustache m => exact h

end Sound

theorem sound_foldl (h : l.Sound fragment) (tokens : List Token) :
    (tokens.foldl (read fragment root) l).Sound fragment := by
  induction tokens generalizing l with
  | nil => exact h
  | cons token tokens ih => exact ih (h.read token)

theorem ofTokens_append (tokens tokens' : List Token) :
    ofTokens fragment root (tokens ++ tokens') =
      tokens'.foldl (read fragment root) (ofTokens fragment root tokens) :=
  List.foldl_append

theorem sound_ofTokens (fragment : NodeId) (root : Namespace) (tokens : List Token) :
    (ofTokens fragment root tokens).Sound fragment := by
  have hempty : ({} : Lineage).Sound fragment := ⟨List.nil_subset _, trivial⟩
  exact sound_foldl hempty tokens

/-- What has been born stays. -/
theorem births_prefix_foldl (tokens : List Token) (l : Lineage) :
    l.births <+: (tokens.foldl (read fragment root) l).births := by
  induction tokens generalizing l with
  | nil => exact List.prefix_refl _
  | cons token tokens ih =>
    exact (births_read fragment root l token ▸ List.prefix_append ..).trans (ih (l.read fragment root token))

end Lineage

/-! ## documents -/

/-- The trees that tokens of HTML describe, below a node that hands down `root`. -/
def forestOfTokens (root : Namespace) (tokens : List Token) : List Markup :=
  (tokens.foldl (Builder.html root) {}).finish

/-- Whether a token is a node. -/
def Token.isNode : Token → Bool
  | startTag _ | text .. | comment .. => true
  | endTag .. | mustache _ => false

theorem Token.isNode_eq (token : Token) (inherited : Namespace) :
    token.isNode = (token.data? inherited).isSome := by
  cases token <;> rfl

/-- What a token makes: an element of its name, in which the last value of each attribute counts, a
text or a comment. -/
inductive Token.Makes : Token → NodeData → Prop
  | element (tag : StartTag) (ns : Namespace) {attributes : Dict String}
    (hkeys : attributes.keys.Nodup)
    (hvalues : ∀ name, attributes.get? name =
      (tag.attributes.map fun a => (a.name, a.value.staticText)).reverse.lookup name) :
    Makes (.startTag tag) (.element tag.name ns attributes)
  | text (s : String) (span : Span) : Makes (.text s span) (.text s)
  | comment (s : String) (span : Span) : Makes (.comment s span) (.comment s)

theorem Token.makes_of_data? {inherited : Namespace} {token : Token} {data : NodeData}
    (h : token.data? inherited = some data) : token.Makes data := by
  cases token with
  | startTag tag =>
    cases h
    exact .element tag _ (Dict.nodup_keys_ofPairs _) (Dict.get?_ofPairs _)
  | endTag name span => cases h
  | text s span =>
    cases h
    exact .text s span
  | comment s span =>
    cases h
    exact .comment s span
  | mustache m => cases h

namespace Lineage

variable {fragment : NodeId} {root : Namespace}

/-- Every token that is a node is born, and nothing else is. -/
theorem exists_births_foldl (fragment : NodeId) (root : Namespace) (tokens : List Token) (l : Lineage) :
    ∃ births, (tokens.foldl (read fragment root) l).births = l.births ++ births ∧
      List.Forall₂ (fun token b => token.Makes b.data) (tokens.filter Token.isNode) births := by
  induction tokens generalizing l with
  | nil => exact ⟨[], (List.append_nil _).symm, .nil⟩
  | cons token tokens ih =>
    obtain ⟨births, hbirths, hmakes⟩ := ih (l.read fragment root token)
    rw [births_read, List.append_assoc] at hbirths
    refine ⟨_, hbirths, ?_⟩
    rw [birth?]
    cases hdata : token.data? (l.inherited root) with
    | none =>
      rw [List.filter_cons_of_neg (by rw [token.isNode_eq, hdata]; simp)]
      exact hmakes
    | some data =>
      rw [List.filter_cons_of_pos (by rw [token.isNode_eq, hdata]; rfl)]
      exact .cons (token.makes_of_data? hdata) hmakes

/-- An open element is born to the one around it. -/
theorem parent_of_opened {tokens : List Token} {inner outer : List Birth} {e : Birth}
    (h : (ofTokens fragment root tokens).opened = inner ++ e :: outer) :
    e.parent = innermost fragment outer := by
  have hchained := (sound_ofTokens fragment root tokens).chained
  rw [h] at hchained
  exact hchained.of_append.1

/-- What is open has been born, whatever comes after. -/
theorem born_of_opened {before : List Token} {b : Birth}
    (h : b ∈ (ofTokens fragment root before).opened) (after : List Token) :
    b ∈ (ofTokens fragment root (before ++ after)).births := by
  rw [ofTokens_append]
  exact (births_prefix_foldl after _).subset ((sound_ofTokens fragment root before).born h)

/-- A node is born after the elements that were open before it. -/
theorem later {before between : List Token} {token : Token} {e b : Birth}
    (he : e ∈ (ofTokens fragment root before).opened)
    (hb : (ofTokens fragment root (before ++ between)).birth? fragment root token = some b)
    (rest : List Token) :
    [e, b].Sublist (ofTokens fragment root (before ++ between ++ token :: rest)).births := by
  have hborn := born_of_opened he between
  have hread := births_read fragment root (ofTokens fragment root (before ++ between)) token
  rw [hb, Option.toList_some] at hread
  rw [ofTokens_append (before ++ between), List.foldl_cons]
  refine .trans ?_ (births_prefix_foldl rest _).sublist
  rw [hread]
  exact (List.singleton_sublist.2 hborn).append (List.Sublist.refl [b])

/-- A node is born to the innermost open element. -/
theorem parent_of_birth? {l : Lineage} {token : Token} {b : Birth}
    (h : l.birth? fragment root token = some b) : b.parent = innermost fragment l.opened := by
  obtain ⟨data, -, rfl⟩ := Option.map_eq_some_iff.1 h
  rfl

end Lineage

namespace Dom

/-- `b` is a later sibling of `a`. -/
def IsLaterSibling (dom : Dom) (a b : NodeId) : Prop :=
  ∃ parent, dom.parent? a = some parent ∧ dom.parent? b = some parent ∧
    [a, b].Sublist (dom.children parent)

/-- A document has grown by a fragment as tokens of HTML say. -/
structure GrownBy (dom dom' : Dom) (fragment : NodeId) (root : Namespace) (tokens : List Token) :
    Prop where
  /-- Every node is born to the element that is innermost among those open then. -/
  grown : dom.Grown dom' fragment (Lineage.ofTokens fragment root tokens).births
  /-- The nodes are those that the tokens make, in the order of the tokens. -/
  makes : List.Forall₂ (fun token b => token.Makes b.data) (tokens.filter Token.isNode)
    (Lineage.ofTokens fragment root tokens).births
  /-- An end tag of no open element might as well not be there. -/
  unmatched : ∀ before name span after, tokens = before ++ .endTag name span :: after →
    (∀ o ∈ (Lineage.ofTokens fragment root before).opened, o.data.tag? ≠ some name) →
      dom.plantFragment (forestOfTokens root (before ++ after)) = (fragment, dom')
  /-- An end tag of an open element closes the innermost one of its name, with all that were opened
  inside it.  A node that is read while exactly the elements around that one are open is a later
  sibling of it. -/
  matched : ∀ before name span after inner e outer, tokens = before ++ .endTag name span :: after →
    (Lineage.ofTokens fragment root before).opened = inner ++ e :: outer →
    e.data.tag? = some name → (∀ o ∈ inner, o.data.tag? ≠ some name) →
      (Lineage.ofTokens fragment root (before ++ [.endTag name span])).opened = outer ∧
        ∀ between token rest b, after = between ++ token :: rest →
          (Lineage.ofTokens fragment root (before ++ .endTag name span :: between)).opened = outer →
          (Lineage.ofTokens fragment root (before ++ .endTag name span :: between)).birth? fragment
            root token = some b → dom'.IsLaterSibling e.node b.node

/-- A node that is open, or the fragment, has the children that are born to it. -/
theorem Grown.children_innermost {dom dom' : Dom} {fragment : NodeId} {births opened : List Birth}
    (h : dom.Grown dom' fragment births) (hborn : opened ⊆ births) :
    dom'.children (innermost fragment opened) = bornTo (innermost fragment opened) births := by
  cases opened with
  | nil => exact children_of_record h.record_fragment
  | cons o outer => exact children_of_record (h.record o (hborn List.mem_cons_self))

/-- Nodes with one parent are siblings in the order of their births. -/
theorem Grown.isLaterSibling {dom dom' : Dom} {fragment : NodeId} {births outer : List Birth}
    (h : dom.Grown dom' fragment births) (hborn : outer ⊆ births) {a b : Birth}
    (horder : [a, b].Sublist births) (ha : a.parent = innermost fragment outer)
    (hb : b.parent = innermost fragment outer) : dom'.IsLaterSibling a.node b.node := by
  have hrecord := fun c (hc : c ∈ [a, b]) => h.record c (horder.subset hc)
  refine ⟨innermost fragment outer, ?_, ?_, ?_⟩
  · rw [parent?, hrecord a (by simp), ha]
  · rw [parent?, hrecord b (by simp), hb]
  · rw [h.children_innermost hborn, bornTo]
    have hfilter := horder.filter fun c => c.parent = innermost fragment outer
    rw [List.filter_cons_of_pos (by simpa using ha), List.filter_cons_of_pos (by simpa using hb)]
      at hfilter
    exact hfilter.map Birth.node

/-- An end tag of no open element describes nothing. -/
theorem forestOfTokens_unmatched {fragment : NodeId} {root : Namespace} {name : String}
    {before : List Token}
    (h : ∀ o ∈ (Lineage.ofTokens fragment root before).opened, o.data.tag? ≠ some name)
    (span : Span) (after : List Token) :
    forestOfTokens root (before ++ .endTag name span :: after) =
      forestOfTokens root (before ++ after) := by
  have hopened := Lineage.map_data_ofBuilder fragment (before.foldl (Builder.html root) {})
  rw [← Lineage.ofTokens_eq] at hopened
  have hnone : ∀ o ∈ (before.foldl (Builder.html root) {}).opened,
      (o.data.tag? == some name) = false := by
    intro o ho
    have hdata := List.mem_map_of_mem (f := OpenNode.data) ho
    rw [← hopened] at hdata
    obtain ⟨b, hb, hdata⟩ := List.mem_map.1 hdata
    exact hdata ▸ beq_eq_false_iff_ne.2 (h b hb)
  have hleave : (before.foldl (Builder.html root) {}).html root (.endTag name span) =
      before.foldl (Builder.html root) {} := by
    rw [Builder.html, Builder.leaveThrough, List.findIdx?_eq_none_iff.2 hnone]
  rw [forestOfTokens, forestOfTokens, List.foldl_append, List.foldl_append, List.foldl_cons, hleave]

/-- The trees of tokens are planted as the tokens say. -/
theorem grownBy_plantFragment (dom : Dom) (root : Namespace) (tokens : List Token) :
    dom.GrownBy (dom.plantFragment (forestOfTokens root tokens)).2
      (dom.plantFragment (forestOfTokens root tokens)).1 root tokens := by
  have hplantable : PlantableAll (forestOfTokens root tokens) :=
    plantableAll_finish_foldl (fun _ token h => h.html root token) tokens
  have hbirths : forestBirths ⟨dom.size⟩
      (numberForest (dom.size + 1) (forestOfTokens root tokens)) =
        (Lineage.ofTokens ⟨dom.size⟩ root tokens).births := by
    rw [Lineage.ofTokens_eq, ← Lineage.births_finish]
    rfl
  have hgrown := grown_plantFragment dom hplantable
  have hfragment : (dom.plantFragment (forestOfTokens root tokens)).1 = ⟨dom.size⟩ := rfl
  rw [hbirths, hfragment] at hgrown
  rw [hfragment]
  refine ⟨hgrown, ?_, ?_, ?_⟩
  · obtain ⟨births, hborn, hmakes⟩ := Lineage.exists_births_foldl ⟨dom.size⟩ root tokens {}
    rw [Lineage.ofTokens, hborn]
    exact hmakes
  · rintro before name span after rfl hunmatched
    rw [forestOfTokens_unmatched hunmatched]
    rfl
  · rintro before name span after inner e outer rfl hopened he hinner
    refine ⟨?_, ?_⟩
    · rw [Lineage.ofTokens_append]
      exact Lineage.opened_leaveThrough hopened he hinner
    · rintro between token rest b rfl hagain hb
      have hmem : ∀ o ∈ e :: outer, o ∈ (Lineage.ofTokens ⟨dom.size⟩ root before).opened := by
        rw [hopened]
        exact fun o ho => List.mem_append_right _ ho
      have horder := Lineage.later (hmem e List.mem_cons_self) hb rest
      rw [List.append_assoc] at horder
      exact hgrown.isLaterSibling
        (fun o ho => Lineage.born_of_opened (hmem o (List.mem_cons_of_mem _ ho)) _) horder
        (Lineage.parent_of_opened hopened)
        ((Lineage.parent_of_birth? hb).trans (congrArg _ hagain))

/-- HTML is read in document order, however its tags are nested; what is no HTML becomes a text. -/
theorem grownBy_parseHtml (dom : Dom) (html : String) (context : Option NodeId) :
    match tokens? .html html with
    | .ok tokens => dom.GrownBy (dom.parseHtml html context).2 (dom.parseHtml html context).1
        (dom.nsBelow context) tokens
    | .error _ => dom.Grown (dom.parseHtml html context).2 (dom.parseHtml html context).1
        [⟨⟨dom.size + 1⟩, ⟨dom.size⟩, .text html⟩] := by
  rw [parseHtml, forestOfHtml]
  cases tokens? .html html with
  | ok tokens => exact grownBy_plantFragment dom _ tokens
  | error e =>
    have hplantable : PlantableAll [.node () (.text html) []] := ⟨⟨rfl, trivial⟩, trivial⟩
    exact grown_plantFragment dom hplantable

end Dom

end LiveTemplate
