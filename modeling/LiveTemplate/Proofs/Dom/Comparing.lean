import LiveTemplate.Proofs.Dom.Merging
import LiveTemplate.Proofs.Dom.Reordering

/-!
# LiveTemplate.Proofs.Dom.Comparing

What documents write is equal as HTML exactly if the trees are.

Trees are compared with their texts merged (`mergedAll`).  The normal form of what is
written for them is then read off the trees (`normalOnto`), and where it is the same in
front of two ends the trees are the same up to the order of attributes
(`Restorable.reorderedAll_of_normalOnto`): no tree begins with an end tag, and the
namespaces, which decide whether an element has one, are those that are handed down.
-/

namespace LiveTemplate

variable {α : Type}

/-! ## normal forms -/

/-- The normal form of what is written for a node, in front of what follows it. -/
def NodeData.normalOnto (content : List NormalToken → List NormalToken)
    (others : List NormalToken) : NodeData → List NormalToken
  | .text s => NormalToken.consText s others
  | .comment s => .comment s :: others
  | .fragment => content others
  | .element tag ns attributes =>
    .startTag tag (attributes.entries.mergeSort attributeLE) ::
      if (NodeData.element tag ns attributes).hasContent then content (.endTag tag :: others)
      else others

mutual

/-- The normal form of what is written for a tree, in front of what follows it. -/
def Tree.normalOnto : Tree α → List NormalToken → List NormalToken
  | .node _ data kids, others => data.normalOnto (normalOnto kids) others

/-- The normal form of what is written for trees, in front of what follows them. -/
def normalOnto : List (Tree α) → List NormalToken → List NormalToken
  | [], others => others
  | t :: ts, others => t.normalOnto (normalOnto ts others)

end

/-- The tokens of trees have the normal form of the trees. -/
theorem ofTokens_of_spellsAll {ts : List (Tree α)} {tokens : List Token} (h : SpellsAll ts tokens)
    (more : List Token) :
    NormalToken.ofTokens (tokens ++ more) = normalOnto ts (NormalToken.ofTokens more) := by
  induction ts using forest_induction generalizing tokens more with
  | nil =>
    obtain rfl : tokens = [] := h
    rfl
  | cons l data kids ts ihkids ihts =>
    obtain ⟨first, others, rfl, hfirst, hothers⟩ := h
    rw [normalOnto, Tree.normalOnto, ← ihts hothers, List.append_assoc]
    generalize others ++ more = more
    cases data with
    | text s =>
      obtain ⟨span, rfl⟩ := hfirst
      rfl
    | comment s =>
      obtain ⟨span, rfl⟩ := hfirst
      rfl
    | fragment => exact ihkids hfirst more
    | element tag ns attributes =>
      obtain ⟨start, rfl, hattributes, hsingle, hfirst⟩ := hfirst
      have hstart : ∀ tokens, NormalToken.ofTokens (.startTag start :: tokens) =
          .startTag start.name (attributes.entries.mergeSort attributeLE) ::
            NormalToken.ofTokens tokens := by
        intro tokens
        rw [NormalToken.ofTokens, hsingle, sortedAttributes, hattributes]
        rfl
      rw [NodeData.normalOnto]
      split at hfirst
      · next hcontent =>
        obtain ⟨inner, span, hinner, rfl⟩ := hfirst
        rw [if_pos hcontent, List.cons_append, List.append_assoc, hstart, ihkids hinner]
        rfl
      · next hcontent =>
        subst hfirst
        rw [if_neg hcontent]
        exact hstart more

/-- What is written for trees that are read back has the normal form of the trees. -/
theorem Restorable.normalizeHtml {inherited : Namespace} {ts : List (Tree α)}
    (h : Restorable inherited ts) :
    normalizeHtml (String.ofList (forestHtml ts)) = .ok (normalOnto ts []) := by
  obtain ⟨tokens, hread, hspells⟩ := exists_tokens_forestHtml h.legible h.not_isFragment
  have hnormal := ofTokens_of_spellsAll hspells []
  rw [List.append_nil] at hnormal
  rw [LiveTemplate.normalizeHtml, hread]
  exact congrArg Except.ok hnormal

/-! ## sorting -/

theorem attributeLE_iff {a b : String × String} :
    attributeLE a b = true ↔ a.1 < b.1 ∨ a.1 = b.1 ∧ a.2 ≤ b.2 := by
  simp [attributeLE]

theorem attributeLE_trans (a b c : String × String) (hab : attributeLE a b = true)
    (hbc : attributeLE b c = true) : attributeLE a c = true := by
  obtain ⟨name, value⟩ := a
  obtain ⟨name', value'⟩ := b
  obtain ⟨name'', value''⟩ := c
  simp only [attributeLE_iff] at hab hbc ⊢
  rcases hab with hab | ⟨rfl, hab⟩
  · rcases hbc with hbc | ⟨rfl, -⟩
    · exact .inl (String.lt_trans hab hbc)
    · exact .inl hab
  · rcases hbc with hbc | ⟨rfl, hbc⟩
    · exact .inl hbc
    · exact .inr ⟨rfl, String.le_trans hab hbc⟩

theorem attributeLE_total (a b : String × String) :
    (attributeLE a b || attributeLE b a) = true := by
  rw [Bool.or_eq_true, attributeLE_iff, attributeLE_iff]
  rcases Decidable.em (a.1 < b.1) with hlt | hle
  · exact .inl (.inl hlt)
  rcases Decidable.em (b.1 < a.1) with hlt | hge
  · exact .inr (.inl hlt)
  have hname : a.1 = b.1 := String.le_antisymm (String.not_lt.1 hge) (String.not_lt.1 hle)
  rcases String.le_total a.2 b.2 with hvalue | hvalue
  · exact .inl (.inr ⟨hname, hvalue⟩)
  · exact .inr (.inr ⟨hname.symm, hvalue⟩)

theorem attributeLE_antisymm {a b : String × String} (hab : attributeLE a b = true)
    (hba : attributeLE b a = true) : a = b := by
  rw [attributeLE_iff] at hab hba
  rcases hab with hab | ⟨hname, hab⟩
  · rcases hba with hba | ⟨hname, -⟩
    · exact absurd hba (String.lt_asymm hab)
    · exact absurd hab (hname ▸ String.lt_irrefl _)
  · rcases hba with hba | ⟨-, hba⟩
    · exact absurd hba (hname ▸ String.lt_irrefl _)
    · exact Prod.ext hname (String.le_antisymm hab hba)

/-- Attributes are sorted alike exactly if they are the same in some order. -/
theorem mergeSort_attributeLE_eq_iff {l l' : List (String × String)} :
    l.mergeSort attributeLE = l'.mergeSort attributeLE ↔ l.Perm l' := by
  have hsorted : ∀ l : List (String × String),
      (l.mergeSort attributeLE).Pairwise (fun a b => attributeLE a b = true) :=
    List.pairwise_mergeSort attributeLE_trans attributeLE_total
  have hperm := l.mergeSort_perm attributeLE
  have hperm' := l'.mergeSort_perm attributeLE
  constructor
  · intro h
    exact hperm.symm.trans (h ▸ hperm')
  · intro h
    exact ((hperm.trans h).trans hperm'.symm).eq_of_pairwise
      (fun _ _ _ _ => attributeLE_antisymm) (hsorted l) (hsorted l')

/-! ## comparing -/

/-- In front of what is no text a text is a token of its own. -/
theorem NormalToken.consText_eq {s : String} {tokens : List NormalToken}
    (h : ∀ token ∈ tokens.head?, token.isText = false) :
    NormalToken.consText s tokens = .text s :: tokens := by
  rw [NormalToken.consText.eq_def]
  split
  · next t tokens => cases h (.text t) rfl
  · rfl

/-- What follows trees inside an element, or at the end: no tree begins there. -/
def ClosesAt (tokens : List NormalToken) : Prop :=
  ∀ token ∈ tokens.head?, ∃ name, token = .endTag name

theorem closesAt_nil : ClosesAt [] := fun _ h => by cases h

theorem closesAt_endTag (name : String) (tokens : List NormalToken) :
    ClosesAt (.endTag name :: tokens) := by
  intro token h
  cases h
  exact ⟨name, rfl⟩

/-- The token a node begins with. -/
def NodeData.firstToken : NodeData → NormalToken
  | .text s => .text s
  | .comment s => .comment s
  | .element tag _ attributes => .startTag tag (attributes.entries.mergeSort attributeLE)
  | .fragment => .text ""

/-- The token a node with content ends with. -/
def NodeData.lastToken (data : NodeData) : NormalToken := .endTag (data.tag?.getD "")

theorem NodeData.firstToken_ne_endTag (data : NodeData) (name : String) :
    data.firstToken ≠ .endTag name := by
  cases data <;> exact fun h => by cases h

/-- Nodes in one place that begin with one token are the same up to the order of attributes. -/
theorem NodeData.reordered_of_firstToken {inherited : Namespace} {data data' : NodeData}
    (hfragment : data.isFragment = false) (hfragment' : data'.isFragment = false)
    (hns : data.Inherits inherited) (hns' : data'.Inherits inherited)
    (h : data.firstToken = data'.firstToken) : data.Reordered data' := by
  cases data with
  | fragment => cases hfragment
  | text s =>
    cases data' with
    | fragment => cases hfragment'
    | text s' =>
      cases h
      exact .refl _
    | comment s' => cases h
    | element tag' ns' attributes' => cases h
  | comment s =>
    cases data' with
    | fragment => cases hfragment'
    | text s' => cases h
    | comment s' =>
      cases h
      exact .refl _
    | element tag' ns' attributes' => cases h
  | element tag ns attributes =>
    cases data' with
    | fragment => cases hfragment'
    | text s' => cases h
    | comment s' => cases h
    | element tag' ns' attributes' =>
      obtain ⟨rfl, hsorted⟩ := NormalToken.startTag.inj h
      obtain rfl : ns = ns' :=
        (NodeData.inherits_element.1 hns).trans (NodeData.inherits_element.1 hns').symm
      exact .element tag ns (mergeSort_attributeLE_eq_iff.1 hsorted)

namespace NodeData.Reordered

variable {data data' : NodeData}

theorem hasContent_eq (h : data.Reordered data') : data.hasContent = data'.hasContent := by
  cases h with
  | refl | element => rfl

theorem nsBelow_eq (h : data.Reordered data') : data.nsBelow = data'.nsBelow := by
  cases h with
  | refl | element => rfl

theorem normalOnto_eq (h : data.Reordered data') (content : List NormalToken → List NormalToken)
    (others : List NormalToken) :
    data.normalOnto content others = data'.normalOnto content others := by
  cases h with
  | refl => rfl
  | element tag ns hperm =>
    rw [normalOnto, normalOnto, mergeSort_attributeLE_eq_iff.2 hperm]
    rfl

end NodeData.Reordered

namespace Restorable

variable {inherited : Namespace} {others : List NormalToken}

/-- No text comes first in the normal form of trees that begin with none. -/
theorem isText_head_normalOnto {ts : List (Tree α)} (h : Restorable inherited ts)
    (htext : ∀ u ∈ ts.head?, u.data.isText = false) (hothers : ClosesAt others) :
    ∀ token ∈ (normalOnto ts others).head?, token.isText = false := by
  intro token htoken
  cases ts with
  | nil =>
    obtain ⟨name, rfl⟩ := hothers token htoken
    rfl
  | cons t ts =>
    obtain ⟨l, data, kids⟩ := t
    have hself := (restorable_cons_iff.1 h).1.2.1
    cases data with
    | text s => cases htext _ rfl
    | fragment => cases hself
    | element tag ns attributes =>
      cases htoken
      rfl
    | comment s =>
      cases htoken
      rfl

/-- A tree that is read back begins with a token of its own, and ends with one if it has content. -/
theorem normalOnto_cons {l : α} {data : NodeData} {kids ts : List (Tree α)}
    (h : Restorable inherited (.node l data kids :: ts)) (hothers : ClosesAt others) :
    normalOnto (.node l data kids :: ts) others =
      data.firstToken ::
        if data.hasContent then normalOnto kids (data.lastToken :: normalOnto ts others)
        else normalOnto ts others := by
  obtain ⟨⟨-, hself, -, -, htexts⟩, -, hts⟩ := restorable_cons_iff.1 h
  cases data with
  | text s => exact NormalToken.consText_eq (hts.isText_head_normalOnto (htexts rfl) hothers)
  | fragment => cases hself
  | element | comment => rfl

/-- Where a tree begins nothing closes. -/
theorem not_closesAt {t : Tree α} {ts : List (Tree α)} (h : Restorable inherited (t :: ts))
    (hothers : ClosesAt others) : ¬ClosesAt (normalOnto (t :: ts) others) := by
  obtain ⟨l, data, kids⟩ := t
  rw [h.normalOnto_cons hothers]
  intro hcloses
  obtain ⟨name, hname⟩ := hcloses _ rfl
  exact data.firstToken_ne_endTag name hname

/-- Trees with one normal form are the same up to the order of attributes, and the same follows
them. -/
theorem reorderedAll_of_normalOnto {ts us : List Markup} (hts : Restorable inherited ts)
    (hus : Restorable inherited us) {others' : List NormalToken} (hothers : ClosesAt others)
    (hothers' : ClosesAt others') (h : normalOnto ts others = normalOnto us others') :
    ReorderedAll ts us ∧ others = others' := by
  induction ts using forest_induction generalizing inherited us others others' with
  | nil =>
    cases us with
    | nil => exact ⟨trivial, h⟩
    | cons u us =>
      have hcloses : ClosesAt (normalOnto (u :: us) others') := h ▸ hothers
      exact absurd hcloses (hus.not_closesAt hothers')
  | cons l data kids ts ihkids ihts =>
    cases us with
    | nil =>
      have hcloses : ClosesAt (normalOnto (.node l data kids :: ts) others) := h ▸ hothers'
      exact absurd hcloses (hts.not_closesAt hothers)
    | cons u us =>
      obtain ⟨l', data', kids'⟩ := u
      rw [hts.normalOnto_cons hothers, hus.normalOnto_cons hothers'] at h
      obtain ⟨⟨-, hself, hns, hchildless, -⟩, hkids, hts⟩ := restorable_cons_iff.1 hts
      obtain ⟨⟨-, hself', hns', hchildless', -⟩, hkids', hus⟩ := restorable_cons_iff.1 hus
      obtain ⟨hfirst, h⟩ := List.cons.inj h
      have hdata : data.Reordered data' :=
        NodeData.reordered_of_firstToken hself hself' hns hns' hfirst
      by_cases hcontent : data.hasContent = true
      · have hcontent' : data'.hasContent = true := hdata.hasContent_eq ▸ hcontent
        rw [if_pos hcontent, if_pos hcontent'] at h
        rw [← hdata.nsBelow_eq] at hkids'
        obtain ⟨hinner, hafter⟩ :=
          ihkids hkids hkids' (closesAt_endTag _ _) (closesAt_endTag _ _) h
        obtain ⟨hrest, hend⟩ := ihts hts hus hothers hothers' (List.cons.inj hafter).2
        exact ⟨⟨⟨hdata, hinner⟩, hrest⟩, hend⟩
      · have hcontent' : ¬data'.hasContent = true := hdata.hasContent_eq ▸ hcontent
        rw [if_neg hcontent, if_neg hcontent'] at h
        obtain ⟨hrest, hend⟩ := ihts hts hus hothers hothers' h
        rw [hchildless (.inr (Bool.eq_false_iff.2 hcontent)),
          hchildless' (.inr (Bool.eq_false_iff.2 hcontent'))]
        exact ⟨⟨⟨hdata, trivial⟩, hrest⟩, hend⟩

end Restorable

/-- Up to the order of attributes trees have one normal form. -/
theorem normalOnto_of_reorderedAll {ts us : List Markup} (h : ReorderedAll ts us)
    (others : List NormalToken) : normalOnto ts others = normalOnto us others := by
  induction ts using forest_induction generalizing us others with
  | nil =>
    cases us with
    | nil => rfl
    | cons => exact h.elim
  | cons l data kids ts ihkids ihts =>
    cases us with
    | nil => exact h.elim
    | cons u us =>
      obtain ⟨l', data', kids'⟩ := u
      obtain ⟨⟨hdata, hkids⟩, hts⟩ := h
      have hinner : normalOnto kids = normalOnto kids' := funext (ihkids hkids)
      rw [normalOnto, normalOnto, Tree.normalOnto, Tree.normalOnto, ihts hts, hinner,
        hdata.normalOnto_eq]

/-- What is written for trees that are read back is equal as HTML exactly if the trees are the same
up to the order of attributes. -/
theorem equalHtml_forestHtml_iff {root : Namespace} {ts us : List Markup}
    (hts : Restorable root ts) (hus : Restorable root us) :
    equalHtml (String.ofList (forestHtml ts)) (String.ofList (forestHtml us)) = true ↔
      ReorderedAll ts us := by
  rw [equalHtml, hts.normalizeHtml, hus.normalizeHtml]
  simp only [beq_iff_eq]
  constructor
  · intro h
    exact (hts.reorderedAll_of_normalOnto hus closesAt_nil closesAt_nil h).1
  · intro h
    exact normalOnto_of_reorderedAll h []

/-! ## documents -/

namespace Dom

/-- A document writes such HTML for a fragment over such trees, in which the names are names, no
comment holds its own end, none but elements with content have children, and the namespaces are
handed down from `root`. -/
def Writes (root : Namespace) (ts : List Markup) (html : String) : Prop :=
  (∃ (dom : Dom) (fragment : NodeId) (q : Option NodeId) (us : List (Tree NodeId)),
    dom.Reached ∧ dom.Holds q (.node fragment .fragment us) ∧ shapes us = ts ∧
      dom.html fragment = html) ∧
  (∀ data ∈ forestData ts, data.isFragment = false → data.Readable) ∧ HousedAll ts ∧
    InheritsAll root ts

/-- What a document writes for trees is what is written for the trees with their texts merged. -/
theorem Writes.merged {root : Namespace} {ts : List Markup} {html : String}
    (h : Writes root ts html) :
    html = String.ofList (forestHtml (mergedAll ts)) ∧ Restorable root (mergedAll ts) := by
  obtain ⟨⟨dom, fragment, q, us, hreached, hholds, rfl, rfl⟩, hreadable, hhoused, hns⟩ := h
  have hcons := hreached.consistent
  constructor
  · rw [forestHtml_mergedAll, forestHtml_shapes]
    exact html_of_holds hholds (hcons.nodup_labels hholds)
  · refine restorable_mergedAll hhoused (fun data hdata => hreadable data hdata ?_) hns
    rw [forestData_shapes] at hdata
    exact (hcons.data_below hholds data hdata).1

/-- What documents write for trees is equal as HTML exactly if the trees are the same with their
texts merged, up to the order of attributes.  So equality of what is written is an equivalence. -/
theorem equalHtml_iff {root : Namespace} {ts us vs : List Markup} {a b c : String}
    (ha : Writes root ts a) (hb : Writes root us b) (hc : Writes root vs c) :
    (equalHtml a b = true ↔ ReorderedAll (mergedAll ts) (mergedAll us)) ∧
      equalHtml a a = true ∧ equalHtml b a = equalHtml a b ∧
      (equalHtml a b = true → equalHtml b c = true → equalHtml a c = true) := by
  obtain ⟨rfl, hts⟩ := ha.merged
  obtain ⟨rfl, hus⟩ := hb.merged
  obtain ⟨rfl, hvs⟩ := hc.merged
  simp only [equalHtml_forestHtml_iff hts hus, equalHtml_forestHtml_iff hus hvs,
    equalHtml_forestHtml_iff hts hvs, equalHtml_forestHtml_iff hts hts]
  exact ⟨trivial, .refl _, equalHtml_comm _ _, .trans⟩

/-- A document with a paragraph. -/
def paragraph : Dom := (({} : Dom).parseHtml "<p id=\"a\" title=\"b\">x&lt;</p>" none).2

/-- What makes a document whose paragraph has its attributes the other way round, and its text in
pieces. -/
def piecing : List Operation :=
  [.parseHtml "<p title=\"b\" id=\"a\">x</p>" none, .create (.text ""),
    .insertBefore ⟨1⟩ ⟨3⟩ none, .create (.text "<"), .insertBefore ⟨1⟩ ⟨4⟩ none]

/-- The trees of the paragraph. -/
def paragraphTrees : List (Tree NodeId) :=
  [.node ⟨1⟩ (.element "p" .xhtml ⟨[("id", "a"), ("title", "b")]⟩) [.node ⟨2⟩ (.text "x<") []]]

/-- The trees of the paragraph in pieces. -/
def pieces : List (Tree NodeId) :=
  [.node ⟨1⟩ (.element "p" .xhtml ⟨[("title", "b"), ("id", "a")]⟩)
    [.node ⟨2⟩ (.text "x") [], .node ⟨3⟩ (.text "") [], .node ⟨4⟩ (.text "<") []]]

theorem equalHtml_iff_paragraph :
    Writes .xhtml (shapes paragraphTrees) "<p id=\"a\" title=\"b\">x&lt;</p>" ∧
      Writes .xhtml (shapes pieces) "<p title=\"b\" id=\"a\">x&lt;</p>" ∧
      ReorderedAll (mergedAll (shapes paragraphTrees)) (mergedAll (shapes pieces)) ∧
      equalHtml "<p id=\"a\" title=\"b\">x&lt;</p>" "<p title=\"b\" id=\"a\">x&lt;</p>" =
        true := by
  have hnodes : paragraph.nodes = #[⟨.fragment, none, [⟨1⟩]⟩,
      ⟨.element "p" .xhtml ⟨[("id", "a"), ("title", "b")]⟩, some ⟨0⟩, [⟨2⟩]⟩,
      ⟨.text "x<", some ⟨1⟩, []⟩] := by
    decide +kernel
  have hnodes' : (piecing.foldl Operation.apply {}).nodes = #[⟨.fragment, none, [⟨1⟩]⟩,
      ⟨.element "p" .xhtml ⟨[("title", "b"), ("id", "a")]⟩, some ⟨0⟩, [⟨2⟩, ⟨3⟩, ⟨4⟩]⟩,
      ⟨.text "x", some ⟨1⟩, []⟩, ⟨.text "", some ⟨1⟩, []⟩, ⟨.text "<", some ⟨1⟩, []⟩] := by
    decide +kernel
  have hreached : paragraph.Reached := .step .empty (.parseHtml _ none) trivial
  have hreached' : (piecing.foldl Operation.apply {}).Reached := by
    refine Reached.empty.operations ⟨trivial, ?_, ?_, ?_, ?_, trivial⟩
    · exact fun _ _ _ h => NodeData.noConfusion h
    · exact ⟨by decide +kernel, by decide +kernel⟩
    · exact fun _ _ _ h => NodeData.noConfusion h
    · exact ⟨by decide +kernel, by decide +kernel⟩
  have hhtml : paragraph.html ⟨0⟩ = "<p id=\"a\" title=\"b\">x&lt;</p>" ∧
      (piecing.foldl Operation.apply {}).html ⟨0⟩ = "<p title=\"b\" id=\"a\">x&lt;</p>" :=
    ⟨by decide +kernel, by decide +kernel⟩
  have hp : IsTagName "p" := ⟨rfl, List.all_eq_true.1 rfl⟩
  have hid : IsAttributeName "id" := ⟨by decide, List.all_eq_true.1 rfl⟩
  have htitle : IsAttributeName "title" := ⟨by decide, List.all_eq_true.1 rfl⟩
  have hcontent : isVoidTag "p" = false := by decide
  have hholds : paragraph.Holds none (.node ⟨0⟩ .fragment paragraphTrees) := by
    simp [paragraphTrees, Holds, HoldsAll, rootLabels, Tree.label, record, size, hnodes]
  have hholds' : (piecing.foldl Operation.apply {}).Holds none (.node ⟨0⟩ .fragment pieces) := by
    simp [pieces, Holds, HoldsAll, rootLabels, Tree.label, record, size, hnodes']
  have hts : Writes .xhtml (shapes paragraphTrees) "<p id=\"a\" title=\"b\">x&lt;</p>" := by
    refine ⟨⟨_, _, _, _, hreached, hholds, rfl, hhtml.1⟩, ?_⟩
    simp [paragraphTrees, shapes, Tree.shape, forestData, Tree.allData, NodeData.Readable,
      HousedAll, Tree.Housed, NodeData.hasContent, NodeData.isElement, NodeData.isFragment,
      InheritsAll, Tree.Inherits, NodeData.Inherits, Namespace.ofElement, Namespace.fixedBy?,
      NodeData.nsBelow, Namespace.below, or_imp, forall_and, hp, hid, htitle, hcontent]
  have hus : Writes .xhtml (shapes pieces) "<p title=\"b\" id=\"a\">x&lt;</p>" := by
    refine ⟨⟨_, _, _, _, hreached', hholds', rfl, hhtml.2⟩, ?_⟩
    simp [pieces, shapes, Tree.shape, forestData, Tree.allData, NodeData.Readable,
      HousedAll, Tree.Housed, NodeData.hasContent, NodeData.isElement, NodeData.isFragment,
      InheritsAll, Tree.Inherits, NodeData.Inherits, Namespace.ofElement, Namespace.fixedBy?,
      NodeData.nsBelow, Namespace.below, or_imp, forall_and, hp, hid, htitle, hcontent]
  have hreordered : ReorderedAll (mergedAll (shapes paragraphTrees)) (mergedAll (shapes pieces)) :=
    ⟨⟨.element "p" .xhtml (.swap _ _ _), ⟨.refl _, trivial⟩, trivial⟩, trivial⟩
  exact ⟨hts, hus, hreordered, (equalHtml_iff hts hus hts).1.2 hreordered⟩

end Dom

end LiveTemplate
