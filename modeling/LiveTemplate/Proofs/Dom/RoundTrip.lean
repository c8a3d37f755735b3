import LiveTemplate.Proofs.Dom.Inheriting
import LiveTemplate.Proofs.Dom.Moving
import LiveTemplate.Proofs.Markup.Tags
import LiveTemplate.Proofs.Program.Skeleton

/-!
# LiveTemplate.Proofs.Dom.RoundTrip

Reading HTML undoes writing it.

Trees are written so that they can be read back if their names are names, if no comment
ends early, if texts are neither empty nor next to each other, and if nothing but elements
with content has children (`LegibleAll`).  What is written for them
is read as their tokens (`reads_forestHtml`).  The namespaces are not written, so they must be
the ones that reading hands down (`InheritsAll`); the tokens then add the trees to whatever is
under construction (`foldl_html_of_spellsAll`).
-/

namespace LiveTemplate

variable {α : Type}

/-! ## legible trees -/

/-- A node that is written so that it can be read back. -/
def NodeData.Legible : NodeData → Prop
  | .element tag _ attributes =>
    IsTagName tag ∧ ∀ entry ∈ attributes.entries, IsAttributeName entry.1
  | .text s => s ≠ ""
  | .comment s => ¬commentEnd <:+: s.toList
  | .fragment => True

mutual

/-- A tree that is written so that it can be read back: none but elements with content have
children. -/
def Tree.Legible : Tree α → Prop
  | .node _ data kids =>
    data.Legible ∧ (data.isElement = false ∨ data.hasContent = false → kids = []) ∧
      LegibleAll kids

/-- Trees that are written so that they can be read back: no two texts follow each other. -/
def LegibleAll : List (Tree α) → Prop
  | [] => True
  | t :: ts =>
    t.Legible ∧ (t.data.isText = true → ∀ u ∈ ts.head?, u.data.isText = false) ∧ LegibleAll ts

end

theorem NodeData.Legible.readable {data : NodeData} (h : data.Legible)
    (hfragment : data.isFragment = false) : data.Readable := by
  cases data with
  | element tag ns attributes => exact h
  | text s => trivial
  | comment s => exact h
  | fragment => cases hfragment

/-- Something other than text begins where a tree is written that is no text. -/
theorem textEndsAt_forestHtml {ts : List (Tree α)} {rest : List Char} (hlegible : LegibleAll ts)
    (hfragment : ∀ data ∈ forestData ts, data.isFragment = false)
    (htext : ∀ u ∈ ts.head?, u.data.isText = false)
    (hrest : rest = [] ∨ Mode.html.textEndsAt rest = true) :
    forestHtml ts ++ rest = [] ∨ Mode.html.textEndsAt (forestHtml ts ++ rest) = true := by
  cases ts with
  | nil => exact hrest
  | cons t ts =>
    obtain ⟨l, data, kids⟩ := t
    have hreadable := hlegible.1.1.readable (hfragment data List.mem_cons_self)
    rw [forestHtml, Tree.html, List.append_assoc]
    exact .inr (hreadable.textEndsAt (htext _ rfl) _ _)

/-! ## reading -/

mutual

/-- The tokens a tree is read as where it is written. -/
def Tree.Spells : Tree α → List Token → Prop
  | .node _ data kids, tokens => data.Spells (SpellsAll kids) tokens

/-- The tokens trees are read as where they are written one after the other. -/
def SpellsAll : List (Tree α) → List Token → Prop
  | [], tokens => tokens = []
  | t :: ts, tokens => ∃ first others, tokens = first ++ others ∧ t.Spells first ∧
      SpellsAll ts others

end

/-- A node is read as it is written, if something other than text follows a text. -/
theorem NodeData.Legible.reads {data : NodeData} {kids : List (Tree α)} {c : Cursor}
    {rest : List Char} (h : data.Legible) (hfragment : data.isFragment = false)
    (hkids : ∀ (d : Cursor) (rest : List Char), d.rest = forestHtml kids ++ rest →
      (rest = [] ∨ Mode.html.textEndsAt rest = true) →
        ∃ e, e.rest = rest ∧ ReadsTokens (SpellsAll kids) d e)
    (hrest : c.rest = data.html (forestHtml kids) ++ rest)
    (hafter : data.isText = true → rest = [] ∨ Mode.html.textEndsAt rest = true) :
    ∃ d, d.rest = rest ∧ ReadsTokens (fun tokens => data.Spells (SpellsAll kids) tokens) c d := by
  cases htext : data.isText with
  | true =>
    obtain ⟨s, rfl⟩ : ∃ s, data = .text s := by
      cases data <;> first | exact ⟨_, rfl⟩ | cases htext
    exact reads_text (fun hs => h (String.toList_eq_nil_iff.1 hs)) hrest (hafter rfl)
  | false => exact reads_html (h.readable hfragment) htext hkids hrest

/-- Trees are read as they are written, if something other than text follows a text. -/
theorem reads_forestHtml {ts : List (Tree α)} (hlegible : LegibleAll ts)
    (hfragment : ∀ data ∈ forestData ts, data.isFragment = false) {c : Cursor} {rest : List Char}
    (hrest : c.rest = forestHtml ts ++ rest)
    (hafter : rest = [] ∨ Mode.html.textEndsAt rest = true) :
    ∃ d, d.rest = rest ∧ ReadsTokens (SpellsAll ts) c d := by
  induction ts using forest_induction generalizing c rest with
  | nil => exact ⟨c, hrest, .nil c rfl⟩
  | cons l data kids ts ihkids ihts =>
    obtain ⟨htree, htexts, hlegible⟩ := hlegible
    simp only [forestData, Tree.allData, List.cons_append, List.mem_cons, List.mem_append]
      at hfragment
    have hts := fun x hx => hfragment x (.inr (.inr hx))
    rw [forestHtml, Tree.html, List.append_assoc] at hrest
    obtain ⟨d, hd, hread⟩ := htree.1.reads (hfragment data (.inl rfl))
      (fun d rest => ihkids htree.2.2 fun x hx => hfragment x (.inr (.inl hx))) hrest
      fun htext => textEndsAt_forestHtml hlegible hts (htexts htext) hafter
    obtain ⟨e, he, hread'⟩ := ihts hlegible hts hd hafter
    exact ⟨e, he, hread.append hread'⟩

/-- What is written for trees is read, as a whole, as their tokens. -/
theorem exists_tokens_forestHtml {ts : List (Tree α)} (hlegible : LegibleAll ts)
    (hfragment : ∀ data ∈ forestData ts, data.isFragment = false) :
    ∃ tokens, tokens? .html (String.ofList (forestHtml ts)) = .ok tokens ∧
      SpellsAll ts tokens := by
  have hstart : (Cursor.ofSource (forestHtml ts)).rest = forestHtml ts ++ [] :=
    (List.append_nil _).symm
  obtain ⟨d, hd, tokens, hread, hspells⟩ := reads_forestHtml hlegible hfragment hstart (.inl rfl)
  refine ⟨tokens, ?_, hspells⟩
  rw [tokens?, Reading.ofSource, String.toList_ofList, hread, readTokens_of_nil hd,
    List.append_nil]

/-! ## building -/

namespace Dict

variable {β : Type}

theorem setEntry_of_not_mem {name : String} {entries : List (String × β)}
    (h : name ∉ entries.map Prod.fst) (value : β) :
    setEntry name value entries = entries ++ [(name, value)] := by
  induction entries with
  | nil => rfl
  | cons entry entries ih =>
    simp only [List.map_cons, List.mem_cons, not_or] at h
    rw [setEntry, if_neg (Ne.symm h.1), ih h.2, List.cons_append]

/-- Setting entries with new names one after the other appends them. -/
theorem foldl_set_eq (entries : List (String × β)) {d : Dict β}
    (h : ((d.entries ++ entries).map Prod.fst).Nodup) :
    entries.foldl (fun d (name, value) => d.set name value) d = ⟨d.entries ++ entries⟩ := by
  induction entries generalizing d with
  | nil => rw [List.append_nil]; rfl
  | cons entry entries ih =>
    obtain ⟨name, value⟩ := entry
    have hname : name ∉ d.entries.map Prod.fst := by
      intro hmem
      rw [List.map_append, List.nodup_append] at h
      exact h.2.2 _ hmem name List.mem_cons_self rfl
    have hset : (d.set name value).entries = d.entries ++ [(name, value)] :=
      setEntry_of_not_mem hname value
    rw [List.foldl_cons, ih (by rw [hset, List.append_assoc]; exact h), hset, List.append_assoc]
    rfl

/-- Setting the entries of a dictionary one after the other makes it again. -/
theorem ofPairs_entries {d : Dict β} (h : d.keys.Nodup) : ofPairs d.entries = d :=
  foldl_set_eq d.entries (d := {}) h

end Dict

/-- Reading a start tag as it is written creates the element it was written for. -/
theorem ofStartTag_eq {t : StartTag} {tag : String} {ns inherited : Namespace}
    {attributes : Dict String} (hname : t.name = tag)
    (hattributes : t.attributes.map (fun a => (a.name, a.value.staticText)) = attributes.entries)
    (hns : ns = .ofElement tag inherited) (hkeys : attributes.keys.Nodup) :
    NodeData.ofStartTag t inherited = .element tag ns attributes := by
  rw [NodeData.ofStartTag, hname, hattributes, Dict.ofPairs_entries hkeys, hns]

/-- An end tag of the innermost element closes that element and no other. -/
theorem Builder.leaveThrough_innermost {b : Builder} {data : NodeData} {p : NodeData → Bool}
    (hinnermost : ∃ o ∈ b.opened.head?, o.data = data) (hp : p data = true) :
    b.leaveThrough p = b.leave := by
  obtain ⟨o, ho, rfl⟩ := hinnermost
  obtain ⟨nodes, opened⟩ := b
  cases opened with
  | nil => cases ho
  | cons o' opened =>
    obtain rfl : o' = o := Option.some.inj ho
    rw [Builder.leaveThrough, List.findIdx?_cons, if_pos hp]
    rfl

/-- The end tag of the innermost open element closes it. -/
theorem Builder.html_endTag (root : Namespace) {b : Builder} {data : NodeData} {tag : String}
    (span : Span) (hinnermost : ∃ o ∈ b.opened.head?, o.data = data)
    (htag : data.tag? = some tag) : b.html root (.endTag tag span) = b.leave :=
  leaveThrough_innermost (p := fun data => data.tag? == some tag) hinnermost (beq_iff_eq.2 htag)

/-- The tokens of a tree add it to what is under construction, if those of its children do that. -/
theorem foldl_html_of_spells {root inherited : Namespace} {l : α} {data : NodeData}
    {kids : List (Tree α)} {tokens : List Token} (h : (Tree.node l data kids).Spells tokens)
    (hchildless : data.isElement = false ∨ data.hasContent = false → kids = [])
    (hfragment : data.isFragment = false) (hnames : data.DistinctNames)
    (hns : data.Inherits inherited)
    (hkids : ∀ (inner : List Token) (b : Builder), SpellsAll kids inner →
      b.inherited root = data.nsBelow →
        inner.foldl (Builder.html root) b = { b with nodes := (shapes kids).reverse ++ b.nodes })
    {b : Builder} (hb : b.inherited root = inherited) :
    tokens.foldl (Builder.html root) b =
      { b with nodes := .node () data (shapes kids) :: b.nodes } := by
  cases data with
  | fragment => cases hfragment
  | text s =>
    obtain rfl := hchildless (.inl rfl)
    obtain ⟨span, rfl⟩ := h
    rfl
  | comment s =>
    obtain rfl := hchildless (.inl rfl)
    obtain ⟨span, rfl⟩ := h
    rfl
  | element tag ns attributes =>
    obtain ⟨start, hname, hattributes, hsingle, h⟩ := h
    have hdata : NodeData.ofStartTag start inherited = .element tag ns attributes :=
      ofStartTag_eq hname hattributes (NodeData.inherits_element.1 hns)
        (hnames tag ns attributes rfl)
    by_cases hcontent : (NodeData.element tag ns attributes).hasContent = true
    · rw [if_pos hcontent] at h
      obtain ⟨inner, span, hinner, rfl⟩ := h
      have hopen : b.html root (.startTag start) = b.enter (.element tag ns attributes) := by
        rw [Builder.html, hb, hdata, hcontent, hsingle]
        rfl
      rw [List.foldl_cons, hopen, List.foldl_append, hkids inner _ hinner rfl, List.foldl_cons,
        List.foldl_nil,
        Builder.html_endTag root span ⟨⟨.element tag ns attributes, b.nodes⟩, rfl, rfl⟩ rfl]
      have hleave := leave_enter b (.element tag ns attributes) (shapes kids)
      rw [Builder.enter] at hleave ⊢
      rw [List.append_nil]
      exact hleave
    · rw [if_neg hcontent] at h
      obtain rfl := h
      obtain rfl := hchildless (.inr (Bool.eq_false_iff.2 hcontent))
      rw [List.foldl_cons, List.foldl_nil, Builder.html, hb, hdata, Bool.eq_false_iff.2 hcontent]
      rfl

/-- The tokens of trees add these trees to whatever is under construction. -/
theorem foldl_html_of_spellsAll {root inherited : Namespace} {ts : List (Tree α)}
    (hlegible : LegibleAll ts)
    (hdata : ∀ data ∈ forestData ts, data.isFragment = false ∧ data.DistinctNames)
    (hns : InheritsAll inherited ts) {tokens : List Token} (h : SpellsAll ts tokens) {b : Builder}
    (hb : b.inherited root = inherited) :
    tokens.foldl (Builder.html root) b = { b with nodes := (shapes ts).reverse ++ b.nodes } := by
  induction ts using forest_induction generalizing inherited tokens b with
  | nil =>
    obtain rfl : tokens = [] := h
    rfl
  | cons l data kids ts ihkids ihts =>
    obtain ⟨first, others, rfl, hfirst, hothers⟩ := h
    obtain ⟨⟨-, hchildless, hkids⟩, -, hts⟩ := hlegible
    obtain ⟨⟨hdatans, hkidsns⟩, htsns⟩ := hns
    simp only [forestData, Tree.allData, List.cons_append, List.mem_cons, List.mem_append]
      at hdata
    have hself := hdata data (.inl rfl)
    have htree := foldl_html_of_spells hfirst hchildless hself.1 hself.2 hdatans
      (fun inner b hinner => ihkids hkids (fun x hx => hdata x (.inr (.inl hx))) hkidsns hinner) hb
    rw [List.foldl_append, htree,
      ihts hts (fun x hx => hdata x (.inr (.inr hx))) htsns hothers
        (b := { b with nodes := .node () data (shapes kids) :: b.nodes }) hb,
      shapes, Tree.shape, List.reverse_cons, List.append_assoc]
    rfl

/-- What is written for trees describes these trees. -/
theorem forestOfHtml_forestHtml {root : Namespace} {ts : List (Tree α)} (hlegible : LegibleAll ts)
    (hdata : ∀ data ∈ forestData ts, data.isFragment = false ∧ data.DistinctNames)
    (hns : InheritsAll root ts) :
    forestOfHtml root (String.ofList (forestHtml ts)) = shapes ts := by
  obtain ⟨tokens, hread, hspells⟩ :=
    exists_tokens_forestHtml hlegible fun data hmem => (hdata data hmem).1
  rw [forestOfHtml, hread]
  simp only
  rw [foldl_html_of_spellsAll hlegible hdata hns hspells rfl, List.append_nil]
  exact List.reverse_reverse _

/-! ## documents -/

namespace Dom

variable {dom : Dom}

/-- A node below one without a parent is not below its own children. -/
theorem IsBelow.not_isBelow_child {q top x : NodeId} (h : dom.IsBelow q top)
    (htop : dom.parent? top = none) (hx : dom.parent? x = some q) : ¬dom.IsBelow q x := by
  induction h generalizing x with
  | refl top =>
    rintro (_ | ⟨hparent, -⟩)
    · rw [htop] at hx
      cases hx
    · rw [htop] at hparent
      cases hparent
  | @parent q p top hparent _ ih =>
    intro hbelow
    refine ih htop hparent ?_
    rcases hbelow with _ | ⟨hparent', hbelow⟩
    · rw [hparent] at hx
      cases hx
      exact .refl _
    · rw [hparent] at hparent'
      cases hparent'
      exact hbelow.trans (.parent hx (.refl q))

/-- Of two nodes above one another one is above the other one. -/
theorem IsBelow.total {x a b : NodeId} (ha : dom.IsBelow x a) (hb : dom.IsBelow x b) :
    dom.IsBelow a b ∨ dom.IsBelow b a := by
  induction ha with
  | refl x => exact .inl hb
  | parent hparent hbelow ih =>
    rcases hb with _ | ⟨hparent', hb⟩
    · exact .inr (.parent hparent hbelow)
    · rw [hparent] at hparent'
      cases hparent'
      exact ih hb

/-- A node below one without a parent stands below no more than one of its siblings. -/
theorem IsBelow.eq_of_siblings {x a b q top : NodeId} (ha : dom.IsBelow x a) (hb : dom.IsBelow x b)
    (hparent : dom.parent? a = some q) (hparent' : dom.parent? b = some q)
    (hq : dom.IsBelow q top) (htop : dom.parent? top = none) : a = b := by
  rcases ha.total hb with hbelow | hbelow
  · rcases hbelow with _ | ⟨hown, hbelow⟩
    · rfl
    · rw [hparent] at hown
      cases hown
      exact absurd hbelow (hq.not_isBelow_child htop hparent')
  · rcases hbelow with _ | ⟨hown, hbelow⟩
    · rfl
    · rw [hparent'] at hown
      cases hown
      exact absurd hbelow (hq.not_isBelow_child htop hparent)

/-- Trees that are held below a node that stands below one without a parent hold no node twice. -/
theorem Linked.nodup_forestLabels (h : dom.Linked) {q top : NodeId} {ts : List (Tree NodeId)}
    (hholds : dom.HoldsAll (some q) ts) (hroots : (rootLabels ts).Nodup)
    (hq : dom.IsBelow q top) (htop : dom.parent? top = none) : (forestLabels ts).Nodup := by
  induction ts using forest_induction generalizing q with
  | nil => exact List.nodup_nil
  | cons id data kids ts ihkids ihts =>
    obtain ⟨⟨-, hrecord, hkids⟩, hts⟩ := hholds
    rw [rootLabels_cons, List.nodup_cons] at hroots
    have hid : dom.parent? id = some q := by rw [Dom.parent?, hrecord]
    have hkidsroots : (rootLabels kids).Nodup := by
      have hnodup := h.nodup_children id
      rwa [children_of_record hrecord] at hnodup
    have hbelow : ∀ x ∈ forestLabels kids, dom.IsBelow x id :=
      hkids.isBelow fun x hx => .parent (hkids.parent?_eq hx) (.refl id)
    have hself : id ∉ forestLabels kids := by
      intro hmem
      obtain ⟨p, hp, hpbelow⟩ : ∃ p, dom.parent? id = some p ∧ dom.IsBelow p id := by
        rcases hkids.root_or_parent hmem with hroot | ⟨p, hp, hparent⟩
        · exact ⟨id, hkids.parent?_eq hroot, .refl id⟩
        · exact ⟨p, hparent, hbelow p hp⟩
      rw [hid] at hp
      cases hp
      exact hq.not_isBelow_child htop hid hpbelow
    -- A node below two siblings would make the parent stand below one of them.
    have hapart : ∀ x, dom.IsBelow x id → x ∉ forestLabels ts := by
      intro x hx hmem
      obtain ⟨t, ht, hxt⟩ := mem_forestLabels.1 hmem
      have hroot : t.label ∈ rootLabels ts := List.mem_map_of_mem ht
      have htree : dom.HoldsAll (some q) [t] := ⟨holdsAll_iff.1 hts t ht, trivial⟩
      have hxroot : dom.IsBelow x t.label :=
        htree.isBelow (by simpa using IsBelow.refl t.label) x (by simpa [forestLabels] using hxt)
      have heq : id = t.label :=
        hx.eq_of_siblings hxroot hid (hts.parent?_eq hroot) hq htop
      exact hroots.1 (heq ▸ hroot)
    simp only [forestLabels, Tree.labels, List.cons_append, List.nodup_cons, List.mem_append,
      not_or, List.nodup_append]
    refine ⟨⟨hself, hapart id (.refl id)⟩, ihkids hkids hkidsroots (.parent hid hq),
      ihts hts hroots.2 hq, ?_⟩
    rintro x hx _ hx' rfl
    exact hapart x (hbelow x hx) hx'

/-- Every node that is held below another one has a parent. -/
theorem HoldsAll.exists_parent {q : NodeId} {ts : List (Tree NodeId)}
    (h : dom.HoldsAll (some q) ts) {x : NodeId} (hx : x ∈ forestLabels ts) :
    ∃ p, dom.parent? x = some p := by
  rcases h.root_or_parent hx with hroot | ⟨p, -, hparent⟩
  · exact ⟨q, h.parent?_eq hroot⟩
  · exact ⟨p, hparent⟩

namespace Consistent

variable {fragment : NodeId} {q : Option NodeId} {ts : List (Tree NodeId)}

theorem parent?_fragment (h : dom.Consistent)
    (hholds : dom.Holds q (.node fragment .fragment ts)) : dom.parent? fragment = none := by
  cases hparent : dom.parent? fragment with
  | none => rfl
  | some p =>
    have hfragment := h.not_isFragment fragment p hparent
    rw [data_of_record hholds.2.1] at hfragment
    cases hfragment

/-- A fragment and the trees below it hold no node twice. -/
theorem nodup_labels (h : dom.Consistent) (hholds : dom.Holds q (.node fragment .fragment ts)) :
    (fragment :: forestLabels ts).Nodup := by
  have htop := h.parent?_fragment hholds
  have hroots : (rootLabels ts).Nodup := by
    have hnodup := h.linked.nodup_children fragment
    rwa [children_of_record hholds.2.1] at hnodup
  refine List.nodup_cons.2 ⟨fun hmem => ?_,
    h.linked.nodup_forestLabels hholds.2.2 hroots (.refl fragment) htop⟩
  obtain ⟨p, hp⟩ := hholds.2.2.exists_parent hmem
  rw [htop] at hp
  cases hp

/-- The nodes below a fragment are no fragments, and none has an attribute twice. -/
theorem data_below (h : dom.Consistent) (hholds : dom.Holds q (.node fragment .fragment ts)) :
    ∀ data ∈ forestData ts, data.isFragment = false ∧ data.DistinctNames := by
  intro data hmem
  obtain ⟨x, hx, rfl⟩ := hholds.2.2.exists_of_mem_data hmem
  obtain ⟨p, hp⟩ := hholds.2.2.exists_parent hx
  exact ⟨h.not_isFragment x p hp, h.distinctNames x⟩

end Consistent

/-- Reading what a document writes for a fragment, as the content of any element or of none, makes a
new fragment with the same trees, if they are legible and in the namespaces that are handed down to
them there. -/
theorem parseHtml_html (h : dom.Reached) {fragment : NodeId} {q : Option NodeId}
    {ts : List (Tree NodeId)} (hholds : dom.Holds q (.node fragment .fragment ts))
    (context : Option NodeId) (hlegible : LegibleAll ts)
    (hns : InheritsAll (dom.nsBelow context) ts) :
    ∃ us, dom.FragmentPlanted (dom.parseHtml (dom.html fragment) context).2
        (dom.parseHtml (dom.html fragment) context).1 us ∧
      shapes us = shapes ts := by
  have hcons := h.consistent
  have hhtml : dom.html fragment = String.ofList (forestHtml ts) :=
    html_of_holds hholds (hcons.nodup_labels hholds)
  have hforest : forestOfHtml (dom.nsBelow context) (dom.html fragment) = shapes ts := by
    rw [hhtml, forestOfHtml_forestHtml hlegible (hcons.data_below hholds) hns]
  have hplanted := dom.planted_plantFragment
    (plantableAll_forestOfHtml (dom.nsBelow context) (dom.html fragment))
  exact ⟨_, hplanted, by rw [shapes_numberForest, hforest]⟩

/-- A document with a drawing, whose title holds HTML and a text with a reference in it. -/
def drawing : Dom :=
  (({} : Dom).parseHtml "<svg><title id=\"a&quot;\"><br>x</title></svg><!-- - -->" none).2.setText
    ⟨4⟩ "x < y &lt; z"

/-- The trees below the fragment of the drawing. -/
def drawingTrees : List (Tree NodeId) :=
  [.node ⟨1⟩ (.element "svg" .svg {}) [
    .node ⟨2⟩ (.element "title" .svg ⟨[("id", "a\"")]⟩) [
      .node ⟨3⟩ (.element "br" .xhtml {}) [],
      .node ⟨4⟩ (.text "x < y &lt; z") []]],
    .node ⟨5⟩ (.comment " - ") []]

theorem parseHtml_html_drawing :
    drawing.Reached ∧ drawing.Holds none (.node ⟨0⟩ .fragment drawingTrees) ∧
      LegibleAll drawingTrees ∧ InheritsAll (drawing.nsBelow none) drawingTrees ∧
      ∃ us, drawing.FragmentPlanted (drawing.parseHtml (drawing.html ⟨0⟩) none).2
          (drawing.parseHtml (drawing.html ⟨0⟩) none).1 us ∧
        shapes us = shapes drawingTrees := by
  have hreached : drawing.Reached :=
    .step (.step .empty (.parseHtml _ none) trivial) (.setText ⟨4⟩ _) trivial
  have hnodes : drawing.nodes = #[⟨.fragment, none, [⟨1⟩, ⟨5⟩]⟩,
      ⟨.element "svg" .svg {}, some ⟨0⟩, [⟨2⟩]⟩,
      ⟨.element "title" .svg ⟨[("id", "a\"")]⟩, some ⟨1⟩, [⟨3⟩, ⟨4⟩]⟩,
      ⟨.element "br" .xhtml {}, some ⟨2⟩, []⟩,
      ⟨.text "x < y &lt; z", some ⟨2⟩, []⟩,
      ⟨.comment " - ", some ⟨0⟩, []⟩] := by
    decide +kernel
  have hholds : drawing.Holds none (.node ⟨0⟩ .fragment drawingTrees) := by
    simp [drawingTrees, Holds, HoldsAll, rootLabels, Tree.label, record, size, hnodes]
  have htags : IsTagName "svg" ∧ IsTagName "title" ∧ IsTagName "br" :=
    ⟨⟨rfl, List.all_eq_true.1 rfl⟩, ⟨rfl, List.all_eq_true.1 rfl⟩, ⟨rfl, List.all_eq_true.1 rfl⟩⟩
  have hname : IsAttributeName "id" := ⟨by decide, List.all_eq_true.1 rfl⟩
  have hcomment : ¬commentEnd <:+: [' ', '-', ' '] := by decide
  have hcontent : (NodeData.element "svg" .svg {}).hasContent = true ∧
      (NodeData.element "title" .svg ⟨[("id", "a\"")]⟩).hasContent = true :=
    ⟨by decide, by decide⟩
  have hlegible : LegibleAll drawingTrees := by
    simp [drawingTrees, LegibleAll, Tree.Legible, NodeData.Legible, Tree.data, NodeData.isElement,
      NodeData.isText, htags, hname, hcomment, hcontent]
  have hns : InheritsAll (drawing.nsBelow none) drawingTrees := by
    simp [drawingTrees, InheritsAll, Tree.Inherits, NodeData.Inherits, NodeData.nsBelow, nsBelow,
      Namespace.ofElement, Namespace.fixedBy?, Namespace.below, isSvgIntegrationPoint]
  exact ⟨hreached, hholds, hlegible, hns, parseHtml_html hreached hholds none hlegible hns⟩

end Dom

end LiveTemplate
