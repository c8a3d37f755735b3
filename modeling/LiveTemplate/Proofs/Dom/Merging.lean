import LiveTemplate.Proofs.Dom.RoundTrip

/-!
# LiveTemplate.Proofs.Dom.Merging

Trees with their texts merged.

Texts that are empty are not written, and texts next to each other are written as one.
Merging them (`mergedAll`) changes nothing of what is written (`forestHtml_mergedAll`) and
leaves trees that are read back as they are (`restorable_mergedAll`).
-/

namespace LiveTemplate

variable {α : Type}

/-! ## merging texts -/

/-- Puts a text in front of trees, joining it to a text that comes first there. -/
def consText (s : String) : List Markup → List Markup
  | .node _ (.text t) _ :: ts => .node () (.text (s ++ t)) [] :: ts
  | ts => .node () (.text s) [] :: ts

/-- A node in front of merged trees, with merged children.  An empty text is left out. -/
def NodeData.mergedOnto (kids others : List Markup) : NodeData → List Markup
  | .text s => if s = "" then others else consText s others
  | data => .node () data kids :: others

mutual

/-- A tree in front of merged trees, with its own texts merged. -/
def Tree.mergedOnto : Markup → List Markup → List Markup
  | .node _ data kids, others => data.mergedOnto (mergedAll kids) others

/-- Trees without their empty texts, and with texts next to each other as one. -/
def mergedAll : List Markup → List Markup
  | [] => []
  | t :: ts => t.mergedOnto (mergedAll ts)

end

mutual

/-- None but elements with content have children. -/
def Tree.Housed : Tree α → Prop
  | .node _ data kids => (data.isElement = false ∨ data.hasContent = false → kids = []) ∧
      HousedAll kids

/-- Trees in which none but elements with content have children. -/
def HousedAll : List (Tree α) → Prop
  | [] => True
  | t :: ts => t.Housed ∧ HousedAll ts

end

theorem forestHtml_consText (s : String) {ts : List Markup} :
    forestHtml (consText s ts) = escape .content s.toList ++ forestHtml ts := by
  rw [consText.eq_def]
  split
  · rw [forestHtml, forestHtml, Tree.html, Tree.html, NodeData.html, NodeData.html,
      String.toList_append, escape_append, List.append_assoc]
  · rw [forestHtml, Tree.html, NodeData.html]

/-- Merging texts changes nothing of what is written. -/
theorem forestHtml_mergedAll (ts : List Markup) : forestHtml (mergedAll ts) = forestHtml ts := by
  induction ts using forest_induction with
  | nil => rfl
  | cons _ data kids ts ihkids ihts =>
    rw [mergedAll, Tree.mergedOnto, forestHtml, Tree.html, ← ihts, ← ihkids]
    cases data with
    | text s =>
      rw [NodeData.mergedOnto, NodeData.html]
      split
      · next h =>
        subst h
        rfl
      · exact forestHtml_consText s
    | element | comment | fragment => rfl

/-! ## trees that are told apart -/

/-- Trees that are read back as they are where `inherited` is handed down. -/
structure Restorable (inherited : Namespace) (ts : List (Tree α)) : Prop where
  legible : LegibleAll ts
  not_isFragment : ∀ data ∈ forestData ts, data.isFragment = false
  inherits : InheritsAll inherited ts

theorem restorable_nil (inherited : Namespace) : Restorable inherited ([] : List (Tree α)) :=
  ⟨trivial, fun _ h => absurd h List.not_mem_nil, trivial⟩

/-- Trees are read back if the first one is, with its children, and the others are. -/
theorem restorable_cons_iff {inherited : Namespace} {l : α} {data : NodeData}
    {kids ts : List (Tree α)} :
    Restorable inherited (.node l data kids :: ts) ↔
      (data.Legible ∧ data.isFragment = false ∧ data.Inherits inherited ∧
        (data.isElement = false ∨ data.hasContent = false → kids = []) ∧
        (data.isText = true → ∀ u ∈ ts.head?, u.data.isText = false)) ∧
      Restorable data.nsBelow kids ∧ Restorable inherited ts := by
  constructor
  · rintro ⟨⟨⟨hown, hchildless, hkids⟩, htexts, hts⟩, hfragment, ⟨hns, hkidsns⟩, htsns⟩
    simp only [forestData, Tree.allData, List.cons_append, List.mem_cons, List.mem_append]
      at hfragment
    exact ⟨⟨hown, hfragment data (.inl rfl), hns, hchildless, htexts⟩,
      ⟨hkids, fun x hx => hfragment x (.inr (.inl hx)), hkidsns⟩,
      ⟨hts, fun x hx => hfragment x (.inr (.inr hx)), htsns⟩⟩
  · rintro ⟨⟨hown, hself, hns, hchildless, htexts⟩, hkids, hts⟩
    refine ⟨⟨⟨hown, hchildless, hkids.legible⟩, htexts, hts.legible⟩, fun x hx => ?_,
      ⟨hns, hkids.inherits⟩, hts.inherits⟩
    simp only [forestData, Tree.allData, List.cons_append, List.mem_cons, List.mem_append] at hx
    rcases hx with rfl | hx | hx
    · exact hself
    · exact hkids.not_isFragment x hx
    · exact hts.not_isFragment x hx

/-- A text in front of trees, joined to one that comes first there, is read back with them. -/
theorem Restorable.consText {inherited : Namespace} {s : String} (hs : s ≠ "") {ts : List Markup}
    (h : Restorable inherited ts) : Restorable inherited (consText s ts) := by
  have htext : ∀ t : String, (NodeData.text t).Inherits inherited := fun t =>
    NodeData.inherits_of_not_isElement rfl inherited
  rw [consText.eq_def]
  split
  · next t kids us =>
    obtain ⟨⟨-, -, -, -, htexts⟩, -, hus⟩ := restorable_cons_iff.1 h
    have hst : s ++ t ≠ "" := fun hempty => hs (String.append_eq_empty_iff.1 hempty).1
    exact restorable_cons_iff.2
      ⟨⟨hst, rfl, htext _, fun _ => rfl, htexts⟩, restorable_nil _, hus⟩
  · next hno =>
    refine restorable_cons_iff.2
      ⟨⟨hs, rfl, htext _, fun _ => rfl, fun _ u hu => ?_⟩, restorable_nil _, h⟩
    cases ts with
    | nil => cases hu
    | cons t us =>
      obtain ⟨l, data, kids⟩ := t
      cases hu
      cases data with
      | text t => exact (hno l t kids us rfl).elim
      | element | comment | fragment => rfl

/-- Merged trees are read back, if the names in them are names, no comment ends early, none but
elements with content have children, and the namespaces are handed down. -/
theorem restorable_mergedAll {inherited : Namespace} {ts : List Markup} (hhoused : HousedAll ts)
    (hreadable : ∀ data ∈ forestData ts, data.Readable) (hns : InheritsAll inherited ts) :
    Restorable inherited (mergedAll ts) := by
  induction ts using forest_induction generalizing inherited with
  | nil => exact restorable_nil inherited
  | cons _ data kids ts ihkids ihts =>
    obtain ⟨⟨hchildless, hkids⟩, hts⟩ := hhoused
    obtain ⟨⟨hdatans, hkidsns⟩, htsns⟩ := hns
    simp only [forestData, Tree.allData, List.cons_append, List.mem_cons, List.mem_append]
      at hreadable
    have hothers := ihts hts (fun x hx => hreadable x (.inr (.inr hx))) htsns
    have hinner := ihkids hkids (fun x hx => hreadable x (.inr (.inl hx))) hkidsns
    have hself := hreadable data (.inl rfl)
    have hkept : data.isElement = false ∨ data.hasContent = false → mergedAll kids = [] := by
      intro h
      rw [hchildless h]
      rfl
    rw [mergedAll, Tree.mergedOnto]
    cases data with
    | text s =>
      rw [NodeData.mergedOnto]
      split
      · exact hothers
      · next hs => exact hothers.consText hs
    | element tag ns attributes =>
      exact restorable_cons_iff.2
        ⟨⟨hself, rfl, hdatans, hkept, fun htext => absurd htext Bool.false_ne_true⟩, hinner,
          hothers⟩
    | comment s =>
      exact restorable_cons_iff.2
        ⟨⟨hself, rfl, hdatans, hkept, fun htext => absurd htext Bool.false_ne_true⟩, hinner,
          hothers⟩
    | fragment => exact hself.elim

end LiveTemplate
