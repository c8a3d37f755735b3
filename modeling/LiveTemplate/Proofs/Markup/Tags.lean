import LiveTemplate.Markup.Normal
import LiveTemplate.Proofs.Dom.Operations
import LiveTemplate.Proofs.Markup.Spelling

/-!
# LiveTemplate.Proofs.Markup.Tags

The tags that are read where trees are written.

Texts may be empty and follow each other in trees, so that they are not read back as they
are.  But escaped texts end where something else begins, whatever they are, so the tags and
comments that are read are those of the trees (`normalizeHtml_forestHtml`): their texts take
no part in it.
-/

namespace LiveTemplate

variable {α : Type}

/-! ## tags -/

namespace NormalToken

def isText : NormalToken → Bool
  | text _ => true
  | startTag .. | endTag _ | comment _ => false

/-- Tokens with the texts left out. -/
def withoutTexts (tokens : List NormalToken) : List NormalToken := tokens.filter (!·.isText)

end NormalToken

/-- The tags and the comment that a token stands for in normal form. -/
def Token.tags : Token → List NormalToken
  | .startTag tag =>
    let start := NormalToken.startTag tag.name (sortedAttributes tag.attributes)
    if tag.selfClosing && !isVoidTag tag.name then [start, .endTag tag.name] else [start]
  | .endTag name _ => [.endTag name]
  | .comment s _ => [.comment s]
  | .text .. | .mustache _ => []

/-- In normal form tokens stand for their tags and comments, apart from the texts. -/
theorem withoutTexts_ofTokens (tokens : List Token) :
    NormalToken.withoutTexts (NormalToken.ofTokens tokens) = tokens.flatMap Token.tags := by
  have hcons : ∀ s tokens, NormalToken.withoutTexts (NormalToken.consText s tokens) =
      NormalToken.withoutTexts tokens := by
    intro s tokens
    rw [NormalToken.consText.eq_def]
    split <;> rfl
  induction tokens with
  | nil => rfl
  | cons token tokens ih =>
    rw [List.flatMap_cons, ← ih]
    cases token with
    | startTag tag =>
      rw [NormalToken.ofTokens, Token.tags]
      split <;> rfl
    | endTag name span => rfl
    | text s span => exact hcons s _
    | comment s span => rfl
    | mustache m => rfl

/-- What is written of a node before and after its children, in tags and comments. -/
def NodeData.tags (content : List NormalToken) : NodeData → List NormalToken
  | .text _ => []
  | .comment s => [.comment s]
  | .fragment => content
  | .element tag ns attributes =>
    let start := NormalToken.startTag tag (attributes.entries.mergeSort attributeLE)
    if (NodeData.element tag ns attributes).hasContent then start :: content ++ [.endTag tag]
    else [start]

mutual

/-- The tags and comments that are written for a tree. -/
def Tree.tags : Tree α → List NormalToken
  | .node _ data children => data.tags (forestTags children)

/-- The tags and comments that are written for trees, one after the other. -/
def forestTags : List (Tree α) → List NormalToken
  | [] => []
  | t :: ts => t.tags ++ forestTags ts

end

theorem forestTags_append (ts us : List (Tree α)) :
    forestTags (ts ++ us) = forestTags ts ++ forestTags us := by
  induction ts with
  | nil => rfl
  | cons t ts ih => rw [List.cons_append, forestTags, forestTags, ih, List.append_assoc]

/-- The labels of trees are not written. -/
theorem forestTags_shapes (ts : List (Tree α)) : forestTags (shapes ts) = forestTags ts := by
  induction ts using forest_induction with
  | nil => rfl
  | cons _ data kids ts ihkids ihts =>
    rw [shapes, Tree.shape, forestTags, forestTags, Tree.tags, Tree.tags, ihkids, ihts]

/-- Without their labels trees have the same nodes. -/
theorem forestData_shapes (ts : List (Tree α)) : forestData (shapes ts) = forestData ts := by
  induction ts using forest_induction with
  | nil => rfl
  | cons _ data kids ts ihkids ihts =>
    rw [shapes, Tree.shape, forestData, forestData, Tree.allData, Tree.allData, ihkids, ihts]

/-! ## reading -/

/-- A node that is written so that its tags or its comment are read: the names in it are names, and
a comment does not end early. -/
def NodeData.Readable : NodeData → Prop
  | .element tag _ attributes =>
    IsTagName tag ∧ ∀ entry ∈ attributes.entries, IsAttributeName entry.1
  | .comment s => ¬commentEnd <:+: s.toList
  | .text _ => True
  | .fragment => False

/-- Something other than text begins where an element or a comment is written. -/
theorem NodeData.Readable.textEndsAt {data : NodeData} (h : data.Readable)
    (htext : data.isText = false) (content rest : List Char) :
    Mode.html.textEndsAt (data.html content ++ rest) = true := by
  cases data with
  | element tag ns attributes =>
    obtain ⟨x, xs, hxs, hx⟩ := h.1.exists_cons
    have hhead : ∃ s,
        (NodeData.element tag ns attributes).html content ++ rest = '<' :: x :: s := by
      rw [NodeData.html]
      split <;> rw [startTagHtml, hxs] <;> exact ⟨_, rfl⟩
    obtain ⟨s, hhead⟩ := hhead
    rw [hhead]
    simp [Mode.textEndsAt, tagStandsAt, hx]
  | text s => cases htext
  | comment s => rfl
  | fragment => exact h.elim

/-- From one cursor to another a source reads as tokens with a property. -/
def ReadsTokens (p : List Token → Prop) (c d : Cursor) : Prop :=
  ∃ tokens : List Token,
    readTokens .html c = ⟨tokens ++ (readTokens .html d).tokens, (readTokens .html d).error?⟩ ∧
      p tokens

namespace ReadsTokens

variable {c d e : Cursor} {p q : List Token → Prop}

theorem nil (c : Cursor) (h : p []) : ReadsTokens p c c := ⟨[], rfl, h⟩

/-- Tokens that are read one after the other are read. -/
theorem append (h : ReadsTokens p c d) (k : ReadsTokens q d e) :
    ReadsTokens (fun tokens => ∃ first others, tokens = first ++ others ∧ p first ∧ q others)
      c e := by
  obtain ⟨first, hread, hp⟩ := h
  obtain ⟨others, kread, hq⟩ := k
  refine ⟨first ++ others, ?_, first, others, rfl, hp, hq⟩
  rw [hread, kread, List.append_assoc]

/-- One token is read. -/
theorem token {token : Token} (hne : c.rest ≠ []) (hread : readToken .html c = .ok (token, d)) :
    ReadsTokens (· = [token]) c d := by
  refine ⟨[token], ?_, rfl⟩
  rw [readTokens_of_readToken hne hread]
  rfl

theorem mono (h : ReadsTokens p c d) (himp : ∀ tokens, p tokens → q tokens) :
    ReadsTokens q c d := by
  obtain ⟨tokens, hread, hp⟩ := h
  exact ⟨tokens, hread, himp tokens hp⟩

end ReadsTokens

/-- The tokens a node is read as where it is written, with those of its children between them. -/
def NodeData.Spells (content : List Token → Prop) (tokens : List Token) : NodeData → Prop
  | .text s => ∃ span, tokens = [.text s span]
  | .comment s => ∃ span, tokens = [.comment s span]
  | .fragment => content tokens
  | .element tag ns attributes =>
    ∃ start : StartTag, start.name = tag ∧
      start.attributes.map (fun a => (a.name, a.value.staticText)) = attributes.entries ∧
      start.selfClosing = false ∧
      if (NodeData.element tag ns attributes).hasContent then
        ∃ inner span, content inner ∧ tokens = .startTag start :: (inner ++ [.endTag tag span])
      else tokens = [.startTag start]

variable {c : Cursor} {rest : List Char}

/-- An escaped text in front of something else is read as it is. -/
theorem reads_text {s : String} (hs : s.toList ≠ [])
    (hrest : c.rest = escape .content s.toList ++ rest)
    (hafter : rest = [] ∨ Mode.html.textEndsAt rest = true) :
    ∃ d, d.rest = rest ∧ ReadsTokens (fun tokens => ∃ span, tokens = [.text s span]) c d := by
  obtain ⟨span, d, hread, hd⟩ := readToken_text hs hrest hafter
  have hne : c.rest ≠ [] := by
    rw [hrest]
    exact List.append_ne_nil_of_left_ne_nil (escape_ne_nil hs) _
  exact ⟨d, hd, (ReadsTokens.token hne hread).mono fun _ h => ⟨span, h⟩⟩

/-- A node other than a text is read as its tokens, if its content is read. -/
theorem reads_html {data : NodeData} (h : data.Readable) (htext : data.isText = false)
    {content : List Char} {p : List Token → Prop}
    (hcontent : ∀ (d : Cursor) (rest : List Char), d.rest = content ++ rest →
      (rest = [] ∨ Mode.html.textEndsAt rest = true) → ∃ e, e.rest = rest ∧ ReadsTokens p d e)
    (hrest : c.rest = data.html content ++ rest) :
    ∃ d, d.rest = rest ∧ ReadsTokens (fun tokens => data.Spells p tokens) c d := by
  cases data with
  | fragment => exact h.elim
  | text s => cases htext
  | comment s =>
    have hrest' : c.rest = ['<', '!', '-', '-'] ++ (s.toList ++ commentEnd ++ rest) := by
      rw [hrest, NodeData.html, commentEnd]
      simp
    obtain ⟨span, d, hread, hd⟩ := readToken_comment h hrest'
    have hne : c.rest ≠ [] := by
      rw [hrest]
      exact List.cons_ne_nil _ _
    exact ⟨d, hd, (ReadsTokens.token hne hread).mono fun _ h => ⟨span, h⟩⟩
  | element tag ns attributes =>
    have hne : c.rest ≠ [] := by
      rw [hrest, NodeData.html]
      split <;> exact List.cons_ne_nil _ _
    rw [NodeData.html] at hrest
    by_cases hhas : (NodeData.element tag ns attributes).hasContent = true
    · rw [if_pos hhas, List.append_assoc, List.append_assoc, List.append_assoc,
        List.append_assoc] at hrest
      obtain ⟨start, d, hstart, hname, hattributes, hsingle, hd⟩ :=
        readToken_startTag h.1 h.2 hrest
      -- The end tag begins something, so the content is read up to it, whatever it is.
      have hboundary : Mode.html.textEndsAt
          (['<', '/'] ++ (tag.toList ++ (['>'] ++ rest))) = true := by
        obtain ⟨x, xs, hxs, hx⟩ := h.1.exists_cons
        simp [hxs, Mode.textEndsAt, tagStandsAt, hx]
      obtain ⟨e, he, hinner⟩ := hcontent d _ hd (.inr hboundary)
      obtain ⟨span, f, hstop, hf⟩ := readToken_endTag .html h.1 he
      have hne' : e.rest ≠ [] := by
        rw [he]
        exact List.cons_ne_nil _ _
      have hread := (ReadsTokens.token hne hstart).append (hinner.append (.token hne' hstop))
      refine ⟨f, hf, hread.mono ?_⟩
      rintro tokens ⟨_, _, rfl, rfl, inner, _, rfl, hspells, rfl⟩
      refine ⟨start, hname, hattributes, hsingle, ?_⟩
      rw [if_pos hhas]
      exact ⟨inner, span, hspells, rfl⟩
    · rw [if_neg hhas] at hrest
      obtain ⟨start, d, hstart, hname, hattributes, hsingle, hd⟩ :=
        readToken_startTag h.1 h.2 hrest
      refine ⟨d, hd, (ReadsTokens.token hne hstart).mono fun tokens h => ?_⟩
      refine ⟨start, hname, hattributes, hsingle, ?_⟩
      rw [if_neg hhas]
      exact h

/-- The tokens of a node have its tags, if those of its content do. -/
theorem NodeData.Spells.tags_eq {data : NodeData} {tags : List NormalToken} {tokens : List Token}
    (h : data.Spells (fun inner => inner.flatMap Token.tags = tags) tokens) :
    tokens.flatMap Token.tags = data.tags tags := by
  cases data with
  | text s =>
    obtain ⟨span, rfl⟩ := h
    rfl
  | comment s =>
    obtain ⟨span, rfl⟩ := h
    rfl
  | fragment => exact h
  | element tag ns attributes =>
    obtain ⟨start, rfl, hattributes, hsingle, h⟩ := h
    have hstart : Token.tags (.startTag start) =
        [.startTag start.name (attributes.entries.mergeSort attributeLE)] := by
      rw [Token.tags, sortedAttributes, hattributes, hsingle]
      rfl
    rw [NodeData.tags]
    split at h
    · next hhas =>
      obtain ⟨inner, span, rfl, rfl⟩ := h
      rw [if_pos hhas, List.flatMap_cons, List.flatMap_append, hstart]
      rfl
    · next hhas =>
      rw [h, if_neg hhas, List.flatMap_cons, hstart]
      rfl

/-- From one cursor to another a source reads as tokens with these tags and comments. -/
def ReadsTags (c d : Cursor) (tags : List NormalToken) : Prop :=
  ∃ tokens : List Token,
    readTokens .html c = ⟨tokens ++ (readTokens .html d).tokens, (readTokens .html d).error?⟩ ∧
      tokens.flatMap Token.tags = tags

namespace ReadsTags

variable {d e : Cursor} {tags tags' : List NormalToken}

theorem refl (c : Cursor) : ReadsTags c c [] := ReadsTokens.nil c rfl

theorem append (h : ReadsTags c d tags) (k : ReadsTags d e tags') :
    ReadsTags c e (tags ++ tags') :=
  (ReadsTokens.append h k).mono fun _ ⟨first, others, htokens, hfirst, hothers⟩ => by
    rw [htokens, List.flatMap_append, hfirst, hothers]

end ReadsTags

/-- An escaped text in front of something else is read without tags. -/
theorem readsTags_text {s : List Char} (hrest : c.rest = escape .content s ++ rest)
    (hafter : rest = [] ∨ Mode.html.textEndsAt rest = true) :
    ∃ d, d.rest = rest ∧ ReadsTags c d [] := by
  by_cases hs : s = []
  · subst hs
    exact ⟨c, hrest, .refl c⟩
  · rw [← String.toList_ofList (l := s)] at hs hrest
    obtain ⟨d, hd, hread⟩ := reads_text hs hrest hafter
    refine ⟨d, hd, hread.mono ?_⟩
    rintro _ ⟨span, rfl⟩
    rfl

/-- A tree other than a text is read as its tags, if its children are. -/
theorem readsTags_html {data : NodeData} (h : data.Readable) (htext : data.isText = false)
    {content : List Char} {tags : List NormalToken}
    (hcontent : ∀ (d : Cursor) (rest : List Char), d.rest = content ++ rest →
      (rest = [] ∨ Mode.html.textEndsAt rest = true) → ∃ e, e.rest = rest ∧ ReadsTags d e tags)
    (hrest : c.rest = data.html content ++ rest) :
    ∃ d, d.rest = rest ∧ ReadsTags c d (data.tags tags) := by
  obtain ⟨d, hd, hread⟩ := reads_html h htext hcontent hrest
  exact ⟨d, hd, hread.mono fun _ hspells => hspells.tags_eq⟩

/-- Readable trees behind an escaped text are read as their tags, if something other than text
follows them.  A text among the trees goes to the text before. -/
theorem readsTags_forestHtml {ts : List (Tree α)} (h : ∀ data ∈ forestData ts, data.Readable)
    {s : List Char} (hrest : c.rest = escape .content s ++ (forestHtml ts ++ rest))
    (hafter : rest = [] ∨ Mode.html.textEndsAt rest = true) :
    ∃ d, d.rest = rest ∧ ReadsTags c d (forestTags ts) := by
  induction ts using forest_induction generalizing c s rest with
  | nil => exact readsTags_text hrest hafter
  | cons l data kids ts ihkids ihts =>
    simp only [forestData, Tree.allData, List.cons_append, List.mem_cons, List.mem_append] at h
    have hts := fun x hx => h x (.inr (.inr hx))
    rw [forestHtml, Tree.html, List.append_assoc] at hrest
    rw [forestTags, Tree.tags]
    by_cases htext : data.isText = true
    · obtain ⟨t, rfl⟩ : ∃ t, data = .text t := by
        cases data <;> first | exact ⟨_, rfl⟩ | cases htext
      refine ihts hts (s := s ++ t.toList) ?_ hafter
      rw [hrest, escape_append, List.append_assoc]
      rfl
    · have hself := h data (.inl rfl)
      have htext' := Bool.eq_false_iff.2 htext
      obtain ⟨d, hd, hbefore⟩ := readsTags_text hrest (.inr (hself.textEndsAt htext' _ _))
      obtain ⟨e, he, htree⟩ := readsTags_html hself htext'
        (fun d rest => ihkids (fun x hx => h x (.inr (.inl hx))) (s := [])) hd
      obtain ⟨f, hf, hrest'⟩ := ihts hts (s := []) he hafter
      exact ⟨f, hf, hbefore.append (htree.append hrest')⟩

/-- What is written for readable trees has a normal form, with the tags and comments of the trees:
the attributes are those of the elements, sorted. -/
theorem normalizeHtml_forestHtml {ts : List (Tree α)}
    (h : ∀ data ∈ forestData ts, data.Readable) :
    ∃ tokens, normalizeHtml (String.ofList (forestHtml ts)) = .ok tokens ∧
      NormalToken.withoutTexts tokens = forestTags ts := by
  have hstart : (Cursor.ofSource (forestHtml ts)).rest =
      escape .content [] ++ (forestHtml ts ++ []) := (List.append_nil _).symm
  obtain ⟨d, hd, tokens, hread, htags⟩ := readsTags_forestHtml h hstart (.inl rfl)
  have htokens : tokens? .html (String.ofList (forestHtml ts)) = .ok tokens := by
    rw [tokens?, Reading.ofSource, String.toList_ofList, hread, readTokens_of_nil hd,
      List.append_nil]
  refine ⟨_, by rw [normalizeHtml, htokens]; rfl, ?_⟩
  rw [withoutTexts_ofTokens, htags]

end LiveTemplate
