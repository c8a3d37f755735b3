import LiveTemplate.Dom.Tree
import LiveTemplate.Markup.Token.Source
import LiveTemplate.Proofs.Text.Escaping

/-!
# LiveTemplate.Proofs.Markup.Spelling

Tokens as they are written.

Each reader of HTML, set in front of what is written for a tag, a comment or a text, reads
exactly that and stops behind it.  The cursor where it stops is known by what is left to
read there; its position is of no interest here.
-/

namespace LiveTemplate

/-! ## names -/

/-- A name that is read as the name of a tag. -/
def IsTagName (name : String) : Prop :=
  tagStandsAt name.toList = true ∧ ∀ c ∈ name.toList, isTagCharacter c = true

/-- A name that is read as the name of an attribute. -/
def IsAttributeName (name : String) : Prop :=
  name.toList ≠ [] ∧ ∀ c ∈ name.toList, isAttributeCharacter c = true

namespace Cursor

/-- Characters are skipped up to the first one that is not to be. -/
theorem skipWhile_eq {p : Char → Bool} {c : Cursor} {taken rest : List Char} {x : Char}
    (hrest : c.rest = taken ++ x :: rest) (htaken : ∀ y ∈ taken, p y = true) (hx : p x = false) :
    c.skipWhile p = c.past taken (x :: rest) := by
  have hx' : ¬p x = true := by simp [hx]
  rw [skipWhile, hrest, List.takeWhile_append_of_pos htaken, List.dropWhile_append_of_pos htaken,
    List.takeWhile_cons_of_neg hx', List.dropWhile_cons_of_neg hx', List.append_nil]

/-- Characters are taken up to the first one that is not wanted. -/
theorem takeWhile_eq {p : Char → Bool} {c : Cursor} {taken rest : List Char} {x : Char}
    (hrest : c.rest = taken ++ x :: rest) (htaken : ∀ y ∈ taken, p y = true) (hx : p x = false) :
    c.takeWhile p = (taken, c.past taken (x :: rest)) := by
  have hx' : ¬p x = true := by simp [hx]
  rw [takeWhile, skipWhile_eq hrest htaken hx, hrest, List.takeWhile_append_of_pos htaken,
    List.takeWhile_cons_of_neg hx', List.append_nil]

/-- Where no character is to be skipped the cursor stays. -/
theorem skipWhile_eq_self {p : Char → Bool} {c : Cursor} {rest : List Char} {x : Char}
    (hrest : c.rest = x :: rest) (hx : p x = false) : c.skipWhile p = c := by
  have hnone : c.rest = [] ++ x :: rest := hrest
  rw [skipWhile_eq hnone (by simp) hx, ← hrest]
  rfl

/-- A mark is skipped where it stands. -/
theorem skip?_eq {mark rest : List Char} {c : Cursor} (hrest : c.rest = mark ++ rest) :
    c.skip? mark = some (c.past mark rest) := by
  rw [skip?, dropMark?_eq_some_iff.2 hrest]
  rfl

@[simp] theorem rest_past (c : Cursor) (taken rest : List Char) :
    (c.past taken rest).rest = rest := rfl

end Cursor

theorem readTagName?_eq {name : String} (hname : IsTagName name) {c : Cursor} {rest : List Char}
    {x : Char} (hrest : c.rest = name.toList ++ x :: rest) (hx : isTagCharacter x = false) :
    readTagName? c = some (name.toList, c.past name.toList (x :: rest)) := by
  have hstands : tagStandsAt c.rest = true := by
    have hfirst := hname.1
    rw [hrest]
    cases hlist : name.toList with
    | nil => rw [hlist] at hfirst; cases hfirst
    | cons y ys => rw [hlist] at hfirst; exact hfirst
  rw [readTagName?, if_pos hstands, Cursor.takeWhile_eq hrest hname.2 hx]

/-! ## attributes -/

/-- The text of a value is the text that was escaped. -/
theorem staticText_quoted_textChunk (s : List Char) :
    (RawValue.quoted (textChunk s)).staticText = String.ofList (decodeReferences s) := by
  rw [RawValue.staticText, RawValue.chunks, textChunk]
  cases s with
  | nil => rw [decodeReferences]; rfl
  | cons c cs => simp [String.join, Chunk.staticText]

/-- HTML between double quotes is one piece of text. -/
theorem readChunks_quoted {c : Cursor} {raw rest : List Char} (hrest : c.rest = raw ++ '"' :: rest)
    (hraw : '"' ∉ raw) :
    readChunks .html (· == '"') c = .ok (textChunk raw, c.past raw ('"' :: rest)) := by
  have htext : takeValueText .html (· == '"') c = (raw, c.past raw ('"' :: rest)) := by
    have hbreak : breakAt (fun s => s.head?.any (· == '"') || Mode.html.mustacheStandsAt s)
        (raw ++ '"' :: rest) = (raw, '"' :: rest) := by
      refine breakAt_append_eq (fun x hx t => ?_) (.inr rfl)
      have hne : x ≠ '"' := fun h => hraw (h ▸ hx)
      simp [Mode.mustacheStandsAt, hne]
    rw [takeValueText, Cursor.takeUntil, hrest, hbreak]
  rw [readChunks]
  split
  · rw [htext]
  · next h => cases h
  · next h => cases h

/-- A value is read from behind its opening quote up to the closing one. -/
theorem quotedValue_written (start : Cursor) {c : Cursor} {value : String} {rest : List Char}
    (hrest : c.rest = escape .value value.toList ++ '"' :: rest) :
    ∃ v d, readValue.quotedValue .html start '"' c = .ok (v, d) ∧ v.staticText = value ∧
      d.rest = rest := by
  refine ⟨.quoted (textChunk (escape .value value.toList)),
    (c.past (escape .value value.toList) ('"' :: rest)).past ['"'] rest, ?_, ?_, rfl⟩
  · rw [readValue.quotedValue, readChunks_quoted hrest (stop_not_mem_escape .value value.toList)]
    rfl
  · rw [staticText_quoted_textChunk, decodeReferences_escape, String.ofList_toList]

/-- An attribute is read as its name and its value. -/
theorem readAttribute_eq {mode : Mode} (start : Cursor) {c d : Cursor} {name : String} {x : Char}
    {s : List Char} {v : RawValue} (hname : IsAttributeName name)
    (hrest : c.rest = name.toList ++ '=' :: x :: s) (hx : isSpace x = false)
    (hread : readValue mode start ((c.past name.toList ('=' :: x :: s)).past ['='] (x :: s)) =
      .ok (v, d)) :
    readAttribute mode start c = .ok (⟨name, v, c.spanTo d⟩, d) := by
  have htake := Cursor.takeWhile_eq hrest hname.2 (by decide)
  rw [readAttribute, htake]
  split
  · next heq => exact absurd (congrArg Prod.fst heq) hname.1
  · next name' d' _ heq =>
    simp only [Prod.mk.injEq] at heq
    obtain ⟨rfl, rfl⟩ := heq
    rw [Cursor.skipWhile_eq_self rfl (by decide), Cursor.skip?_eq rfl]
    simp only
    rw [Cursor.skipWhile_eq_self rfl hx]
    simp only [hread, String.ofList_toList]
    rfl

/-- An attribute is read as written. -/
theorem readAttribute_written (start : Cursor) {c : Cursor} {name value : String}
    {rest : List Char} (hname : IsAttributeName name)
    (hrest : c.rest = name.toList ++ '=' :: '"' :: (escape .value value.toList ++ '"' :: rest)) :
    ∃ a d, readAttribute .html start c = .ok (a, d) ∧ (a.name, a.value.staticText) = (name, value) ∧
      d.rest = rest := by
  generalize hwritten : escape .value value.toList ++ '"' :: rest = written at hrest
  have hquote : (((c.past name.toList ('=' :: '"' :: written)).past ['='] ('"' :: written)).past
      ['"'] written).rest = escape .value value.toList ++ '"' :: rest := hwritten.symm
  obtain ⟨v, d, hread, hvalue, hd⟩ := quotedValue_written start hquote
  refine ⟨_, d, readAttribute_eq start hname hrest (by decide) ?_, by rw [hvalue], hd⟩
  rw [readValue]
  exact hread

/-! ## tags -/

/-- A start tag ends where its end stands. -/
theorem readTagParts_end {mode : Mode} {start c d : Cursor} {selfClosing : Bool}
    (hend : tagEnd? (c.skipWhile isSpace) = some (selfClosing, d)) :
    readTagParts mode start c = .ok ([], selfClosing, d) := by
  have hne : (c.skipWhile isSpace).rest.isEmpty = false := by
    rw [tagEnd?] at hend
    split at hend
    · next h => rw [h]; rfl
    · next h => rw [h]; rfl
    · cases hend
  rw [readTagParts]
  simp [hne, hend]

/-- Where a start tag does not end, one part is read first and then the others. -/
theorem readTagParts_part {mode : Mode} {start c d e : Cursor} {part : TagPart}
    {parts : List TagPart} {selfClosing : Bool}
    (hend : tagEnd? (c.skipWhile isSpace) = none) (hne : (c.skipWhile isSpace).rest ≠ [])
    (hpart : readTagPart mode start (c.skipWhile isSpace) = .ok (part, d))
    (hparts : readTagParts mode start d = .ok (parts, selfClosing, e)) :
    readTagParts mode start c = .ok (part :: parts, selfClosing, e) := by
  rw [readTagParts]
  simp only [List.isEmpty_iff, if_neg hne, hend]
  split
  · next h =>
    rw [hpart] at h
    cases h
  · next h =>
    rw [hpart] at h
    cases h
    rw [hparts]
    rfl

/-- An attribute behind a space is a part of a start tag that does not end it. -/
theorem readTagPart_eq {mode : Mode} (start : Cursor) {c d : Cursor} {name : String}
    {s : List Char} {a : RawAttribute} (hname : IsAttributeName name)
    (hrest : c.rest = ' ' :: (name.toList ++ s))
    (hread : readAttribute mode start (c.past [' '] (name.toList ++ s)) = .ok (a, d)) :
    tagEnd? (c.skipWhile isSpace) = none ∧ (c.skipWhile isSpace).rest ≠ [] ∧
      readTagPart mode start (c.skipWhile isSpace) = .ok (.attr a, d) := by
  obtain ⟨x, xs, hxs⟩ := List.exists_cons_of_ne_nil hname.1
  have hx : isAttributeCharacter x = true := hname.2 x (by rw [hxs]; exact List.mem_cons_self)
  have hne : ∀ y, isAttributeCharacter y = false → x ≠ y := by
    rintro y hy rfl
    rw [hx] at hy
    cases hy
  have hspace : isSpace x = false := (isAttributeCharacter_iff.1 hx).1
  have hskip : c.skipWhile isSpace = c.past [' '] (name.toList ++ s) := by
    rw [hxs] at hrest ⊢
    have hbehind : c.rest = [' '] ++ x :: (xs ++ s) := hrest
    exact Cursor.skipWhile_eq hbehind (by simp [isSpace]) hspace
  have hhead : (c.skipWhile isSpace).rest = x :: (xs ++ s) := by
    rw [hskip, Cursor.rest_past, hxs, List.cons_append]
  have hslash := hne '/' (by decide)
  have hclose := hne '>' (by decide)
  have hmustache : mode.mustache? (c.skipWhile isSpace) = none := by
    have hbrace := hne '{' (by decide)
    cases mode with
    | html => rfl
    | template =>
      simp [Mode.mustache?, Mustache.read?, Mustache.forms, Cursor.skip?, hhead, dropMark?,
        Ne.symm hbrace]
  refine ⟨?_, by rw [hhead]; exact List.cons_ne_nil _ _, ?_⟩
  · rw [tagEnd?, hhead]
    split
    · next h => exact absurd (List.cons.inj h).1 hslash
    · next h => exact absurd (List.cons.inj h).1 hclose
    · rfl
  · rw [readTagPart]
    split
    · next h =>
      rw [hhead] at h
      exact absurd (List.cons.inj h).1 hslash
    · rw [hmustache, hskip, hread]
      rfl

/-- An attribute is read as written behind a space, as a part of a start tag. -/
theorem readTagPart_written (start : Cursor) {c : Cursor} {name value : String}
    {rest : List Char} (hname : IsAttributeName name)
    (hrest : c.rest = attributeHtml name value ++ rest) :
    tagEnd? (c.skipWhile isSpace) = none ∧ (c.skipWhile isSpace).rest ≠ [] ∧
      ∃ a d, readTagPart .html start (c.skipWhile isSpace) = .ok (.attr a, d) ∧
        (a.name, a.value.staticText) = (name, value) ∧ d.rest = rest := by
  have hrest' : c.rest =
      ' ' :: (name.toList ++ '=' :: '"' :: (escape .value value.toList ++ '"' :: rest)) := by
    rw [hrest, attributeHtml]
    simp
  obtain ⟨a, d, hread, ha, hd⟩ := readAttribute_written start
    (c := c.past [' '] (name.toList ++ '=' :: '"' :: (escape .value value.toList ++ '"' :: rest)))
    hname rfl
  obtain ⟨hend, hne, hpart⟩ := readTagPart_eq start hname hrest' hread
  exact ⟨hend, hne, a, d, hpart, ha, hd⟩

/-- The attributes of a start tag are read as written. -/
theorem readTagParts_written (start : Cursor) {c : Cursor} {entries : List (String × String)}
    {rest : List Char} (hnames : ∀ entry ∈ entries, IsAttributeName entry.1)
    (hrest : c.rest =
      entries.flatMap (fun (name, value) => attributeHtml name value) ++ '>' :: rest) :
    ∃ (attributes : List RawAttribute) (d : Cursor),
      readTagParts .html start c = .ok (attributes.map TagPart.attr, false, d) ∧
        attributes.map (fun a => (a.name, a.value.staticText)) = entries ∧ d.rest = rest := by
  induction entries generalizing c with
  | nil =>
    rw [List.flatMap_nil, List.nil_append] at hrest
    refine ⟨[], c.past ['>'] rest, readTagParts_end ?_, rfl, rfl⟩
    rw [Cursor.skipWhile_eq_self hrest (by decide)]
    simp only [tagEnd?, hrest]
  | cons entry entries ih =>
    obtain ⟨name, value⟩ := entry
    obtain ⟨hname, hnames⟩ := List.forall_mem_cons.1 hnames
    rw [List.flatMap_cons, List.append_assoc] at hrest
    obtain ⟨hend, hne, a, d, hpart, ha, hd⟩ := readTagPart_written start hname hrest
    obtain ⟨attributes, e, hparts, hentries, he⟩ := ih hnames hd
    exact ⟨a :: attributes, e, readTagParts_part hend hne hpart hparts,
      by rw [List.map_cons, ha, hentries], he⟩

/-- A start tag is read as its name and its parts. -/
theorem readStartTag_eq {mode : Mode} {c d : Cursor} {name : String} {x : Char} {s : List Char}
    {parts : List TagPart} {selfClosing : Bool} (hname : IsTagName name)
    (hrest : c.rest = '<' :: (name.toList ++ x :: s)) (hx : isTagCharacter x = false)
    (hparts : readTagParts mode c
      ((c.past ['<'] (name.toList ++ x :: s)).past name.toList (x :: s)) =
        .ok (parts, selfClosing, d)) :
    readStartTag mode c =
      .ok
        ({ name
           attributes := parts.filterMap fun | .attr a => some a | _ => none
           modifiers := parts.filterMap fun | .modifier m => some m | _ => none
           selfClosing
           span := c.spanTo d }, d) := by
  have hopen : c.skip? ['<'] = some (c.past ['<'] (name.toList ++ x :: s)) :=
    Cursor.skip?_eq hrest
  rw [readStartTag, hopen, Option.bind_some, readTagName?_eq hname rfl hx]
  simp only
  rw [hparts, String.ofList_toList]
  rfl

/-- A start tag is read as written. -/
theorem readStartTag_written {c : Cursor} {name : String} {attributes : Dict String}
    {rest : List Char} (hname : IsTagName name)
    (hnames : ∀ entry ∈ attributes.entries, IsAttributeName entry.1)
    (hrest : c.rest = startTagHtml name attributes ++ rest) :
    ∃ (tag : StartTag) (d : Cursor), readStartTag .html c = .ok (tag, d) ∧ tag.name = name ∧
      tag.attributes.map (fun a => (a.name, a.value.staticText)) = attributes.entries ∧
      tag.selfClosing = false ∧ d.rest = rest := by
  -- The space in front of an attribute, or the end of the tag, ends the name.
  have hafter : ∃ x t,
      attributes.entries.flatMap (fun (name, value) => attributeHtml name value) ++ '>' :: rest =
        x :: t ∧ isTagCharacter x = false := by
    cases attributes.entries with
    | nil => exact ⟨'>', rest, rfl, by decide⟩
    | cons entry entries => exact ⟨' ', _, rfl, by decide⟩
  obtain ⟨x, t, hafter, hx⟩ := hafter
  have hrest' : c.rest = '<' :: (name.toList ++ x :: t) := by
    rw [hrest, startTagHtml, ← hafter]
    simp
  obtain ⟨parts, d, hparts, hentries, hd⟩ := readTagParts_written c
    (c := (c.past ['<'] (name.toList ++ x :: t)).past name.toList (x :: t)) hnames hafter.symm
  refine ⟨_, d, readStartTag_eq hname hrest' hx hparts, rfl, ?_, rfl, hd⟩
  simpa [List.filterMap_map, Function.comp_def] using hentries

/-- An end tag is read as written. -/
theorem readEndTag?_written {c : Cursor} {name : String} {rest : List Char}
    (hname : IsTagName name) (hrest : c.rest = ['<', '/'] ++ (name.toList ++ '>' :: rest)) :
    ∃ d, readEndTag? c = some (name.toList, d) ∧ d.rest = rest := by
  refine ⟨((c.past ['<', '/'] (name.toList ++ '>' :: rest)).past name.toList ('>' :: rest)).past
    ['>'] rest, ?_, rfl⟩
  rw [readEndTag?, Cursor.skip?_eq hrest]
  simp only [Option.bind_eq_bind, Option.bind_some]
  rw [readTagName?_eq hname rfl (by decide)]
  simp only [Option.bind_some]
  rw [Cursor.skipWhile_eq_self rfl (by decide), Cursor.skip?_eq rfl]
  rfl

/-! ## tokens -/

/-- The first character of a tag name. -/
theorem IsTagName.exists_cons {name : String} (h : IsTagName name) :
    ∃ x xs, name.toList = x :: xs ∧ x.isAlpha = true := by
  have hfirst := h.1
  cases hname : name.toList with
  | nil => rw [hname] at hfirst; cases hfirst
  | cons x xs => rw [hname] at hfirst; exact ⟨x, xs, rfl, hfirst⟩

/-- A start tag begins a start tag, and nothing else. -/
theorem readToken_of_readStartTag {mode : Mode} {c d : Cursor} {name : String} {s : List Char}
    {tag : StartTag} (hname : IsTagName name) (hrest : c.rest = '<' :: (name.toList ++ s))
    (hread : readStartTag mode c = .ok (tag, d)) :
    readToken mode c = .ok (.startTag tag, d) := by
  obtain ⟨x, xs, hxs, hx⟩ := hname.exists_cons
  rw [hxs, List.cons_append] at hrest
  have hbang : x ≠ '!' := by
    rintro rfl
    exact absurd hx (by decide)
  have hslash : x ≠ '/' := by
    rintro rfl
    exact absurd hx (by decide)
  have hcomment : c.skip? ['<', '!', '-', '-'] = none := by
    rw [Cursor.skip?, hrest]
    simp [dropMark?, Ne.symm hbang]
  have hend : endTagStandsAt c.rest = false := by
    rw [hrest, endTagStandsAt.eq_def]
    split
    · next h => exact absurd (List.cons.inj (List.cons.inj h).2).1 hslash
    · rfl
  have hstart : startTagStandsAt c.rest = true := by
    rw [hrest]
    exact hx
  rw [readToken, hcomment]
  simp only [hend, hstart, Bool.false_eq_true, if_false, if_true]
  rw [hread]
  rfl

theorem readToken_startTag {c : Cursor} {name : String} {attributes : Dict String}
    {rest : List Char} (hname : IsTagName name)
    (hnames : ∀ entry ∈ attributes.entries, IsAttributeName entry.1)
    (hrest : c.rest = startTagHtml name attributes ++ rest) :
    ∃ (tag : StartTag) (d : Cursor), readToken .html c = .ok (.startTag tag, d) ∧
      tag.name = name ∧
      tag.attributes.map (fun a => (a.name, a.value.staticText)) = attributes.entries ∧
      tag.selfClosing = false ∧ d.rest = rest := by
  obtain ⟨tag, d, hread, hfields⟩ := readStartTag_written hname hnames hrest
  have hrest' : c.rest = '<' :: (name.toList ++
      (attributes.entries.flatMap (fun (name, value) => attributeHtml name value) ++
        '>' :: rest)) := by
    rw [hrest, startTagHtml]
    simp
  exact ⟨tag, d, readToken_of_readStartTag hname hrest' hread, hfields⟩

theorem readToken_endTag (mode : Mode) {c : Cursor} {name : String} {rest : List Char}
    (hname : IsTagName name) (hrest : c.rest = ['<', '/'] ++ (name.toList ++ '>' :: rest)) :
    ∃ span d, readToken mode c = .ok (.endTag name span, d) ∧ d.rest = rest := by
  obtain ⟨d, hread, hd⟩ := readEndTag?_written hname hrest
  obtain ⟨x, xs, hxs, hx⟩ := hname.exists_cons
  refine ⟨c.spanTo d, d, ?_, hd⟩
  have hcomment : c.skip? ['<', '!', '-', '-'] = none := by
    rw [Cursor.skip?, hrest]
    rfl
  have hend : endTagStandsAt c.rest = true := by
    rw [hrest, hxs]
    exact hx
  rw [readToken, hcomment]
  simp only [hend, if_true]
  rw [hread]
  simp only [String.ofList_toList]

theorem readToken_comment {c : Cursor} {text : String} {rest : List Char}
    (htext : ¬commentEnd <:+: text.toList)
    (hrest : c.rest = ['<', '!', '-', '-'] ++ (text.toList ++ commentEnd ++ rest)) :
    ∃ span d, readToken .html c = .ok (.comment text span, d) ∧ d.rest = rest := by
  obtain ⟨d, hread, hd⟩ : ∃ d : Cursor,
      (c.past ['<', '!', '-', '-'] (text.toList ++ commentEnd ++ rest)).readTo? commentEnd =
        some (text.toList, d) ∧ d.rest = rest := by
    rw [Cursor.readTo?, Cursor.rest_past, cut?_commentEnd htext]
    exact ⟨_, rfl, Cursor.rest_past _ _ _⟩
  refine ⟨c.spanTo d, d, ?_, hd⟩
  rw [readToken, Cursor.skip?_eq hrest]
  simp only
  rw [readComment, ← commentEnd, hread]
  simp only [String.ofList_toList]

/-- A character other than `<` begins no comment and no tag, so that no text ends before it. -/
theorem standsAt_of_ne {x : Char} (hx : x ≠ '<') (t : List Char) :
    dropMark? ['<', '!', '-', '-'] (x :: t) = none ∧ endTagStandsAt (x :: t) = false ∧
      startTagStandsAt (x :: t) = false ∧ Mode.html.textEndsAt (x :: t) = false := by
  refine ⟨by simp [dropMark?, Ne.symm hx], ?_, ?_, ?_⟩
  · rw [endTagStandsAt.eq_def]
    split
    · next h => exact absurd (List.cons.inj h).1 hx
    · rfl
  · rw [startTagStandsAt.eq_def]
    split
    · next h => exact absurd (List.cons.inj h).1 hx
    · rfl
  · rw [Mode.textEndsAt.eq_def]
    split
    · next h => exact absurd (List.cons.inj h).1 hx
    · rfl

/-- A text without `<` is read up to what follows it, if that begins something else or is the
end. -/
theorem readText_written {c : Cursor} {x : Char} {xs rest : List Char} (hx : '<' ∉ xs)
    (hrest : c.rest = x :: (xs ++ rest))
    (hafter : rest = [] ∨ Mode.html.textEndsAt rest = true) :
    readText .html c = (x :: xs, c.past (x :: xs) rest) := by
  have hbreak : breakAt Mode.html.textEndsAt (xs ++ rest) = (xs, rest) := by
    refine breakAt_append_eq (fun y hy t => ?_) hafter
    exact (standsAt_of_ne (fun h => hx (h ▸ hy)) t).2.2.2
  rw [readText, hrest]
  simp only [hbreak]

/-- An escaped text is read up to what follows it, if that begins something else or is the end. -/
theorem readToken_text {c : Cursor} {text : String} {rest : List Char} (htext : text.toList ≠ [])
    (hrest : c.rest = escape .content text.toList ++ rest)
    (hafter : rest = [] ∨ Mode.html.textEndsAt rest = true) :
    ∃ span d, readToken .html c = .ok (.text text span, d) ∧ d.rest = rest := by
  have hwritten : escape .content text.toList ≠ [] := escape_ne_nil htext
  obtain ⟨x, xs, hxs⟩ := List.exists_cons_of_ne_nil hwritten
  have hstop : '<' ∉ x :: xs := hxs ▸ stop_not_mem_escape .content text.toList
  rw [List.mem_cons, not_or] at hstop
  rw [hxs, List.cons_append] at hrest
  obtain ⟨hmark, hend, hstart, -⟩ := standsAt_of_ne (Ne.symm hstop.1) (xs ++ rest)
  have hcomment : c.skip? ['<', '!', '-', '-'] = none := by rw [Cursor.skip?, hrest, hmark]; rfl
  have hread := readText_written hstop.2 hrest hafter
  rw [readToken, hcomment, hrest]
  simp only [hend, hstart, Bool.false_eq_true, if_false]
  rw [hread, Mode.mustache?]
  simp only [← hxs, decodeReferences_escape, String.ofList_toList]
  exact ⟨_, _, rfl, Cursor.rest_past _ _ _⟩

/-! ## whole sources -/

/-- There is nothing to read at the end of a source. -/
theorem readTokens_of_nil {mode : Mode} {c : Cursor} (h : c.rest = []) :
    readTokens mode c = ⟨[], none⟩ := by
  rw [readTokens, dif_pos h]

/-- Reading ends at a fault. -/
theorem readTokens_of_error {mode : Mode} {c : Cursor} {e : ParseError} (hne : c.rest ≠ [])
    (hread : readToken mode c = .error e) : readTokens mode c = ⟨[], some e⟩ := by
  rw [readTokens, dif_neg hne]
  split
  · next h =>
    rw [hread] at h
    cases h
    rfl
  · next h =>
    rw [hread] at h
    cases h

/-- One token is read first and then the others. -/
theorem readTokens_of_readToken {mode : Mode} {c d : Cursor} {token : Token} (hne : c.rest ≠ [])
    (hread : readToken mode c = .ok (token, d)) :
    readTokens mode c = (readTokens mode d).cons token := by
  rw [readTokens, dif_neg hne]
  split
  · next h =>
    rw [hread] at h
    cases h
  · next h =>
    rw [hread] at h
    cases h
    rfl

end LiveTemplate
