import LiveTemplate.Proofs.Markup.Spelling
import Mathlib.Data.List.Chain

/-!
# LiveTemplate.Proofs.Markup.Plain

Sources without mustaches.

Where two braces stand nowhere it makes no difference whether mustaches are recognized
(`Reading.ofSource_template`).  What is read without recognizing them are tags with static
values, texts and comments (`Token.IsPlain`), and no two texts come one after the other.
-/

namespace LiveTemplate

/-- Two braces stand nowhere in a text. -/
def IsMustacheless (s : List Char) : Prop := ¬['{', '{'] <:+: s

instance (s : List Char) : Decidable (IsMustacheless s) := inferInstanceAs (Decidable ¬_)

theorem IsMustacheless.of_suffix {s t : List Char} (h : IsMustacheless s) (hsuffix : t <:+ s) :
    IsMustacheless t := fun hpart => h (hpart.trans hsuffix.isInfix)

/-- What is left to read is the end of what was left before. -/
theorem Cursor.Reaches.suffix {c d : Cursor} : c.Reaches d → d.rest <:+ c.rest
  | ⟨taken, h, _⟩ => ⟨taken, h.symm⟩

theorem IsMustacheless.of_reaches {c d : Cursor} (h : IsMustacheless c.rest) (hcd : c.Reaches d) :
    IsMustacheless d.rest := h.of_suffix hcd.suffix

/-! ## mustaches -/

theorem IsMustacheless.standsAt_eq_false {s : List Char} (h : IsMustacheless s) :
    Mustache.standsAt s = false := by
  rw [Mustache.standsAt.eq_def]
  split
  · next rest => exact absurd ⟨[], rest, rfl⟩ h
  · rfl

theorem IsMustacheless.read?_eq_none {c : Cursor} (h : IsMustacheless c.rest) :
    Mustache.read? c = none := by
  have hnone : ∀ opening : List Char, ['{', '{'] <+: opening → c.skip? opening = none := by
    intro opening hstart
    refine Option.eq_none_iff_forall_not_mem.2 fun d hd => ?_
    obtain ⟨hrest, -⟩ := Cursor.reads_skip? hd
    rw [hrest] at h
    exact h (hstart.isInfix.trans (List.prefix_append ..).isInfix)
  refine List.findSome?_eq_none_iff.2 fun form hform => ?_
  rw [hnone form.opening, Option.map_none]
  revert hform
  revert form
  decide

theorem IsMustacheless.mustache?_eq_none {c : Cursor} (h : IsMustacheless c.rest) (mode : Mode) :
    mode.mustache? c = none := by
  cases mode with
  | template => exact h.read?_eq_none
  | html => rfl

theorem IsMustacheless.mustacheStandsAt_eq_false {s : List Char} (h : IsMustacheless s)
    (mode : Mode) : mode.mustacheStandsAt s = false := by
  cases mode with
  | template => exact h.standsAt_eq_false
  | html => rfl

/-! ## the two ways of reading -/

/-- A text is cut where it is cut by boundaries that do not differ on what is left. -/
theorem breakAt_congr {p q : List Char → Bool} {s : List Char}
    (h : ∀ t, t <:+ s → p t = q t) : breakAt p s = breakAt q s := by
  induction s with
  | nil => rfl
  | cons c cs ih =>
    rw [breakAt, breakAt, h _ List.suffix_rfl,
      ih fun t ht => h t (ht.trans (List.suffix_cons c cs))]

section Modes

variable {start c : Cursor}

theorem takeValueText_template (ends : Char → Bool) (h : IsMustacheless c.rest) :
    takeValueText .template ends c = takeValueText .html ends c := by
  rw [takeValueText, takeValueText, Cursor.takeUntil, Cursor.takeUntil]
  rw [breakAt_congr (q := fun s => s.head?.any ends || Mode.html.mustacheStandsAt s) fun t ht => ?_]
  rw [(h.of_suffix ht).mustacheStandsAt_eq_false, (h.of_suffix ht).mustacheStandsAt_eq_false]

/-- A value without mustaches is one text, or none. -/
theorem readChunks_eq {mode : Mode} (ends : Char → Bool)
    (h : mode.mustache? (takeValueText mode ends c).2 = none) :
    readChunks mode ends c =
      .ok (textChunk (takeValueText mode ends c).1, (takeValueText mode ends c).2) := by
  rw [readChunks]
  split
  · rfl
  · next heq => simp [h] at heq
  · next heq => simp [h] at heq

/-- Behind the text of a value a mustache is read, or the value ends. -/
theorem readChunks_eq_of_some {mode : Mode} {ends : Char → Bool}
    {read : Except ParseError (Mustache × Cursor)}
    (h : mode.mustache? (takeValueText mode ends c).2 = some read) :
    readChunks mode ends c =
      read >>= fun (m, d) => readChunks mode ends d >>= fun (chunks, e) =>
        .ok (textChunk (takeValueText mode ends c).1 ++ .mustache m :: chunks, e) := by
  rw [readChunks]
  split
  · next heq =>
    rw [h] at heq
    cases heq
  · next heq =>
    rw [h] at heq
    cases heq
    rfl
  · next heq =>
    rw [h] at heq
    cases heq
    rfl

theorem readChunks_template (ends : Char → Bool) (h : IsMustacheless c.rest) :
    readChunks .template ends c = readChunks .html ends c := by
  have hrest : IsMustacheless (takeValueText .template ends c).2.rest :=
    h.of_reaches (Cursor.reads_takeUntil _ c).reaches
  rw [readChunks_eq ends (hrest.mustache?_eq_none _), readChunks_eq ends rfl,
    takeValueText_template ends h]

theorem readValue_template (start : Cursor) (h : IsMustacheless c.rest) :
    readValue .template start c = readValue .html start c := by
  have hquoted : ∀ (quote : Char) (rest : List Char), c.rest = quote :: rest →
      readValue.quotedValue .template start quote (c.past [quote] rest) =
        readValue.quotedValue .html start quote (c.past [quote] rest) := by
    intro quote rest hrest
    rw [readValue.quotedValue, readValue.quotedValue,
      readChunks_template _ (h.of_reaches (Cursor.reads_mark [quote] hrest).reaches)]
  rw [readValue.eq_def, readValue.eq_def]
  split
  · next rest hrest => exact hquoted '"' rest hrest
  · next rest hrest => exact hquoted '\'' rest hrest
  · rw [readChunks_template _ h]

theorem readAttribute_template (start : Cursor) (h : IsMustacheless c.rest) :
    readAttribute .template start c = readAttribute .html start c := by
  have hname := (Cursor.reads_takeWhile isAttributeCharacter c).reaches
  rw [readAttribute.eq_def, readAttribute.eq_def]
  split
  · rfl
  · next name d _ heq =>
    rw [heq] at hname
    split
    · rfl
    · next e he =>
      have hvalue := h.of_reaches (hname.trans ((Cursor.reaches_skipWhile isSpace d).trans
        ((Cursor.reads_skip? he).reaches.trans (Cursor.reaches_skipWhile isSpace e))))
      rw [readValue_template start hvalue]

theorem readTagPart_template (start : Cursor) (h : IsMustacheless c.rest) :
    readTagPart .template start c = readTagPart .html start c := by
  rw [readTagPart.eq_def, readTagPart.eq_def]
  split
  · rfl
  · rw [h.mustache?_eq_none, h.mustache?_eq_none, readAttribute_template start h]

/-- The parts of a tag are read one after the other. -/
theorem readTagParts_eq (mode : Mode) (start c : Cursor) :
    readTagParts mode start c =
      if (c.skipWhile isSpace).rest.isEmpty then .error ⟨.unterminatedTag, start.spanToStop⟩
      else
        match tagEnd? (c.skipWhile isSpace) with
        | some (selfClosing, d) => .ok ([], selfClosing, d)
        | none => readTagPart mode start (c.skipWhile isSpace) >>= fun (part, d) =>
            readTagParts mode start d >>= fun (parts, selfClosing, e) =>
              .ok (part :: parts, selfClosing, e) := by
  rw [readTagParts]
  refine ite_congr rfl (fun _ => rfl) fun _ => ?_
  cases hend : tagEnd? (c.skipWhile isSpace) with
  | some read => rfl
  | none =>
    simp only
    split
    · next hpart =>
      rw [hpart]
      rfl
    · next hpart =>
      rw [hpart]
      rfl

theorem readTagParts_template (start : Cursor) (h : IsMustacheless c.rest) :
    readTagParts .template start c = readTagParts .html start c := by
  fun_induction readTagParts .html start c with
  | case1 c d hempty => rw [readTagParts_eq, if_pos hempty]
  | case2 c d hempty selfClosing e hend => rw [readTagParts_eq, if_neg hempty, hend]
  | case3 c d hempty hend e hpart =>
    have hskip := Cursor.reaches_skipWhile isSpace c
    rw [readTagParts_eq, if_neg hempty, hend, readTagPart_template start (h.of_reaches hskip), hpart]
    rfl
  | case4 c d hempty hend part e hpart ih =>
    have hskip := Cursor.reaches_skipWhile isSpace c
    rw [readTagParts_eq, if_neg hempty, hend, readTagPart_template start (h.of_reaches hskip), hpart,
      ← ih (h.of_reaches (hskip.trans_passes (passes_readTagPart hpart)).reaches)]
    rfl

theorem readStartTag_template (h : IsMustacheless c.rest) :
    readStartTag .template c = readStartTag .html c := by
  rw [readStartTag.eq_def, readStartTag.eq_def]
  split
  · rfl
  · next name d hname =>
    obtain ⟨opened, hskip, hname⟩ := Option.bind_eq_some_iff.1 hname
    have hreaches := (Cursor.reads_skip? hskip).reaches.trans (reaches_readTagName? hname)
    rw [readTagParts_template c (h.of_reaches hreaches)]

theorem textEndsAt_template {s : List Char} (h : IsMustacheless s) :
    Mode.template.textEndsAt s = Mode.html.textEndsAt s := by
  rw [Mode.textEndsAt.eq_def, Mode.textEndsAt.eq_def]
  split
  · rfl
  · rw [h.mustacheStandsAt_eq_false, h.mustacheStandsAt_eq_false]

theorem readText_template (h : IsMustacheless c.rest) :
    readText .template c = readText .html c := by
  rw [readText, readText]
  split
  · rfl
  · next first rest hrest =>
    rw [hrest] at h
    rw [breakAt_congr fun t ht =>
      textEndsAt_template (h.of_suffix (ht.trans (List.suffix_cons first rest)))]

theorem readToken_template (h : IsMustacheless c.rest) :
    readToken .template c = readToken .html c := by
  rw [readToken, readToken]
  split
  · rfl
  · rw [h.mustache?_eq_none, h.mustache?_eq_none, readStartTag_template h, readText_template h]

theorem readTokens_template (h : IsMustacheless c.rest) :
    readTokens .template c = readTokens .html c := by
  fun_induction readTokens .html c with
  | case1 c hnil => rw [readTokens_of_nil hnil]
  | case2 c hne e hread => rw [readTokens_of_error hne ((readToken_template h).trans hread)]
  | case3 c hne token d hread ih =>
    rw [readTokens_of_readToken hne ((readToken_template h).trans hread),
      ih (h.of_reaches (passes_readToken hne hread).reaches)]

end Modes

/-- Where two braces stand nowhere it makes no difference whether mustaches are recognized. -/
theorem Reading.ofSource_template {source : String} (h : IsMustacheless source.toList) :
    Reading.ofSource .template source = Reading.ofSource .html source :=
  readTokens_template h

/-! ## what is read -/

/-- What holds of each part of a tag holds of all that are read. -/
theorem forall_mem_of_readTagParts {mode : Mode} {start : Cursor} {P : TagPart → Prop}
    (hP : ∀ c d part, readTagPart mode start c = .ok (part, d) → P part) {c d : Cursor}
    {parts : List TagPart} {selfClosing : Bool}
    (h : readTagParts mode start c = .ok (parts, selfClosing, d)) : ∀ part ∈ parts, P part := by
  fun_induction readTagParts mode start c generalizing parts selfClosing d with
  | case1 | case3 => cases h
  | case2 =>
    cases h
    exact List.forall_mem_nil P
  | case4 c behind hempty hend part e hpart =>
    rename_i ih
    obtain ⟨⟨more, closes, f⟩, hmore, h⟩ := exists_of_bind_eq_ok h
    cases h
    exact List.forall_mem_cons.2 ⟨hP _ _ _ hpart, ih hmore⟩

/-- What holds of each token holds of all that are read. -/
theorem forall_mem_of_readTokens {mode : Mode} {P : Token → Prop}
    (hP : ∀ c d token, readToken mode c = .ok (token, d) → P token) (c : Cursor) :
    ∀ token ∈ (readTokens mode c).tokens, P token := by
  fun_induction readTokens mode c with
  | case1 | case2 => exact List.forall_mem_nil P
  | case3 c hne token d hread ih => exact List.forall_mem_cons.2 ⟨hP c d token hread, ih⟩

/-- What a token can be. -/
inductive ReadsToken (mode : Mode) (c : Cursor) : Token → Cursor → Prop where
  | comment {inside d : Cursor} {text : List Char}
    (hopen : c.skip? ['<', '!', '-', '-'] = some inside)
    (hread : inside.readTo? ['-', '-', '>'] = some (text, d)) :
    ReadsToken mode c (.comment (String.ofList text) (c.spanTo d)) d
  | endTag {name : List Char} {d : Cursor} (hread : readEndTag? c = some (name, d)) :
    ReadsToken mode c (.endTag (String.ofList name) (c.spanTo d)) d
  | startTag {tag : StartTag} {d : Cursor} (hread : readStartTag mode c = .ok (tag, d)) :
    ReadsToken mode c (.startTag tag) d
  | mustache {m : Mustache} {d : Cursor} (hread : mode.mustache? c = some (.ok (m, d))) :
    ReadsToken mode c (.mustache m) d
  | text (hcomment : c.skip? ['<', '!', '-', '-'] = none) (hend : endTagStandsAt c.rest = false)
    (hstart : startTagStandsAt c.rest = false) (hmustache : mode.mustache? c = none) :
    ReadsToken mode c (.text (String.ofList (decodeReferences (readText mode c).1))
      (c.spanTo (readText mode c).2)) (readText mode c).2

theorem readsToken_of_readToken {mode : Mode} {c d : Cursor} {token : Token}
    (h : readToken mode c = .ok (token, d)) : ReadsToken mode c token d := by
  rw [readToken] at h
  split at h
  · next inside hopen =>
    rw [readComment] at h
    split at h
    · next text e hread =>
      cases h
      exact .comment hopen hread
    · cases h
  · next hcomment =>
    split at h
    · split at h
      · next name e hread =>
        cases h
        exact .endTag hread
      · cases h
    · next hend =>
      split at h
      · obtain ⟨⟨tag, e⟩, hread, heq⟩ := exists_of_map_eq_ok h
        cases heq
        exact .startTag hread
      · next hstart =>
        split at h
        · next read hread =>
          obtain ⟨⟨m, e⟩, rfl, heq⟩ := exists_of_map_eq_ok h
          cases heq
          exact .mustache hread
        · next hmustache =>
          cases h
          exact .text hcomment (Bool.eq_false_iff.2 hend) (Bool.eq_false_iff.2 hstart) hmustache

/-! ## plain tokens -/

/-- A value without mustaches: no text, or a single one. -/
def RawValue.IsPlain (v : RawValue) : Prop := v.chunks = [] ∨ ∃ s, v.chunks = [.text s]

/-- A token without mustaches. -/
def Token.IsPlain : Token → Prop
  | .startTag tag => tag.modifiers = [] ∧ ∀ a ∈ tag.attributes, a.value.IsPlain
  | .endTag .. | .text .. | .comment .. => True
  | .mustache _ => False

/-- Whether a token is a text. -/
def Token.isText : Token → Bool
  | .text .. => true
  | .startTag _ | .endTag .. | .comment .. | .mustache _ => false

section Plain

variable {start c d : Cursor}

theorem isPlain_textChunk (raw : List Char) :
    textChunk raw = [] ∨ ∃ s, textChunk raw = [.text s] := by
  rw [textChunk]
  split
  · exact .inl rfl
  · exact .inr ⟨_, rfl⟩

theorem isPlain_of_readChunks {ends : Char → Bool} {chunks : List Chunk}
    (h : readChunks .html ends c = .ok (chunks, d)) : chunks = [] ∨ ∃ s, chunks = [.text s] := by
  rw [readChunks_eq ends rfl] at h
  cases h
  exact isPlain_textChunk _

theorem isPlain_of_readValue {v : RawValue} (h : readValue .html start c = .ok (v, d)) :
    v.IsPlain := by
  have hquoted : ∀ (quote : Char) (e : Cursor),
      readValue.quotedValue .html start quote e = .ok (v, d) → v.IsPlain := by
    intro quote e h
    obtain ⟨⟨chunks, f⟩, hchunks, h⟩ := exists_of_bind_eq_ok h
    simp only at h
    split at h
    · cases h
      exact isPlain_of_readChunks hchunks
    · cases h
  rw [readValue.eq_def] at h
  split at h
  · exact hquoted _ _ h
  · exact hquoted _ _ h
  · obtain ⟨⟨chunks, f⟩, hchunks, h⟩ := exists_of_bind_eq_ok h
    cases h
    exact isPlain_of_readChunks hchunks

theorem isPlain_of_readAttribute {a : RawAttribute}
    (h : readAttribute .html start c = .ok (a, d)) : a.value.IsPlain := by
  rw [readAttribute.eq_def] at h
  split at h
  · cases h
  · split at h
    · cases h
      exact .inl rfl
    · obtain ⟨⟨value, f⟩, hvalue, h⟩ := exists_of_bind_eq_ok h
      cases h
      exact isPlain_of_readValue hvalue

/-- A part of a tag is a slash or an attribute with a plain value. -/
theorem isPlain_of_readTagPart {part : TagPart} (h : readTagPart .html start c = .ok (part, d)) :
    part = .slash ∨ ∃ a, part = .attr a ∧ a.value.IsPlain := by
  rw [readTagPart.eq_def] at h
  split at h
  · cases h
    exact .inl rfl
  · obtain ⟨⟨a, e⟩, hread, heq⟩ := exists_of_map_eq_ok h
    cases heq
    exact .inr ⟨a, rfl, isPlain_of_readAttribute hread⟩

theorem isPlain_of_readStartTag {tag : StartTag} (h : readStartTag .html c = .ok (tag, d)) :
    tag.modifiers = [] ∧ ∀ a ∈ tag.attributes, a.value.IsPlain := by
  rw [readStartTag.eq_def] at h
  split at h
  · cases h
  · obtain ⟨⟨parts, closes, e⟩, hparts, h⟩ := exists_of_bind_eq_ok h
    cases h
    have hplain := forall_mem_of_readTagParts (fun _ _ _ => isPlain_of_readTagPart) hparts
    refine ⟨List.filterMap_eq_nil_iff.2 fun part hpart => ?_, fun a ha => ?_⟩
    · rcases hplain part hpart with rfl | ⟨a, rfl, -⟩ <;> rfl
    · obtain ⟨part, hpart, heq⟩ := List.mem_filterMap.1 ha
      rcases hplain part hpart with rfl | ⟨b, rfl, hb⟩
      · cases heq
      · cases heq
        exact hb

theorem isPlain_of_readToken {token : Token} (h : readToken .html c = .ok (token, d)) :
    token.IsPlain := by
  cases readsToken_of_readToken h with
  | comment | endTag | text => trivial
  | startTag hread => exact isPlain_of_readStartTag hread
  | mustache hread => cases hread

/-! ## texts -/

/-- Where two braces stand a mustache is read. -/
theorem Mode.mustache?_ne_none {mode : Mode} (h : mode.mustacheStandsAt c.rest = true) :
    mode.mustache? c ≠ none := by
  cases mode with
  | html => cases h
  | template =>
    have hstands : Mustache.standsAt c.rest = true := h
    rw [Mustache.standsAt.eq_def] at hstands
    split at hstands
    · next rest hrest =>
      have hskip : c.skip? ['{', '{'] = some (c.past ['{', '{'] rest) := Cursor.skip?_eq hrest
      intro hnone
      have hlast := List.findSome?_eq_none_iff.1 hnone ⟨['{', '{'], ['}', '}'], .escaped⟩
        (by simp [Mustache.forms])
      rw [hskip] at hlast
      cases hlast
    · cases hstands

/-- A text is read up to the end or to something else. -/
theorem rest_readText {mode : Mode} (hne : c.rest ≠ []) :
    (readText mode c).2.rest = [] ∨ mode.textEndsAt (readText mode c).2.rest = true := by
  rw [readText]
  split
  · next h => exact absurd h hne
  · exact breakAt_snd _ _

theorem dropMark?_eq_ite (mark s : List Char) :
    dropMark? mark s = if mark.isPrefixOf s then some (s.drop mark.length) else none := by
  induction mark generalizing s with
  | nil => rfl
  | cons m mark ih =>
    cases s with
    | nil => rfl
    | cons c s =>
      by_cases hc : m = c
      · simp [dropMark?, hc, ih]
      · simp [dropMark?, hc]

theorem startTagStandsAt_cons (c : Char) (s : List Char) :
    startTagStandsAt (c :: s) = (c == '<' && tagStandsAt s) := by
  by_cases hc : c = '<'
  · subst hc
    rfl
  · simp [startTagStandsAt, hc]

theorem endTagStandsAt_cons (c d : Char) (s : List Char) :
    endTagStandsAt (c :: d :: s) = (c == '<' && (d == '/' && tagStandsAt s)) := by
  by_cases hc : c = '<' ∧ d = '/'
  · obtain ⟨rfl, rfl⟩ := hc
    rfl
  · rw [endTagStandsAt.eq_def]
    split
    · next heq =>
      cases heq
      exact absurd ⟨rfl, rfl⟩ hc
    · grind

/-- Text ends where a tag, a comment or a mustache begins. -/
theorem textEndsAt_eq (mode : Mode) (s : List Char) :
    mode.textEndsAt s = (startTagStandsAt s || ['<', '!', '-', '-'].isPrefixOf s ||
      endTagStandsAt s || mode.mustacheStandsAt s) := by
  rw [Mode.textEndsAt.eq_def]
  split
  · next rest =>
    have hmustache : mode.mustacheStandsAt ('<' :: rest) = false := by cases mode <;> rfl
    have hcomment : ['<', '!', '-', '-'].isPrefixOf ('<' :: rest) =
        ['!', '-', '-'].isPrefixOf rest := rfl
    rw [hmustache, Bool.or_false, hcomment, startTagStandsAt]
    cases rest with
    | nil => rfl
    | cons d name =>
      by_cases hd : d = '/'
      · subst hd
        rfl
      · simp [endTagStandsAt, hd]
  · next hnone =>
    cases s with
    | nil => simp [startTagStandsAt, endTagStandsAt]
    | cons c s =>
      have hc : c ≠ '<' := by
        rintro rfl
        exact hnone s rfl
      have hend : endTagStandsAt (c :: s) = false := by
        simp [endTagStandsAt, hc]
      simp [startTagStandsAt_cons, hend, List.isPrefixOf, hc, Ne.symm hc]

/-- Text does not end where nothing else is read. -/
theorem textEndsAt_eq_false {mode : Mode} (hcomment : c.skip? ['<', '!', '-', '-'] = none)
    (hend : endTagStandsAt c.rest = false) (hstart : startTagStandsAt c.rest = false)
    (hmustache : mode.mustache? c = none) : mode.textEndsAt c.rest = false := by
  have hmark : ['<', '!', '-', '-'].isPrefixOf c.rest = false := by
    have hdrop := Option.map_eq_none_iff.1 hcomment
    refine Bool.eq_false_iff.2 fun h => ?_
    rw [dropMark?_eq_ite, if_pos h] at hdrop
    cases hdrop
  have hstands : mode.mustacheStandsAt c.rest = false :=
    Bool.eq_false_iff.2 fun h => Mode.mustache?_ne_none h hmustache
  rw [textEndsAt_eq, hstart, hmark, hend, hstands]
  rfl

/-- Where a text ends no text is read. -/
theorem isText_of_textEndsAt {mode : Mode} {token : Token} (hends : mode.textEndsAt c.rest = true)
    (h : readToken mode c = .ok (token, d)) : token.isText = false := by
  cases readsToken_of_readToken h with
  | comment | endTag | startTag | mustache => rfl
  | text hcomment hend hstart hmustache =>
    rw [textEndsAt_eq_false hcomment hend hstart hmustache] at hends
    cases hends

/-- What is read as text ends at the end of the source or where something else begins. -/
theorem textEndsAt_of_readToken {mode : Mode} {token : Token} (hne : c.rest ≠ [])
    (h : readToken mode c = .ok (token, d)) (htext : token.isText = true) :
    d.rest = [] ∨ mode.textEndsAt d.rest = true := by
  cases readsToken_of_readToken h with
  | comment | endTag | startTag | mustache => cases htext
  | text => exact rest_readText hne

/-- The first token is what is read at the cursor. -/
theorem exists_readToken_of_head? {mode : Mode} {token : Token}
    (h : token ∈ (readTokens mode c).tokens.head?) :
    c.rest ≠ [] ∧ ∃ d, readToken mode c = .ok (token, d) := by
  rw [readTokens] at h
  split at h
  · cases h
  · next hne =>
    split at h
    · cases h
    · next first d hread =>
      obtain rfl : first = token := Option.some.inj h
      exact ⟨hne, d, hread⟩

/-- No two texts are read one after the other. -/
theorem isChain_readTokens (mode : Mode) (c : Cursor) :
    (readTokens mode c).tokens.IsChain fun a b => a.isText = true → b.isText = false := by
  fun_induction readTokens mode c with
  | case1 | case2 => exact List.isChain_nil
  | case3 c hne token d hread ih =>
    refine List.isChain_cons.2 ⟨fun next hnext htext => ?_, ih⟩
    obtain ⟨hd, e, hnext⟩ := exists_readToken_of_head? hnext
    exact isText_of_textEndsAt
      ((textEndsAt_of_readToken hne hread htext).resolve_left hd) hnext

end Plain

end LiveTemplate
