import LiveTemplate.Program.Builtin
import LiveTemplate.Proofs.Expr.RoundTrip
import LiveTemplate.Proofs.Markup.Plain
import LiveTemplate.Template.Parser

/-!
# LiveTemplate.Proofs.Template.Literals

The templates of sources that hold one mustache: alone, or as the value of an attribute with
quotes and without.
-/

namespace LiveTemplate

/-! ## reading a mustache -/

namespace WrittenExpression

variable {e : WrittenExpression}

/-- An expression between two braces. -/
def braced (e : WrittenExpression) : List Char := ['{', '{'] ++ e.text ++ ['}', '}']

/-- What is read of an expression between two braces, wherever it stands. -/
theorem read?_braced (h : IsPlainContent e.text) {c : Cursor} {rest : List Char}
    (hrest : c.rest = e.braced ++ rest) :
    ∃ span d, Mustache.read? c = some (.ok (⟨.escaped, String.ofList e.text, span⟩, d)) ∧
      d.rest = rest := by
  obtain ⟨offset, s⟩ := c
  obtain rfl : s = e.braced ++ rest := hrest
  exact ⟨_, _, e.read?_escaped h offset rest, rfl⟩

/-- What a mustache shows that binds no block params. -/
theorem insertion_eq (h : e.blockParams = []) (span : Span) :
    Mustache.insertion ⟨.escaped, String.ofList e.text, span⟩ =
      .ok ⟨e.expression.call, true, span⟩ := by
  have hparams : e.expression.blockParams = [] := by rw [expression, h]; rfl
  have hcall : Mustache.call ⟨.escaped, String.ofList e.text, span⟩ = .ok e.expression.call := by
    rw [Mustache.call, e.ofContent_text]
    show (if e.expression.blockParams.isEmpty then _ else _) = _
    rw [hparams]
    rfl
  rw [Mustache.insertion, hcall]
  rfl

end WrittenExpression

/-- No text is taken where a value ends or a mustache stands. -/
theorem takeValueText_nil {mode : Mode} {ends : Char → Bool} {c : Cursor} {x : Char}
    {s : List Char} (hrest : c.rest = x :: s)
    (h : (ends x || mode.mustacheStandsAt (x :: s)) = true) :
    takeValueText mode ends c = ([], c) := by
  have hbreak : breakAt (fun s => s.head?.any ends || mode.mustacheStandsAt s) (x :: s) =
      ([], x :: s) := by
    exact (breakAt.eq_2 ..).trans (if_pos h)
  rw [takeValueText, Cursor.takeUntil, hrest]
  simp only [hbreak]
  rw [← hrest]
  rfl

/-- Where a mustache stands in a value it is read first, and then the other pieces. -/
theorem readChunks_of_mustache {mode : Mode} {ends : Char → Bool} {c d e : Cursor} {m : Mustache}
    {chunks : List Chunk} (hread : mode.mustache? c = some (.ok (m, d)))
    (htext : takeValueText mode ends c = ([], c))
    (hmore : readChunks mode ends d = .ok (chunks, e)) :
    readChunks mode ends c = .ok (.mustache m :: chunks, e) := by
  have hread' : mode.mustache? (takeValueText mode ends c).2 = some (.ok (m, d)) := by
    rw [htext, hread]
  rw [readChunks_eq_of_some hread', htext]
  show readChunks mode ends d >>= _ = _
  rw [hmore]
  rfl

/-- The tag of a paragraph with a title. -/
def titledTag (title : AttributeValue) (span : Span) : ElementTag :=
  { name := "p", ns := .xhtml, attributes := [⟨"title", title, span⟩], modifiers := []
    selfClosing := false }

namespace WrittenExpression

variable {e : WrittenExpression}

/-- The pieces of a value that is one mustache. -/
theorem readChunks_braced (h : IsPlainContent e.text) (ends : Char → Bool) {c : Cursor} {x : Char}
    {rest : List Char} (hrest : c.rest = e.braced ++ x :: rest) (hx : ends x = true)
    (hne : x ≠ '{') :
    ∃ span d, readChunks .template ends c =
        .ok ([.mustache ⟨.escaped, String.ofList e.text, span⟩], d) ∧ d.rest = x :: rest := by
  obtain ⟨span, d, hread, hd⟩ := read?_braced h hrest
  have hnone : Mustache.read? d = none := by
    simp [Mustache.read?, Mustache.forms, Cursor.skip?, hd, dropMark?, Ne.symm hne]
  have hafter : takeValueText .template ends d = ([], d) := takeValueText_nil hd (by simp [hx])
  have hend : readChunks .template ends d = .ok ([], d) := by
    rw [readChunks_eq ends (by rw [hafter]; exact hnone), hafter]
    rfl
  refine ⟨span, d, readChunks_of_mustache hread ?_ hend, hd⟩
  exact takeValueText_nil (hrest.trans rfl) (by simp [Mode.mustacheStandsAt, Mustache.standsAt])

/-- An expression between two braces as the value of an attribute, with quotes or without. -/
def asValue (e : WrittenExpression) (quoted : Bool) : List Char :=
  if quoted then '"' :: e.braced ++ ['"'] else e.braced

/-- The value of an attribute that is one mustache. -/
theorem readValue_asValue (h : IsPlainContent e.text) (quoted : Bool) (start : Cursor) {c : Cursor}
    {rest : List Char} (hrest : c.rest = e.asValue quoted ++ '>' :: rest) :
    ∃ span raw d, readValue .template start c = .ok (raw, d) ∧
      raw.chunks = [.mustache ⟨.escaped, String.ofList e.text, span⟩] ∧ raw.isQuoted = quoted ∧
      d.rest = '>' :: rest := by
  cases quoted with
  | true =>
    have hrest' : c.rest = '"' :: (e.braced ++ '"' :: '>' :: rest) := by simpa [asValue] using hrest
    obtain ⟨span, d, hread, hd⟩ := readChunks_braced h (· == '"')
      (c := c.past ['"'] (e.braced ++ '"' :: '>' :: rest)) rfl rfl (by decide)
    refine ⟨span, .quoted [.mustache ⟨.escaped, String.ofList e.text, span⟩],
      d.past ['"'] ('>' :: rest), ?_, rfl, rfl, rfl⟩
    rw [readValue, hrest']
    simp only
    have hskip : d.skip? ['"'] = some (d.past ['"'] ('>' :: rest)) := Cursor.skip?_eq hd
    simp only [readValue.quotedValue, hread, bind, Except.bind, hskip]
  | false =>
    have hrest' : c.rest = e.braced ++ '>' :: rest := hrest
    obtain ⟨span, d, hread, hd⟩ :=
      readChunks_braced h (fun x => isSpace x || x == '>') hrest' rfl (by decide)
    refine ⟨span, .unquoted [.mustache ⟨.escaped, String.ofList e.text, span⟩], d, ?_, rfl, rfl, hd⟩
    have hhead : c.rest = '{' :: ('{' :: e.text ++ ['}', '}'] ++ '>' :: rest) := hrest
    rw [readValue, hhead]
    simp only
    rw [hread]
    rfl

/-! ## templates -/

/-- A mustache on its own is a template that shows its value. -/
theorem ofSource_braced (h : IsPlainContent e.text) (hparams : e.blockParams = [])
    (options : TemplateOptions) :
    ∃ span whole, Template.ofSource options (String.ofList e.braced) =
      .ok { children := [.insertion ⟨e.expression.call, true, span⟩], span := whole } := by
  have hrest : (Cursor.ofSource e.braced).rest = e.braced ++ [] := (List.append_nil _).symm
  obtain ⟨span, d, hread, hd⟩ := read?_braced h hrest
  have hhead : (Cursor.ofSource e.braced).rest = '{' :: ('{' :: e.text ++ ['}', '}']) := rfl
  obtain ⟨hmark, hend, hstart, -⟩ := standsAt_of_ne (x := '{') (by decide)
    ('{' :: e.text ++ ['}', '}'])
  have hcomment : (Cursor.ofSource e.braced).skip? ['<', '!', '-', '-'] = none := by
    rw [Cursor.skip?, hhead, hmark]
    rfl
  have htoken : readToken .template (.ofSource e.braced) =
      .ok (.mustache ⟨.escaped, String.ofList e.text, span⟩, d) := by
    rw [readToken, hcomment, hhead]
    simp only [hend, hstart, Bool.false_eq_true, if_false, Mode.mustache?]
    rw [hread]
    rfl
  have htokens : Reading.ofSource .template (String.ofList e.braced) =
      ⟨[.mustache ⟨.escaped, String.ofList e.text, span⟩], none⟩ := by
    rw [Reading.ofSource, String.toList_ofList,
      readTokens_of_readToken (by rw [hhead]; exact List.cons_ne_nil _ _) htoken,
      readTokens_of_nil hd]
    rfl
  have hinsert : ({} : Construction).insert ⟨.escaped, String.ofList e.text, span⟩ =
      .ok { nodes := [.insertion ⟨e.expression.call, true, span⟩] } := by
    rw [Construction.insert, insertion_eq hparams]
    rfl
  refine ⟨span, ⟨0, byteLength (String.ofList e.braced).toList⟩, ?_⟩
  rw [Template.ofSource, htokens, Template.ofReading, List.foldlM_cons, Construction.step]
  simp only
  rw [hinsert]
  rfl

/-- No space stands in front of a value. -/
theorem exists_asValue_cons (e : WrittenExpression) (quoted : Bool) :
    ∃ x s, e.asValue quoted = x :: s ∧ isSpace x = false := by
  cases quoted with
  | true => exact ⟨'"', e.braced ++ ['"'], rfl, by decide⟩
  | false => exact ⟨'{', '{' :: e.text ++ ['}', '}'], rfl, by decide⟩

/-- An attribute with such a value is the only part of its tag. -/
theorem readTagParts_asValue (h : IsPlainContent e.text) (quoted : Bool) (start : Cursor)
    {name : String} (hname : IsAttributeName name) {c : Cursor} {rest : List Char}
    (hrest : c.rest = ' ' :: (name.toList ++ '=' :: (e.asValue quoted ++ '>' :: rest))) :
    ∃ span raw d, readTagParts .template start c = .ok ([.attr raw], false, d) ∧
      raw.name = name ∧ raw.value.chunks = [.mustache ⟨.escaped, String.ofList e.text, span⟩] ∧
      raw.value.isQuoted = quoted ∧ d.rest = rest := by
  obtain ⟨x, s, hfirst, hx⟩ := e.exists_asValue_cons quoted
  have hcons : e.asValue quoted ++ '>' :: rest = x :: (s ++ '>' :: rest) := by rw [hfirst]; rfl
  obtain ⟨span, v, d, hread, hchunks, hquoted, hd⟩ := readValue_asValue h quoted start
    (c := ((c.past [' '] (name.toList ++ '=' :: x :: (s ++ '>' :: rest))).past name.toList
      ('=' :: x :: (s ++ '>' :: rest))).past ['='] (x :: (s ++ '>' :: rest))) hcons.symm
  rw [hcons] at hrest
  have hattribute := readAttribute_eq start
    (c := c.past [' '] (name.toList ++ '=' :: x :: (s ++ '>' :: rest))) hname rfl hx hread
  obtain ⟨hend, hne, hpart⟩ := readTagPart_eq start hname hrest hattribute
  have hclose : tagEnd? (d.skipWhile isSpace) = some (false, d.past ['>'] rest) := by
    rw [Cursor.skipWhile_eq_self hd (by decide)]
    simp only [tagEnd?, hd]
  exact ⟨span, _, _, readTagParts_part hend hne hpart (readTagParts_end hclose), rfl, hchunks,
    hquoted, rfl⟩

/-- An element without content and with such an attribute. -/
def attributed (e : WrittenExpression) (tag name : String) (quoted : Bool) : List Char :=
  '<' :: (tag.toList ++ ' ' :: (name.toList ++ '=' :: (e.asValue quoted ++
    '>' :: (['<', '/'] ++ (tag.toList ++ ['>'])))))

/-- Such an element is read as its start tag and its end tag. -/
theorem readTokens_attributed (h : IsPlainContent e.text) (quoted : Bool) {tag name : String}
    (htag : IsTagName tag) (hname : IsAttributeName name) {c : Cursor}
    (hrest : c.rest = e.attributed tag name quoted) :
    ∃ span raw start stop, readTokens .template c =
        ⟨[.startTag ⟨tag, [raw], [], false, start⟩, .endTag tag stop], none⟩ ∧
      raw.name = name ∧ raw.value.chunks = [.mustache ⟨.escaped, String.ofList e.text, span⟩] ∧
      raw.value.isQuoted = quoted := by
  obtain ⟨rest, hrest, hbehind⟩ : ∃ rest, c.rest = '<' :: (tag.toList ++ ' ' :: rest) ∧
      rest = name.toList ++ '=' :: (e.asValue quoted ++
        '>' :: (['<', '/'] ++ (tag.toList ++ ['>']))) := ⟨_, hrest, rfl⟩
  obtain ⟨span, raw, d, hparts, hraw, hchunks, hquoted, hd⟩ := readTagParts_asValue h quoted c hname
    (c := (c.past ['<'] (tag.toList ++ ' ' :: rest)).past tag.toList (' ' :: rest))
    (congrArg _ hbehind)
  have htoken := readToken_of_readStartTag htag hrest
    (readStartTag_eq htag hrest (by decide) hparts)
  obtain ⟨stop, f, hend, hf⟩ := readToken_endTag .template htag hd
  refine ⟨span, raw, c.spanTo d, stop, ?_, hraw, hchunks, hquoted⟩
  rw [readTokens_of_readToken (by rw [hrest]; exact List.cons_ne_nil _ _) htoken,
    readTokens_of_readToken (by rw [hd]; exact List.cons_ne_nil _ _) hend, readTokens_of_nil hf]
  rfl

/-- A paragraph whose title is one mustache is a template of one element. -/
theorem ofSource_titled (h : IsPlainContent e.text) (hparams : e.blockParams = [])
    (quoted : Bool) (options : TemplateOptions) :
    ∃ span titleSpan inside whole,
      Template.ofSource options (String.ofList (e.attributed "p" "title" quoted)) =
        .ok
          { children := [.element
              (titledTag (.ofParts quoted [.insertion ⟨e.expression.call, true, span⟩]) titleSpan)
              [] inside]
            span := whole } := by
  have hp : IsTagName "p" := ⟨rfl, List.all_eq_true.1 rfl⟩
  have htitle : IsAttributeName "title" := ⟨by decide, List.all_eq_true.1 rfl⟩
  obtain ⟨span, raw, start, stop, htokens, hraw, hchunks, hquoted⟩ :=
    readTokens_attributed h quoted hp htitle (c := .ofSource (e.attributed "p" "title" quoted)) rfl
  have hattribute : Attribute.ofRaw raw =
      .ok ⟨"title", .ofParts quoted [.insertion ⟨e.expression.call, true, span⟩], raw.span⟩ := by
    rw [Attribute.ofRaw, hchunks, AttributePart.ofChunks]
    simp only
    rw [insertion_eq hparams, hquoted, hraw]
    rfl
  have hvoid : isVoidTag "p" = false := by decide
  have hopen : ({} : Construction).startTag options ⟨"p", [raw], [], false, start⟩ =
      .ok (({} : Construction).enter
        (.element
          (titledTag (.ofParts quoted [.insertion ⟨e.expression.call, true, span⟩]) raw.span)
          start) .xhtml) := by
    have hcomponent : isComponentTag "p" = false := by decide
    have hns : Namespace.ofElement "p" .xhtml = .xhtml := by decide
    rw [Construction.startTag, List.mapM_cons, hattribute, List.mapM_nil]
    simp only [hcomponent, Bool.and_false, Construction.startElement, hvoid, hns]
    rfl
  have hclose : ∀ tag s, (Construction.enter {} (.element (titledTag tag s) start) .xhtml).endTag
      "p" stop = .ok { nodes := [.element (titledTag tag s) [] ⟨start.lo, stop.hi⟩] } := by
    intro tag s
    have hsame : sameTag "p" "p" = true := by decide
    simp only [Construction.endTag, Construction.enter, hvoid, titledTag, hsame, if_true]
    rfl
  refine ⟨span, raw.span, ⟨start.lo, stop.hi⟩,
    ⟨0, byteLength (String.ofList (e.attributed "p" "title" quoted)).toList⟩, ?_⟩
  rw [Template.ofSource, Reading.ofSource, String.toList_ofList, htokens, Template.ofReading,
    List.foldlM_cons, Construction.step, hopen]
  show List.foldlM (Construction.step options) (Construction.enter {} _ .xhtml)
    [.endTag "p" stop] >>= _ = _
  rw [List.foldlM_cons, Construction.step, hclose]
  rfl

end WrittenExpression

/-! ## literals -/

/-- A text is plain content if its first character begins neither a block nor a comment nor
`else`. -/
theorem IsPlainContent.of_first {c : Char} {s : List Char}
    (h : c ∉ ['#', '/', '!', '{', 'e']) : IsPlainContent (c :: s) := by
  simp only [List.mem_cons, List.not_mem_nil, or_false, not_or] at h
  obtain ⟨hopening, hclosing, hcomment, hbrace, he⟩ := h
  refine ⟨?_, fun heq => he (List.cons.inj heq).1, fun hprefix => ?_⟩
  · simp [hopening, hclosing, hcomment, hbrace]
  · obtain ⟨t, ht⟩ := hprefix
    exact he (List.cons.inj ht).1.symm

namespace WrittenAtom

/-- A literal begins with a quote, a sign, a digit, or the first letter of a boolean. -/
theorem isPlainContent_literal {a : WrittenAtom} (h : a.param.type.isLiteral = true) :
    IsPlainContent a.text := by
  cases a with
  | path p => cases h
  | string q =>
    refine .of_first ?_
    rcases q.isQuote with hquote | hquote <;> rw [hquote] <;> decide
  | number n =>
    have hdigit : ∀ c, c.isDigit = true → c ∉ ['#', '/', '!', '{', 'e'] := by
      intro c hc hmem
      simp only [List.mem_cons, List.not_mem_nil, or_false] at hmem
      rcases hmem with rfl | rfl | rfl | rfl | rfl <;> exact absurd hc (by decide)
    obtain ⟨c, s, hs⟩ := List.exists_cons_of_ne_nil n.whole_ne_nil
    have hc : c.isDigit = true := n.isDigit_whole c (by rw [hs]; exact List.mem_cons_self)
    rw [text, Numeral.text, Numeral.sign, hs]
    cases n.negative with
    | true => exact .of_first (by decide)
    | false => exact .of_first (hdigit c hc)
  | boolean b => cases b <;> exact .of_first (by decide)

/-- A literal on its own. -/
def alone (a : WrittenAtom) : WrittenExpression := ⟨.mk a [] [], []⟩

/-- The name of the joining helper. -/
def concatWord : PathWord :=
  ⟨Builtin.concat.name.toList, by decide, List.all_eq_true.1 (by decide),
    ne_numeral_of_numberLiteral? rfl, by decide⟩

/-- The joining helper, called with a literal. -/
def joined (a : WrittenAtom) : WrittenExpression := ⟨.mk (.path concatWord) [.atom a] [], []⟩

theorem text_alone (a : WrittenAtom) : a.alone.text = a.text := by
  simp [alone, WrittenExpression.text, WrittenCall.text, paramsText, hashText, blockParamsText]

theorem call_alone {a : WrittenAtom} (h : a.param.type.isLiteral = true) :
    a.alone.expression.call = { path := a.param.text, literal := some a.param } := by
  simp [alone, WrittenExpression.expression, WrittenCall.call, writtenParams, writtenHash,
    callee_of_isLiteral h]

theorem call_joined (a : WrittenAtom) :
    a.joined.expression.call = { path := Builtin.concat.name, params := [a.param] } := by
  simp [joined, WrittenExpression.expression, WrittenCall.call, writtenParams, writtenHash, callee,
    WrittenParam.param, concatWord]

theorem isPlainContent_joined (a : WrittenAtom) : IsPlainContent a.joined.text := by
  rw [joined, WrittenExpression.text, WrittenCall.text, text]
  exact .of_first (by decide)

end WrittenAtom

end LiveTemplate
