import LiveTemplate.Markup.Token
import LiveTemplate.Text.Alphanumeric
import LiveTemplate.Text.Reference

/-!
# LiveTemplate.Markup.Token.Tag

Reading start and end tags.

A tag is read part by part: attributes, mustaches, stray slashes, and the `>` or
`/>` that ends it.  Each part is at least one character long, so a tag ends.
-/

namespace LiveTemplate

/-- Whether mustaches are recognized, or are text like any other. -/
inductive Mode where
  | template
  | html
deriving DecidableEq, Repr

/-- Reads the mustache at the cursor, where mustaches are recognized. -/
def Mode.mustache? (mode : Mode) (c : Cursor) : Option (Except ParseError (Mustache × Cursor)) :=
  match mode with
  | .template => Mustache.read? c
  | .html => none

/-- Whether a mustache that is recognized stands at the start of a text. -/
def Mode.mustacheStandsAt (mode : Mode) (s : List Char) : Bool :=
  match mode with
  | .template => Mustache.standsAt s
  | .html => false

theorem Mode.passes_mustache? {mode : Mode} {c d : Cursor} {m : Mustache}
    (h : mode.mustache? c = some (.ok (m, d))) : c.Passes d := by
  cases mode with
  | template => exact Mustache.passes_read? h
  | html => simp [Mode.mustache?] at h

/-! ## names -/

/-- The characters of a tag name. -/
def isTagCharacter (c : Char) : Bool :=
  isAlphanumeric c || c == '-' || c == '_' || c == ':' || c == '.'

/-- Whether a tag name stands at the start of a text: names start with an ASCII letter. -/
def tagStandsAt : List Char → Bool
  | c :: _ => c.isAlpha
  | [] => false

/-- The characters of an attribute name. -/
def isAttributeCharacter (c : Char) : Bool :=
  !(isSpace c || ['=', '>', '/', '"', '\'', '<', '{'].contains c)

/-- An attribute name goes on up to a space character or one of the marks of a tag. -/
theorem isAttributeCharacter_iff {c : Char} :
    isAttributeCharacter c = true ↔
      isSpace c = false ∧ c ∉ ['=', '>', '/', '"', '\'', '<', '{'] := by
  rw [isAttributeCharacter, Bool.not_eq_true', Bool.or_eq_false_iff, List.contains_eq_mem,
    decide_eq_false_iff_not]

/-- Reads the tag name at the cursor. -/
def readTagName? (c : Cursor) : Option (List Char × Cursor) :=
  if tagStandsAt c.rest then some (c.takeWhile isTagCharacter) else none

/-! ## attribute values -/

/-- The text of a piece of a value, if it has any. -/
def textChunk (raw : List Char) : List Chunk :=
  if raw.isEmpty then [] else [.text (String.ofList (decodeReferences raw))]

/-- The text up to the next mustache or to the end of the value, and the cursor there. -/
def takeValueText (mode : Mode) (ends : Char → Bool) (c : Cursor) : List Char × Cursor :=
  c.takeUntil fun s => s.head?.any ends || mode.mustacheStandsAt s

/-- Reads the pieces of a value up to a character which satisfies `ends`, or to the end of the
source. -/
def readChunks (mode : Mode) (ends : Char → Bool) (c : Cursor) :
    Except ParseError (List Chunk × Cursor) :=
  let text := takeValueText mode ends c
  match _h : mode.mustache? text.2 with
  | none => .ok (textChunk text.1, text.2)
  | some (.error e) => .error e
  | some (.ok (m, d)) => do
    let (chunks, e) ← readChunks mode ends d
    .ok (textChunk text.1 ++ .mustache m :: chunks, e)
termination_by c.rest.length
decreasing_by
  exact ((Cursor.reads_takeUntil _ c).reaches.trans_passes (Mode.passes_mustache? _h)).length_lt

/-- Reads the value behind the equals sign.  `start` is the cursor at the tag's `<`. -/
def readValue (mode : Mode) (start c : Cursor) : Except ParseError (RawValue × Cursor) :=
  match c.rest with
  | '"' :: rest => quotedValue '"' (c.past ['"'] rest)
  | '\'' :: rest => quotedValue '\'' (c.past ['\''] rest)
  | _ => do
    let (chunks, d) ← readChunks mode (fun x => isSpace x || x == '>') c
    .ok (.unquoted chunks, d)
where
  /-- Reads a value from behind its opening quote. -/
  quotedValue (quote : Char) (c : Cursor) : Except ParseError (RawValue × Cursor) := do
    let (chunks, d) ← readChunks mode (· == quote) c
    match d.skip? [quote] with
    | some e => .ok (.quoted chunks, e)
    | none => .error ⟨.unterminatedTag, start.spanToStop⟩

/-! ## parts -/

/-- A part of a start tag behind its name. -/
inductive TagPart where
  | attr (attr : RawAttribute)
  | modifier (modifier : Mustache)
  | slash
deriving DecidableEq, Repr

/-- Reads an attribute.  `start` is the cursor at the tag's `<`. -/
def readAttribute (mode : Mode) (start c : Cursor) : Except ParseError (RawAttribute × Cursor) :=
  match c.takeWhile isAttributeCharacter with
  | ([], _) =>
    .error ⟨.invalidAttribute (String.ofList (c.rest.take 1)) .unexpectedCharacter,
      ⟨c.offset, c.offset + 1⟩⟩
  | (name, d) =>
    match (d.skipWhile isSpace).skip? ['='] with
    | none => .ok (⟨String.ofList name, .empty, c.spanTo d⟩, d)
    | some e => do
      let (value, f) ← readValue mode start (e.skipWhile isSpace)
      .ok (⟨String.ofList name, value, c.spanTo f⟩, f)

/-- Reads one part of a start tag, at a cursor where the tag does not end. -/
def readTagPart (mode : Mode) (start c : Cursor) : Except ParseError (TagPart × Cursor) :=
  match c.rest with
  | '/' :: rest => .ok (.slash, c.past ['/'] rest)
  | _ =>
    match mode.mustache? c with
    | some read => read.map fun (m, d) => (.modifier m, d)
    | none => (readAttribute mode start c).map fun (a, d) => (.attr a, d)

/-- The end of a start tag at the cursor, and whether it closes the element. -/
def tagEnd? (c : Cursor) : Option (Bool × Cursor) :=
  match c.rest with
  | '/' :: '>' :: rest => some (true, c.past ['/', '>'] rest)
  | '>' :: rest => some (false, c.past ['>'] rest)
  | _ => none

/-! ## progress -/

theorem reaches_readChunks {mode : Mode} {ends : Char → Bool} {c f : Cursor} {chunks : List Chunk}
    (h : readChunks mode ends c = .ok (chunks, f)) : c.Reaches f := by
  fun_induction readChunks mode ends c generalizing chunks f with
  | case1 c text =>
    simp only [Except.ok.injEq, Prod.mk.injEq] at h
    rw [← h.2]
    exact (Cursor.reads_takeUntil _ c).reaches
  | case2 => simp at h
  | case3 c text m d hm =>
    rename_i ih
    obtain ⟨⟨more, e⟩, hmore, h⟩ := exists_of_bind_eq_ok h
    simp only [Except.ok.injEq, Prod.mk.injEq] at h
    rw [← h.2]
    exact (Cursor.reads_takeUntil _ c).reaches.trans
      ((Mode.passes_mustache? hm).reaches.trans (ih hmore))

theorem reaches_quotedValue {mode : Mode} {start c f : Cursor} {quote : Char} {v : RawValue}
    (h : readValue.quotedValue mode start quote c = .ok (v, f)) : c.Reaches f := by
  obtain ⟨⟨chunks, d⟩, hchunks, h⟩ := exists_of_bind_eq_ok h
  simp only at h
  split at h
  · next e he =>
    simp only [Except.ok.injEq, Prod.mk.injEq] at h
    rw [← h.2]
    exact (reaches_readChunks hchunks).trans (Cursor.reads_skip? he).reaches
  · simp at h

theorem reaches_readValue {mode : Mode} {start c f : Cursor} {v : RawValue}
    (h : readValue mode start c = .ok (v, f)) : c.Reaches f := by
  unfold readValue at h
  split at h
  · next rest hrest =>
    exact (Cursor.reads_mark ['"'] hrest).reaches.trans (reaches_quotedValue h)
  · next rest hrest =>
    exact (Cursor.reads_mark ['\''] hrest).reaches.trans (reaches_quotedValue h)
  · obtain ⟨⟨chunks, d⟩, hchunks, h⟩ := exists_of_bind_eq_ok h
    simp only [Except.ok.injEq, Prod.mk.injEq] at h
    rw [← h.2]
    exact reaches_readChunks hchunks

theorem passes_readAttribute {mode : Mode} {start c f : Cursor} {a : RawAttribute}
    (h : readAttribute mode start c = .ok (a, f)) : c.Passes f := by
  unfold readAttribute at h
  have hname := Cursor.reads_takeWhile isAttributeCharacter c
  split at h
  · simp at h
  · next name d hne heq =>
    rw [heq] at hname
    have hpass : c.Passes d := hname.passes hne
    split at h
    · simp only [Except.ok.injEq, Prod.mk.injEq] at h
      exact h.2 ▸ hpass
    · next e he =>
      obtain ⟨⟨value, g⟩, hvalue, h⟩ := exists_of_bind_eq_ok h
      simp only [Except.ok.injEq, Prod.mk.injEq] at h
      rw [← h.2]
      exact hpass.trans_reaches ((Cursor.reaches_skipWhile isSpace d).trans
        ((Cursor.reads_skip? he).reaches.trans
          ((Cursor.reaches_skipWhile isSpace e).trans (reaches_readValue hvalue))))

/-- A part of a tag is at least one character long. -/
theorem passes_readTagPart {mode : Mode} {start c f : Cursor} {part : TagPart}
    (h : readTagPart mode start c = .ok (part, f)) : c.Passes f := by
  unfold readTagPart at h
  split at h
  · next rest hrest =>
    simp only [Except.ok.injEq, Prod.mk.injEq] at h
    rw [← h.2]
    exact (Cursor.reads_mark ['/'] hrest).passes (by simp)
  · split at h
    · next read hread =>
      obtain ⟨⟨m, d⟩, rfl, heq⟩ := exists_of_map_eq_ok h
      simp only [Prod.mk.injEq] at heq
      exact heq.2 ▸ Mode.passes_mustache? hread
    · obtain ⟨⟨a, d⟩, hread, h⟩ := exists_of_map_eq_ok h
      simp only [Prod.mk.injEq] at h
      exact h.2 ▸ passes_readAttribute hread

theorem passes_tagEnd? {c d : Cursor} {selfClosing : Bool} (h : tagEnd? c = some (selfClosing, d)) :
    c.Passes d := by
  unfold tagEnd? at h
  split at h
  · next rest hrest =>
    simp only [Option.some.injEq, Prod.mk.injEq] at h
    rw [← h.2]
    exact (Cursor.reads_mark ['/', '>'] hrest).passes (by simp)
  · next rest hrest =>
    simp only [Option.some.injEq, Prod.mk.injEq] at h
    rw [← h.2]
    exact (Cursor.reads_mark ['>'] hrest).passes (by simp)
  · simp at h

/-! ## tags -/

/-- Reads the parts of a start tag and its end. -/
def readTagParts (mode : Mode) (start c : Cursor) :
    Except ParseError (List TagPart × Bool × Cursor) :=
  let d := c.skipWhile isSpace
  if d.rest.isEmpty then .error ⟨.unterminatedTag, start.spanToStop⟩
  else
    match tagEnd? d with
    | some (selfClosing, e) => .ok ([], selfClosing, e)
    | none =>
      match _h : readTagPart mode start d with
      | .error e => .error e
      | .ok (part, e) => do
        let (parts, selfClosing, f) ← readTagParts mode start e
        .ok (part :: parts, selfClosing, f)
termination_by c.rest.length
decreasing_by
  exact ((Cursor.reaches_skipWhile isSpace c).trans_passes (passes_readTagPart _h)).length_lt

/-- Reads the start tag at the cursor, which stands at `<` and a tag name. -/
def readStartTag (mode : Mode) (c : Cursor) : Except ParseError (StartTag × Cursor) :=
  match (c.skip? ['<']).bind readTagName? with
  | none => .error ⟨.unterminatedTag, c.spanToStop⟩
  | some (name, d) => do
    let (parts, selfClosing, e) ← readTagParts mode c d
    .ok
      ({ name := String.ofList name
         attributes := parts.filterMap fun | .attr a => some a | _ => none
         modifiers := parts.filterMap fun | .modifier m => some m | _ => none
         selfClosing
         span := c.spanTo e }, e)

/-- Reads the end tag at the cursor: `</`, a name, blanks and `>`. -/
def readEndTag? (c : Cursor) : Option (List Char × Cursor) := do
  let opened ← c.skip? ['<', '/']
  let (name, d) ← readTagName? opened
  let e ← (d.skipWhile isBlank).skip? ['>']
  some (name, e)

theorem reaches_readTagName? {c d : Cursor} {name : List Char}
    (h : readTagName? c = some (name, d)) : c.Reaches d := by
  unfold readTagName? at h
  split at h
  · simp only [Option.some.injEq] at h
    have := Cursor.reads_takeWhile isTagCharacter c
    rw [h] at this
    exact this.reaches
  · simp at h

theorem passes_readTagParts {mode : Mode} {start c f : Cursor} {parts : List TagPart}
    {selfClosing : Bool} (h : readTagParts mode start c = .ok (parts, selfClosing, f)) :
    c.Passes f := by
  fun_induction readTagParts mode start c generalizing parts selfClosing f with
  | case1 => simp at h
  | case2 c d hne closes e =>
    rename_i hend
    simp only [Except.ok.injEq, Prod.mk.injEq] at h
    rw [← h.2.2]
    exact (Cursor.reaches_skipWhile isSpace c).trans_passes (passes_tagEnd? hend)
  | case3 => simp at h
  | case4 c d hne hend part e hpart =>
    rename_i ih
    obtain ⟨⟨more, closes, g⟩, hmore, h⟩ := exists_of_bind_eq_ok h
    simp only [Except.ok.injEq, Prod.mk.injEq] at h
    rw [← h.2.2]
    have hfirst := (Cursor.reaches_skipWhile isSpace c).trans_passes (passes_readTagPart hpart)
    exact hfirst.trans_reaches (ih hmore).reaches

theorem passes_readStartTag {mode : Mode} {c f : Cursor} {tag : StartTag}
    (h : readStartTag mode c = .ok (tag, f)) : c.Passes f := by
  unfold readStartTag at h
  split at h
  · simp at h
  · next name d hname =>
    obtain ⟨opened, hskip, hname⟩ := Option.bind_eq_some_iff.1 hname
    obtain ⟨⟨parts, closes, e⟩, hparts, h⟩ := exists_of_bind_eq_ok h
    simp only [Except.ok.injEq, Prod.mk.injEq] at h
    rw [← h.2]
    exact ((Cursor.reads_skip? hskip).passes (by simp)).trans_reaches
      ((reaches_readTagName? hname).trans (passes_readTagParts hparts).reaches)

theorem passes_readEndTag? {c f : Cursor} {name : List Char}
    (h : readEndTag? c = some (name, f)) : c.Passes f := by
  simp only [readEndTag?, Option.bind_eq_bind, Option.bind_eq_some_iff] at h
  obtain ⟨opened, hskip, ⟨name', d⟩, hname, e, hclose, heq⟩ := h
  simp only [Option.some.injEq, Prod.mk.injEq] at heq
  rw [← heq.2]
  exact ((Cursor.reads_skip? hskip).passes (by simp)).trans_reaches
    ((reaches_readTagName? hname).trans
      ((Cursor.reaches_skipWhile isBlank d).trans (Cursor.reads_skip? hclose).reaches))

end LiveTemplate
