import LiveTemplate.Markup.Token.Tag

/-!
# LiveTemplate.Markup.Token.Source

The tokens of a source.

1. `<!--` begins a comment, which ends at the next `-->`.
2. `</` and a letter begin an end tag, `<` and a letter a start tag.
3. Two braces begin a mustache, where mustaches are recognized.
4. Everything else is text, up to the next place where one of these begins.

Reading stops at the first fault.  The tokens before it are kept, since the faults
of their own that they may have come first in document order.
-/

namespace LiveTemplate

/-- Whether something other than text begins here. -/
def Mode.textEndsAt (mode : Mode) : List Char → Bool
  | '<' :: rest =>
    tagStandsAt rest || ['!', '-', '-'].isPrefixOf rest ||
      (match rest with
        | '/' :: name => tagStandsAt name
        | _ => false)
  | s => mode.mustacheStandsAt s

/-- Reads the text at the cursor.  Its first character is known not to begin anything else. -/
def readText (mode : Mode) (c : Cursor) : List Char × Cursor :=
  match c.rest with
  | [] => ([], c)
  | first :: rest =>
    let (more, after) := breakAt mode.textEndsAt rest
    (first :: more, c.past (first :: more) after)

/-- Reads the comment whose opening has just been read. -/
def readComment (start inside : Cursor) : Except ParseError (Token × Cursor) :=
  match inside.readTo? ['-', '-', '>'] with
  | some (text, d) => .ok (.comment (String.ofList text) (start.spanTo d), d)
  | none => .error ⟨.unterminatedComment, start.spanToStop⟩

/-- Whether an end tag begins here. -/
def endTagStandsAt : List Char → Bool
  | '<' :: '/' :: name => tagStandsAt name
  | _ => false

/-- Whether a start tag begins here. -/
def startTagStandsAt : List Char → Bool
  | '<' :: name => tagStandsAt name
  | _ => false

/-- Reads the token at a cursor that is not at the end of the source. -/
def readToken (mode : Mode) (c : Cursor) : Except ParseError (Token × Cursor) :=
  match c.skip? ['<', '!', '-', '-'] with
  | some inside => readComment c inside
  | none =>
    if endTagStandsAt c.rest then
      match readEndTag? c with
      | some (name, d) => .ok (.endTag (String.ofList name) (c.spanTo d), d)
      | none => .error ⟨.unterminatedTag, c.spanToStop⟩
    else if startTagStandsAt c.rest then
      (readStartTag mode c).map fun (tag, d) => (.startTag tag, d)
    else
      match mode.mustache? c with
      | some read => read.map fun (m, d) => (.mustache m, d)
      | none =>
        let (raw, d) := readText mode c
        .ok (.text (String.ofList (decodeReferences raw)) (c.spanTo d), d)

/-! ## progress -/

theorem reads_readText {mode : Mode} {c : Cursor} :
    c.Reads (readText mode c).1 (readText mode c).2 := by
  unfold readText
  split
  · next h => exact ⟨by simp [h], by simp [byteLength]⟩
  · next first rest h =>
    exact Cursor.reads_past (by rw [h, List.cons_append, breakAt_append])

theorem readText_ne_nil {mode : Mode} {c : Cursor} (h : c.rest ≠ []) :
    (readText mode c).1 ≠ [] := by
  unfold readText
  split <;> simp_all

/-- A token is at least one character long. -/
theorem passes_readToken {mode : Mode} {c d : Cursor} {token : Token} (hne : c.rest ≠ [])
    (h : readToken mode c = .ok (token, d)) : c.Passes d := by
  unfold readToken at h
  split at h
  · next inside hskip =>
    unfold readComment at h
    split at h
    · next text e hread =>
      simp only [Except.ok.injEq, Prod.mk.injEq] at h
      rw [← h.2]
      exact ((Cursor.reads_skip? hskip).passes (by simp)).trans_reaches
        (Cursor.reads_readTo? hread).reaches
    · simp at h
  · split at h
    · split at h
      · next name e hread =>
        simp only [Except.ok.injEq, Prod.mk.injEq] at h
        exact h.2 ▸ passes_readEndTag? hread
      · simp at h
    · split at h
      · obtain ⟨⟨tag, e⟩, hread, heq⟩ := exists_of_map_eq_ok h
        simp only [Prod.mk.injEq] at heq
        exact heq.2 ▸ passes_readStartTag hread
      · split at h
        · next read hread =>
          obtain ⟨⟨m, e⟩, rfl, heq⟩ := exists_of_map_eq_ok h
          simp only [Prod.mk.injEq] at heq
          exact heq.2 ▸ Mode.passes_mustache? hread
        · simp only [Except.ok.injEq, Prod.mk.injEq] at h
          rw [← h.2]
          exact reads_readText.passes (readText_ne_nil hne)

/-! ## the whole source -/

/-- What a source reads as: its tokens up to the first fault, and that fault. -/
structure Reading where
  tokens : List Token
  error? : Option ParseError
deriving DecidableEq, Repr

/-- The reading with one token more in front. -/
def Reading.cons (token : Token) (r : Reading) : Reading := { r with tokens := token :: r.tokens }

/-- Reads all tokens from the cursor on. -/
def readTokens (mode : Mode) (c : Cursor) : Reading :=
  if _hne : c.rest = [] then ⟨[], none⟩
  else
    match _h : readToken mode c with
    | .error e => ⟨[], some e⟩
    | .ok (token, d) => (readTokens mode d).cons token
termination_by c.rest.length
decreasing_by exact (passes_readToken _hne _h).length_lt

/-- Reads the tokens of a source. -/
def Reading.ofSource (mode : Mode) (source : String) : Reading :=
  readTokens mode (.ofSource source.toList)

/-- The tokens of a source without a fault. -/
def tokens? (mode : Mode) (source : String) : Except ParseError (List Token) :=
  let reading := Reading.ofSource mode source
  match reading.error? with
  | none => .ok reading.tokens
  | some e => .error e

end LiveTemplate
