import LiveTemplate.Markup.Mustache
import LiveTemplate.Proofs.Expr.Reading
import LiveTemplate.Proofs.Text.Trimming

/-!
# LiveTemplate.Proofs.Expr.RoundTrip

Written expressions are read as what they are written for, on their own and between braces.

An expression has no white space at its ends (`IsTrimmed`), and nothing in it ends the mustache
that it stands in (`KeepsOpen`).
-/

namespace LiveTemplate

/-! ## the ends of an expression -/

/-- A text with other characters than white space at both ends. -/
structure IsTrimmed (s : List Char) : Prop where
  first : ∃ c t, s = c :: t ∧ isWhiteSpace c = false
  last : ∃ t c, s = t ++ [c] ∧ isWhiteSpace c = false

namespace IsTrimmed

theorem trim_eq {s : List Char} (h : IsTrimmed s) : trim s = s := by
  obtain ⟨⟨c, t, hs, hc⟩, u, d, hs', hd⟩ := h
  refine trim_eq_iff.2 ⟨⟨[], [], by simp, by simp⟩, fun e he => ?_, fun e he => ?_⟩
  · rw [hs, List.head?_cons] at he
    rwa [← Option.some.inj he]
  · rw [hs', List.getLast?_concat] at he
    rwa [← Option.some.inj he]

theorem append {s t : List Char} (h : IsTrimmed s) (k : IsTrimmed t) (between : List Char) :
    IsTrimmed (s ++ (between ++ t)) := by
  obtain ⟨c, s', rfl, hc⟩ := h.first
  obtain ⟨t', d, rfl, hd⟩ := k.last
  exact ⟨⟨c, _, rfl, hc⟩, c :: s' ++ (between ++ t'), d, by simp, hd⟩

/-- Two marks with anything between them. -/
theorem marks {c d : Char} (hc : isWhiteSpace c = false) (hd : isWhiteSpace d = false)
    (s : List Char) : IsTrimmed (c :: s ++ [d]) :=
  ⟨⟨c, _, rfl, hc⟩, c :: s, d, rfl, hd⟩

theorem word {w : List Char} (hne : w ≠ []) (hw : ∀ c ∈ w, isPathCharacter c = true) :
    IsTrimmed w := by
  have hspace : ∀ c ∈ w, isWhiteSpace c = false := fun c hc => by
    rw [← Bool.not_eq_true]
    exact fun hspace => ne_of_isPathCharacter (hw c hc) (isPathCharacter_of_isWhiteSpace hspace) rfl
  obtain ⟨c, t, hs⟩ := List.exists_cons_of_ne_nil hne
  exact ⟨⟨c, t, hs, hspace c (by simp [hs])⟩, w.dropLast, w.getLast hne,
    (List.dropLast_concat_getLast hne).symm, hspace _ (List.getLast_mem hne)⟩

end IsTrimmed

theorem WrittenAtom.isTrimmed_text (a : WrittenAtom) : IsTrimmed a.text := by
  rcases a.exists_text_eq with ⟨q, rfl⟩ | ⟨hne, hpath⟩
  · have hquote : isWhiteSpace q.quote = false := by
      rcases q.isQuote with h | h <;> rw [h] <;> decide
    exact .marks hquote hquote q.content
  · exact .word hne hpath

theorem WrittenParam.isTrimmed_text (p : WrittenParam) : IsTrimmed p.text := by
  cases p with
  | atom a =>
    rw [text]
    exact a.isTrimmed_text
  | call c =>
    rw [text]
    exact .marks (by decide) (by decide) c.text

theorem isTrimmed_append_paramsText {s : List Char} (h : IsTrimmed s)
    (params : List WrittenParam) : IsTrimmed (s ++ paramsText params) := by
  induction params generalizing s with
  | nil => simpa [paramsText] using h
  | cons p params ih => simpa [paramsText] using ih (h.append p.isTrimmed_text [' '])

theorem isTrimmed_append_hashText {s : List Char} (h : IsTrimmed s)
    (pairs : List (KeyWord × WrittenParam)) : IsTrimmed (s ++ hashText pairs) := by
  induction pairs generalizing s with
  | nil => simpa [hashText] using h
  | cons pair pairs ih =>
    simpa [hashText] using ih (h.append pair.2.isTrimmed_text (' ' :: pair.1.text ++ ['=']))

/-- An expression begins and ends with other characters than white space. -/
theorem WrittenExpression.isTrimmed_text (e : WrittenExpression) : IsTrimmed e.text := by
  obtain ⟨⟨callee, params, pairs⟩, names⟩ := e
  have hcall := isTrimmed_append_hashText
    (isTrimmed_append_paramsText callee.isTrimmed_text params) pairs
  rw [text, WrittenCall.text]
  cases names with
  | nil => simpa [blockParamsText] using hcall
  | cons name names =>
    have hnames := hcall.append (.marks (c := '|') (d := '|') (by decide) (by decide)
      ([' '].intercalate ((name :: names).map KeyWord.text))) [' ', 'a', 's', ' ']
    simpa [blockParamsText] using hnames

/-! ## between braces -/

/-- Whether a mustache that is open in front of a text is open behind it: strings in the text are
closed again, and outside of them it has no brace. -/
def KeepsOpen (s : List Char) : Prop :=
  ∀ marks t, cutOutsideQuotes? ('}' :: marks) none (s ++ t) =
    (cutOutsideQuotes? ('}' :: marks) none t).map fun (before, after) => (s ++ before, after)

namespace KeepsOpen

theorem nil : KeepsOpen [] := by
  intro marks t
  rw [List.nil_append]
  cases cutOutsideQuotes? ('}' :: marks) none t <;> rfl

theorem append {s t : List Char} (h : KeepsOpen s) (k : KeepsOpen t) : KeepsOpen (s ++ t) := by
  intro marks u
  rw [List.append_assoc, h, k, Option.map_map]
  congr 1
  funext pair
  simp

theorem character {c : Char} (hdouble : c ≠ '"') (hsingle : c ≠ '\'') (hbrace : c ≠ '}') :
    KeepsOpen [c] := by
  intro marks t
  simp [cutOutsideQuotes?, hdouble, hsingle, dropMark?, Ne.symm hbrace]

theorem of_forall {s : List Char} (h : ∀ c ∈ s, c ≠ '"' ∧ c ≠ '\'' ∧ c ≠ '}') : KeepsOpen s := by
  induction s with
  | nil => exact nil
  | cons c s ih =>
    rw [List.forall_mem_cons] at h
    exact (character h.1.1 h.1.2.1 h.1.2.2).append (ih h.2)

theorem word {w : List Char} (hw : ∀ c ∈ w, isPathCharacter c = true) : KeepsOpen w :=
  of_forall fun c hc => ⟨ne_of_isPathCharacter (hw c hc) (by decide),
    ne_of_isPathCharacter (hw c hc) (by decide), ne_of_isPathCharacter (hw c hc) (by decide)⟩

end KeepsOpen

/-- Inside a string nothing is looked for but its end. -/
theorem cutOutsideQuotes?_quoted (mark : List Char) {q : Char} {s : List Char} (hs : q ∉ s)
    (t : List Char) : cutOutsideQuotes? mark (some q) (s ++ q :: t) =
      (cutOutsideQuotes? mark none t).map fun (before, after) => (s ++ q :: before, after) := by
  induction s with
  | nil => simp [cutOutsideQuotes?]
  | cons c s ih =>
    rw [List.mem_cons, not_or] at hs
    rw [List.cons_append, cutOutsideQuotes?, if_neg (Ne.symm hs.1), ih hs.2, Option.map_map]
    rfl

theorem QuotedWord.keepsOpen_text (q : QuotedWord) : KeepsOpen q.text := by
  intro marks t
  have htext : q.text ++ t = q.quote :: (q.content ++ q.quote :: t) := by simp [text]
  rw [htext, cutOutsideQuotes?, if_pos q.isQuote, cutOutsideQuotes?_quoted _ q.not_mem,
    Option.map_map]
  congr 1
  funext pair
  simp [text]

theorem WrittenAtom.keepsOpen_text (a : WrittenAtom) : KeepsOpen a.text := by
  rcases a.exists_text_eq with ⟨q, rfl⟩ | ⟨-, hpath⟩
  · exact q.keepsOpen_text
  · exact .word hpath

theorem KeyWord.keepsOpen_text (k : KeyWord) : KeepsOpen k.text :=
  .word fun c hc => isPathCharacter_of_isKeyCharacter (k.isKeyCharacter c hc)

mutual

theorem WrittenParam.keepsOpen_text : (p : WrittenParam) → KeepsOpen p.text
  | .atom a => by
    rw [WrittenParam.text]
    exact a.keepsOpen_text
  | .call c => by
    rw [WrittenParam.text]
    exact ((KeepsOpen.of_forall (s := ['(']) (by simp)).append c.keepsOpen_text).append
      (.of_forall (by simp))

theorem WrittenCall.keepsOpen_text : (c : WrittenCall) → KeepsOpen c.text
  | .mk callee params pairs => by
    rw [WrittenCall.text]
    exact (callee.keepsOpen_text.append (keepsOpen_paramsText params)).append
      (keepsOpen_hashText pairs)

theorem keepsOpen_paramsText : (params : List WrittenParam) → KeepsOpen (paramsText params)
  | [] => by
    rw [paramsText]
    exact .nil
  | p :: params => by
    rw [paramsText]
    exact ((KeepsOpen.of_forall (s := [' ']) (by simp)).append p.keepsOpen_text).append
      (keepsOpen_paramsText params)

theorem keepsOpen_hashText : (pairs : List (KeyWord × WrittenParam)) → KeepsOpen (hashText pairs)
  | [] => by
    rw [hashText]
    exact .nil
  | (key, value) :: pairs => by
    have hpair := ((KeepsOpen.of_forall (s := [' ']) (by simp)).append key.keepsOpen_text).append
      ((KeepsOpen.of_forall (s := ['=']) (by simp)).append
        (value.keepsOpen_text.append (keepsOpen_hashText pairs)))
    rw [hashText]
    simpa using hpair

end

theorem keepsOpen_blockParamsText (names : List KeyWord) : KeepsOpen (blockParamsText names) := by
  cases names with
  | nil => exact .nil
  | cons name names =>
    have hinside : KeepsOpen ([' '].intercalate ((name :: names).map KeyWord.text)) := by
      refine .of_forall fun c hc => ?_
      rcases KeyWord.forall_mem_intercalate (name :: names) c hc with hkey | rfl
      · have hpath := isPathCharacter_of_isKeyCharacter hkey
        exact ⟨ne_of_isPathCharacter hpath (by decide), ne_of_isPathCharacter hpath (by decide),
          ne_of_isPathCharacter hpath (by decide)⟩
      · decide
    exact ((KeepsOpen.of_forall (s := [' ', 'a', 's', ' ', '|']) (by simp)).append hinside).append
      (.of_forall (by simp))

theorem WrittenExpression.keepsOpen_text (e : WrittenExpression) : KeepsOpen e.text :=
  e.call.keepsOpen_text.append (keepsOpen_blockParamsText e.blockParams)

/-- Whether a text between two braces is neither the opening nor the closing of a block, nor a
comment, nor `else`. -/
structure IsPlainContent (s : List Char) : Prop where
  first : ∀ c ∈ s.head?, c ∉ ['#', '/', '!', '{']
  ne_else : s ≠ ['e', 'l', 's', 'e']
  not_chained : ¬['e', 'l', 's', 'e', ' '] <+: s

namespace WrittenExpression

variable (e : WrittenExpression)

theorem exists_text_cons : ∃ c s, e.text = c :: s := by
  obtain ⟨⟨c, s, hs, -⟩, -⟩ := e.isTrimmed_text
  exact ⟨c, s, hs⟩

/-- A mustache ends at the first braces behind the expression. -/
theorem cutOutsideQuotes?_text (marks rest : List Char) :
    cutOutsideQuotes? ('}' :: marks) none (e.text ++ ('}' :: marks ++ rest)) =
      some (e.text, rest) := by
  have hmark : dropMark? ('}' :: marks) ('}' :: (marks ++ rest)) = some rest :=
    dropMark?_eq_some_iff.2 rfl
  rw [e.keepsOpen_text, List.cons_append, cutOutsideQuotes?, hmark]
  simp

theorem classify_text (h : IsPlainContent e.text) :
    Mustache.classify e.text = (.escaped, e.text) := by
  rw [Mustache.classify, e.isTrimmed_text.trim_eq]
  split
  · next heq => exact absurd (by simp) (h.first '#' (by simp [heq]))
  · next heq => exact absurd (by simp) (h.first '/' (by simp [heq]))
  · next heq => exact absurd heq h.ne_else
  · next chained heq => exact absurd ⟨chained, heq.symm⟩ h.not_chained
  · rfl

theorem readExpression_text : readExpression e.text = .ok e.expression := by
  have hdepth : e.call.text.length ≤ e.text.length + 1 := by
    rw [text, List.length_append]
    omega
  have hread := e.call.readCall_readParam hdepth (follows_blockParamsText e.blockParams)
    (endsCall_blockParamsText e.blockParams)
  rw [← text] at hread
  simp only [readExpression, hread, blockParams_blockParamsText]
  rfl

theorem ofContent_text (span : Span) :
    Expression.ofContent (String.ofList e.text) span = .ok e.expression := by
  obtain ⟨c, s, hs⟩ := e.exists_text_cons
  have hempty : e.text.isEmpty = false := by rw [hs]; rfl
  rw [Expression.ofContent, String.toList_ofList, e.isTrimmed_text.trim_eq]
  simp only [hempty, Bool.false_eq_true, if_false, readExpression_text]
  rfl

/-- What is read of a mustache between three braces. -/
theorem read?_unescaped (offset : Nat) (rest : List Char) :
    let braced := ['{', '{', '{'] ++ e.text ++ ['}', '}', '}']
    Mustache.read? ⟨offset, braced ++ rest⟩ =
      some (.ok (⟨.unescaped, String.ofList e.text, ⟨offset, offset + byteLength braced⟩⟩,
        ⟨offset + byteLength braced, rest⟩)) := by
  have hcut := e.cutOutsideQuotes?_text ['}', '}'] rest
  simp only [List.cons_append, List.nil_append] at hcut
  simp [Mustache.read?, Mustache.forms, Cursor.skip?, dropMark?, Mustache.Form.read,
    Mustache.Form.cut?, hcut, Cursor.past, Cursor.spanTo, byteLength, Nat.add_assoc]

/-- What is read of a mustache between two braces. -/
theorem read?_escaped (h : IsPlainContent e.text) (offset : Nat) (rest : List Char) :
    let braced := ['{', '{'] ++ e.text ++ ['}', '}']
    Mustache.read? ⟨offset, braced ++ rest⟩ =
      some (.ok (⟨.escaped, String.ofList e.text, ⟨offset, offset + byteLength braced⟩⟩,
        ⟨offset + byteLength braced, rest⟩)) := by
  have hcut := e.cutOutsideQuotes?_text ['}'] rest
  have hclassify := e.classify_text h
  obtain ⟨c, s, hs⟩ := e.exists_text_cons
  obtain ⟨hbrace, hbang⟩ : c ≠ '{' ∧ c ≠ '!' := by
    have hfirst := h.first c (by simp [hs])
    simp at hfirst
    exact ⟨hfirst.2.2.2, hfirst.2.2.1⟩
  rw [hs] at hcut hclassify ⊢
  simp only [List.cons_append, List.nil_append] at hcut
  simp [Mustache.read?, Mustache.forms, Cursor.skip?, dropMark?, Mustache.Form.read,
    Mustache.Form.cut?, hcut, hclassify, Ne.symm hbrace, Ne.symm hbang, Cursor.past,
    Cursor.spanTo, byteLength, Nat.add_assoc]

/-- Written expressions are read as what they are written for.  Between three braces an expression
is the whole content of the mustache, whatever follows it, and between two if it is not taken for
anything else there. -/
theorem round_trip :
    (∀ span, Expression.ofContent (String.ofList e.text) span = .ok e.expression) ∧
    (∀ offset rest, let braced := ['{', '{', '{'] ++ e.text ++ ['}', '}', '}']
      Mustache.read? ⟨offset, braced ++ rest⟩ =
        some (.ok (⟨.unescaped, String.ofList e.text, ⟨offset, offset + byteLength braced⟩⟩,
          ⟨offset + byteLength braced, rest⟩))) ∧
    (IsPlainContent e.text → ∀ offset rest, let braced := ['{', '{'] ++ e.text ++ ['}', '}']
      Mustache.read? ⟨offset, braced ++ rest⟩ =
        some (.ok (⟨.escaped, String.ofList e.text, ⟨offset, offset + byteLength braced⟩⟩,
          ⟨offset + byteLength braced, rest⟩))) :=
  ⟨e.ofContent_text, e.read?_unescaped, e.read?_escaped⟩

/-- A call with a call among its arguments, and with a string that holds braces and a quote. -/
def sample : WrittenExpression where
  call :=
    .mk (.path
        ⟨"link-to".toList, by decide, List.all_eq_true.1 (by decide),
          ne_numeral_of_numberLiteral? rfl, by decide⟩)
      [.call (.mk (.string ⟨'\'', "a \"b\" \x7d\x7d".toList, .inr rfl, by decide⟩)
          [.atom (.number ⟨true, ['1'], ['5', '0'], by decide, List.all_eq_true.1 (by decide),
            List.all_eq_true.1 (by decide)⟩)]
          [(⟨"as".toList, by decide, List.all_eq_true.1 (by decide)⟩, .atom (.boolean true))]),
        .atom (.path
          ⟨"as".toList, by decide, List.all_eq_true.1 (by decide),
            ne_numeral_of_numberLiteral? rfl, by decide⟩)]
      [(⟨"title".toList, by decide, List.all_eq_true.1 (by decide)⟩,
        .atom (.string ⟨'"', "it's".toList, .inl rfl, by decide⟩))]
  blockParams :=
    [⟨"item".toList, by decide, List.all_eq_true.1 (by decide)⟩,
      ⟨"as".toList, by decide, List.all_eq_true.1 (by decide)⟩]

/-- The sample is read as what it is written for, also between two braces. -/
theorem round_trip_sample :
    sample.text =
      "link-to ('a \"b\" \x7d\x7d' -1.50 as=true) as title=\"it's\" as |item as|".toList ∧
    IsPlainContent sample.text ∧
    (∀ span, Expression.ofContent (String.ofList sample.text) span = .ok sample.expression) ∧
    ∀ offset rest, let braced := ['{', '{'] ++ sample.text ++ ['}', '}']
      Mustache.read? ⟨offset, braced ++ rest⟩ =
        some (.ok (⟨.escaped, String.ofList sample.text, ⟨offset, offset + byteLength braced⟩⟩,
          ⟨offset + byteLength braced, rest⟩)) := by
  have hhead : sample.text.head? = some 'l' := by decide
  have hplain : IsPlainContent sample.text := ⟨by simp [hhead], by decide, by decide⟩
  exact ⟨by decide, hplain, (round_trip sample).1, (round_trip sample).2.2 hplain⟩

end WrittenExpression

end LiveTemplate
