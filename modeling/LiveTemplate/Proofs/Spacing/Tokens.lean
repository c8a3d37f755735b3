import LiveTemplate.Proofs.Spacing.Tags

/-!
# LiveTemplate.Proofs.Spacing.Tokens

The tokens of sources with even blanks.

They are the tokens of the source with their mustaches made even: of the same kinds, at the same
positions and in the same order, up to the same fault (`Reading.ofSource_evenSource`).
-/

namespace LiveTemplate

section Tokens

variable {c : Cursor}

theorem readTagName?_even {spot : Spot} (h : spot.Keeps isTagCharacter) (c : Cursor) :
    readTagName? (c.even spot) = (readTagName? c).map (Prod.map id (Cursor.even spot)) := by
  rw [readTagName?, readTagName?, Cursor.takeWhile_even h, Cursor.even,
    (alike_evenSource spot c.rest).tagStandsAt_eq]
  split <;> rfl

/-- A start tag is read with its mustaches made even, or has the same fault. -/
theorem readStartTag_even (h : startTagStandsAt c.rest = true) :
    readStartTag .template (c.even .outside) =
      (readStartTag .template c).map (Prod.map StartTag.even (Cursor.even .outside)) := by
  have hskip : (c.even .outside).skip? ['<'] = (c.skip? ['<']).map (Cursor.even .tag) := by
    obtain ⟨offset, s⟩ := c
    rw [startTagStandsAt.eq_def] at h
    split at h
    · next name heq =>
      obtain rfl : s = '<' :: name := heq
      have hrest : (⟨offset, '<' :: name⟩ : Cursor).rest = ['<'] ++ name := rfl
      rw [Cursor.skip?_eq (evenSource_startTag h), Cursor.skip?_eq hrest]
      rfl
    · cases h
  rw [readStartTag, readStartTag, hskip]
  cases c.skip? ['<'] with
  | none => simp [Except.map, Cursor.spanToStop_even]
  | some opened =>
    rw [Option.map_some, Option.bind_some, Option.bind_some,
      readTagName?_even Spot.keeps_isTagCharacter]
    cases readTagName? opened with
    | none => simp [Except.map, Cursor.spanToStop_even]
    | some read =>
      obtain ⟨name, d⟩ := read
      simp only [Option.map_some, Prod.map, readTagParts_even]
      cases readTagParts .template c d with
      | error e => rfl
      | ok read =>
        obtain ⟨parts, selfClosing, e⟩ := read
        simp only [Except.map, Prod.map, bind, Except.bind, StartTag.even, List.filterMap_map,
          List.map_filterMap, Cursor.even, Cursor.spanTo]
        congr 4 <;> (funext part; cases part <;> rfl)

theorem readEndTag?_even (h : endTagStandsAt c.rest = true) :
    readEndTag? (c.even .outside) =
      (readEndTag? c).map (Prod.map id (Cursor.even .outside)) := by
  have hskip : (c.even .outside).skip? ['<', '/'] =
      (c.skip? ['<', '/']).map (Cursor.even .outside) := by
    obtain ⟨offset, s⟩ := c
    rw [endTagStandsAt.eq_def] at h
    split at h
    · next name heq =>
      obtain rfl : s = '<' :: '/' :: name := heq
      have hrest : (⟨offset, '<' :: '/' :: name⟩ : Cursor).rest = ['<', '/'] ++ name := rfl
      rw [Cursor.skip?_eq (evenSource_endTag name), Cursor.skip?_eq hrest]
      rfl
    · cases h
  rw [readEndTag?, readEndTag?, hskip]
  cases c.skip? ['<', '/'] with
  | none => rfl
  | some opened =>
    have hname := readTagName?_even (Spot.keeps_outside (p := isTagCharacter) (by decide)
      (by decide)) opened
    simp only [Option.map_some, Option.bind_eq_bind, Option.bind_some, hname]
    cases readTagName? opened with
    | none => rfl
    | some read =>
      obtain ⟨name, d⟩ := read
      have hclose : ((d.even .outside).skipWhile isBlank).skip? ['>'] =
          ((d.skipWhile isBlank).skip? ['>']).map (Cursor.even .outside) := by
        rw [Cursor.skipWhile_even (Spot.keeps_outside rfl rfl)]
        exact Cursor.skip?_even (by decide) (by decide) fun s => rfl
      simp only [Option.map_some, Option.bind_some, Prod.map, hclose, id]
      cases (d.skipWhile isBlank).skip? ['>'] <;> rfl

/-- A text is read up to where it ended. -/
theorem readText_even (h : Mode.template.textEndsAt c.rest = false) :
    readText .template (c.even .outside) =
      ((readText .template c).1, (readText .template c).2.even .outside) := by
  obtain ⟨offset, s⟩ := c
  cases s with
  | nil => simp [readText, Cursor.even]
  | cons first rest =>
    have hrest := breakAt_evenSource
      (fun s => (alike_evenSource .outside s).textEndsAt_eq) (fun _ _ => evenSource_text) rest
    have heven : Cursor.even .outside ⟨offset, first :: rest⟩ =
        ⟨offset, first :: evenSource .outside rest⟩ :=
      congrArg (Cursor.mk offset) (evenSource_text h)
    rw [heven, readText, readText]
    simp only [hrest]
    rfl

/-- A token with its mustaches made even. -/
def Token.even : Token → Token
  | startTag tag => startTag tag.even
  | endTag name span => endTag name span
  | text s span => text s span
  | comment s span => comment s span
  | mustache m => mustache m.even

theorem readComment_even {inside : Cursor} (h : c.skip? ['<', '!', '-', '-'] = some inside) :
    ∃ inside', (c.even .outside).skip? ['<', '!', '-', '-'] = some inside' ∧
      readComment (c.even .outside) inside' =
        (readComment c inside).map (Prod.map Token.even (Cursor.even .outside)) := by
  obtain ⟨offset, s⟩ := c
  obtain ⟨rest, hrest, rfl⟩ := Option.map_eq_some_iff.1 h
  obtain rfl : s = ['<', '!', '-', '-'] ++ rest := dropMark?_eq_some_iff.1 hrest
  cases hcut : cut? ['-', '-', '>'] rest with
  | none =>
    have heven : Cursor.even .outside ⟨offset, ['<', '!', '-', '-'] ++ rest⟩ =
        ⟨offset, ['<', '!', '-', '-'] ++ rest⟩ :=
      congrArg (Cursor.mk offset) (evenSource_openComment hcut)
    refine ⟨_, by rw [heven]; exact h, ?_⟩
    simp only [readComment, Cursor.readTo?, Cursor.rest_past, hcut, Option.map_none,
      Cursor.spanToStop_even, Except.map]
  | some read =>
    obtain ⟨text, after⟩ := read
    have heven := evenSource_comment hcut
    have hcut' := cut?_replace rfl (by decide) hcut (evenSource .outside after)
    refine ⟨_, Cursor.skip?_eq heven, ?_⟩
    simp only [readComment, Cursor.readTo?, Cursor.rest_past, hcut, hcut', Option.map_some,
      Except.map, Prod.map, Token.even]
    rfl

/-- A token is read with its mustaches made even, or has the same fault. -/
theorem readToken_even (c : Cursor) :
    readToken .template (c.even .outside) =
      (readToken .template c).map (Prod.map Token.even (Cursor.even .outside)) := by
  have halike := alike_evenSource .outside c.rest
  rw [readToken.eq_def _ c]
  cases hcomment : c.skip? ['<', '!', '-', '-'] with
  | some inside =>
    obtain ⟨inside', hskip, hread⟩ := readComment_even hcomment
    rw [readToken, hskip]
    exact hread
  | none =>
    have hdrop := Option.map_eq_none_iff.1 hcomment
    have hcomment' : (c.even .outside).skip? ['<', '!', '-', '-'] = none :=
      Option.map_eq_none_iff.2 (halike.symm.dropMark?_eq_none rfl hdrop)
    have hend' : endTagStandsAt (c.even .outside).rest = endTagStandsAt c.rest :=
      halike.endTagStandsAt_eq
    have hstart' : startTagStandsAt (c.even .outside).rest = startTagStandsAt c.rest :=
      halike.startTagStandsAt_eq
    rw [readToken, hcomment', hend', hstart', Mode.mustache?_even]
    simp only
    split
    · next hend =>
      rw [readEndTag?_even hend, Cursor.spanToStop_even]
      cases readEndTag? c <;> rfl
    · next hend =>
      split
      · next hstart =>
        rw [readStartTag_even hstart]
        cases readStartTag .template c <;> rfl
      · next hstart =>
        cases hmustache : Mode.template.mustache? c with
        | some read => cases read <;> rfl
        | none =>
          have htext := textEndsAt_eq_false hcomment (Bool.eq_false_iff.2 hend)
            (Bool.eq_false_iff.2 hstart) hmustache
          simp only [Option.map_none, readText_even htext]
          rfl

end Tokens

/-- A reading with all mustaches made even. -/
def Reading.even (r : Reading) : Reading := { r with tokens := r.tokens.map Token.even }

/-- Nothing is left of an even source exactly where nothing is left of the source. -/
theorem rest_even_eq_nil_iff {spot : Spot} {c : Cursor} : (c.even spot).rest = [] ↔ c.rest = [] := by
  rw [Cursor.even, ← List.isEmpty_iff, isEmpty_evenSource, List.isEmpty_iff]

/-- The tokens of a source are read with their mustaches made even, up to the same fault. -/
theorem readTokens_even (c : Cursor) :
    readTokens .template (c.even .outside) = (readTokens .template c).even := by
  fun_induction readTokens .template c with
  | case1 c hnil =>
    have hnil' : (c.even .outside).rest = [] := rest_even_eq_nil_iff.2 hnil
    rw [readTokens_of_nil hnil']
    rfl
  | case2 c hne e hread =>
    have hread' : readToken .template (c.even .outside) = .error e := by
      rw [readToken_even, hread]
      rfl
    rw [readTokens_of_error (mt rest_even_eq_nil_iff.1 hne) hread']
    rfl
  | case3 c hne token d hread ih =>
    have hread' : readToken .template (c.even .outside) = .ok (token.even, d.even .outside) := by
      rw [readToken_even, hread]
      rfl
    rw [readTokens_of_readToken (mt rest_even_eq_nil_iff.1 hne) hread', ih]
    rfl

/-- A source with even mustaches reads as the same tokens, with their mustaches made even. -/
theorem Reading.ofSource_evenSource (source : String) :
    Reading.ofSource .template (String.ofList (evenSource .outside source.toList)) =
      (Reading.ofSource .template source).even := by
  rw [Reading.ofSource, String.toList_ofList]
  exact readTokens_even (.ofSource source.toList)

end LiveTemplate

