import LiveTemplate.Proofs.Spacing.Sources

/-!
# LiveTemplate.Proofs.Spacing.Tags

Mustaches and tags in sources with even blanks.

Each reader, set in front of an even source, reads the same with the mustaches made even, and
stops at the same position in front of what it left before, made even.
-/

namespace LiveTemplate

/-! ## cursors -/

namespace Cursor

variable {spot : Spot} {c : Cursor}

/-- A cursor at the same position of the source made even. -/
def even (spot : Spot) (c : Cursor) : Cursor := ⟨c.offset, evenSource spot c.rest⟩

theorem spanToStop_even : (c.even spot).spanToStop = c.spanToStop := by
  rw [spanToStop, spanToStop, stop, stop, even, (alike_evenSource spot c.rest).byteLength_eq]

theorem skipWhile_even {p : Char → Bool} (h : spot.Keeps p) :
    (c.even spot).skipWhile p = (c.skipWhile p).even spot := by
  obtain ⟨htake, hdrop⟩ := h.split_evenSource c.rest
  rw [skipWhile, even, htake, hdrop]
  rfl

theorem takeWhile_even {p : Char → Bool} (h : spot.Keeps p) :
    (c.even spot).takeWhile p = ((c.takeWhile p).1, (c.takeWhile p).2.even spot) := by
  rw [takeWhile, skipWhile_even h, even, (h.split_evenSource c.rest).1]
  rfl

/-- A character is skipped where it was. -/
theorem skip?_even {m : Char} {next : Spot} (hbrace : m ≠ '{') (hangle : m ≠ '<')
    (hnext : ∀ s, spot.next m s = next) :
    (c.even spot).skip? [m] = (c.skip? [m]).map (even next) := by
  obtain ⟨offset, s⟩ := c
  cases s with
  | nil => simp [skip?, even, dropMark?]
  | cons d s =>
    by_cases hd : m = d
    · subst hd
      have heven : (even spot ⟨offset, m :: s⟩).rest = [m] ++ evenSource next s := by
        rw [even, evenSource_cons_of_ne hbrace hangle, hnext]
        rfl
      have hrest : (⟨offset, m :: s⟩ : Cursor).rest = [m] ++ s := rfl
      rw [skip?, skip?, dropMark?_eq_some_iff.2 heven, dropMark?_eq_some_iff.2 hrest]
      rfl
    · obtain ⟨t, ht⟩ := exists_evenSource_cons spot d s
      simp [skip?, even, ht, dropMark?, hd]

end Cursor

/-! ## mustaches -/

/-- A mustache is read with its content made even, or has the same fault. -/
theorem Mustache.read?_even (spot : Spot) (c : Cursor) :
    read? (c.even spot) =
      (read? c).map (Except.map (Prod.map even (Cursor.even spot.behindMustache))) := by
  have hform : form? (c.even spot).rest = form? c.rest :=
    form?_eq_of_alike (alike_evenSource spot c.rest)
  rw [read?_eq, read?_eq, hform]
  cases h : form? c.rest with
  | none => rfl
  | some form =>
    obtain ⟨offset, s⟩ := c
    obtain ⟨hmem, inside, rfl⟩ := exists_of_form? h
    cases hcut : form.cut? inside with
    | none =>
      have heven : Cursor.even spot ⟨offset, form.opening ++ inside⟩ =
          ⟨offset, form.opening ++ inside⟩ :=
        congrArg (Cursor.mk offset) (evenSource_unterminated h hcut)
      simp [heven, Form.read, Cursor.past, hcut, Except.map]
    | some read =>
      obtain ⟨before, after⟩ := read
      have heven : Cursor.even spot ⟨offset, form.opening ++ inside⟩ =
          ⟨offset, form.opening ++ (evenContent form.kind before ++ form.closing ++
            evenSource spot.behindMustache after)⟩ :=
        congrArg (Cursor.mk offset) (evenSource_mustache h hcut)
      have hlength := (alike_evenContent form.kind before).byteLength_eq
      simp only [Option.map_some, heven, List.drop_left, Form.read, Cursor.past, hcut,
        Form.cut?_even hmem hcut, Except.map, byteLength_append, hlength]
      cases form.kind with
      | escaped =>
        simp only [classify_evenContent, even, Cursor.even, Cursor.spanTo, Prod.map,
          String.toList_ofList]
      | _ => simp only [even, Cursor.even, Cursor.spanTo, Prod.map, String.toList_ofList]

theorem Mode.mustache?_even (spot : Spot) (c : Cursor) :
    Mode.template.mustache? (c.even spot) =
      (Mode.template.mustache? c).map
        (Except.map (Prod.map Mustache.even (Cursor.even spot.behindMustache))) :=
  Mustache.read?_even spot c

/-! ## values -/

/-- A piece of a value, with its mustache made even. -/
def Chunk.even : Chunk → Chunk
  | text s => text s
  | mustache m => mustache m.even

def RawValue.even : RawValue → RawValue
  | empty => empty
  | quoted chunks => quoted (chunks.map Chunk.even)
  | unquoted chunks => unquoted (chunks.map Chunk.even)

/-- A spot inside a value, which ends with the characters that satisfy `ends`. -/
structure Spot.Ends (spot : Spot) (ends : Char → Bool) : Prop where
  next_eq : ∀ c s, ends c = false → spot.next c s = spot
  behindMustache_eq : spot.behindMustache = spot
  comment?_eq : ∀ s, spot.comment? s = none

theorem Spot.ends_bare : Spot.bare.Ends fun x => isSpace x || x == '>' where
  next_eq c s h := by
    obtain ⟨hspace, hclose⟩ := Bool.or_eq_false_iff.1 h
    simp [Spot.next, hspace, hclose]
  behindMustache_eq := rfl
  comment?_eq _ := rfl

theorem Spot.ends_quoted (quote : Char) : (Spot.quoted quote).Ends (· == quote) where
  next_eq c s h := by simp [Spot.next, h]
  behindMustache_eq := rfl
  comment?_eq _ := rfl

section Values

variable {spot : Spot} {ends : Char → Bool}

theorem takeValueText_even (h : spot.Ends ends) (c : Cursor) :
    takeValueText .template ends (c.even spot) =
      ((takeValueText .template ends c).1, (takeValueText .template ends c).2.even spot) := by
  let boundary : List Char → Bool := fun s =>
    s.head?.any ends || Mode.template.mustacheStandsAt s
  have heven : ∀ s, boundary (evenSource spot s) = boundary s := by
    intro s
    show ((evenSource spot s).head?.any ends || Mustache.standsAt (evenSource spot s)) =
      (s.head?.any ends || Mustache.standsAt s)
    rw [head?_evenSource, (alike_evenSource spot s).standsAt_eq]
  have hstep : ∀ c s, boundary (c :: s) = false →
      evenSource spot (c :: s) = c :: evenSource spot s := by
    intro c s hplain
    obtain ⟨hends, hmustache⟩ := Bool.or_eq_false_iff.1 hplain
    rw [evenSource_cons hmustache (h.comment?_eq _), h.next_eq c s hends]
  have hbreak := breakAt_evenSource heven hstep c.rest
  rw [takeValueText, takeValueText, Cursor.takeUntil, Cursor.takeUntil, Cursor.even, hbreak]
  rfl

theorem even_textChunk (raw : List Char) : (textChunk raw).map Chunk.even = textChunk raw := by
  rw [textChunk]
  split <;> rfl

/-- The pieces of a value are read the same, by induction on what is left to read. -/
theorem readChunks_even (h : spot.Ends ends) (c : Cursor) :
    readChunks .template ends (c.even spot) =
      (readChunks .template ends c).map (Prod.map (List.map Chunk.even) (Cursor.even spot)) := by
  have heven (c : Cursor) :
      Mode.template.mustache? (takeValueText .template ends (c.even spot)).2 =
        (Mode.template.mustache? (takeValueText .template ends c).2).map
          (·.map (Prod.map Mustache.even (Cursor.even spot))) := by
    rw [takeValueText_even h, Mode.mustache?_even, h.behindMustache_eq]
  fun_induction readChunks .template ends c with
  | case1 c text hread =>
    have hread' := (heven c).trans (congrArg _ hread)
    rw [readChunks_eq ends hread', takeValueText_even h]
    simp only [Except.map, Prod.map, even_textChunk]
    rfl
  | case2 c text e hread =>
    have hread' := (heven c).trans (congrArg _ hread)
    rw [readChunks_eq_of_some hread']
    rfl
  | case3 c text m d hread ih =>
    have hread' := (heven c).trans (congrArg _ hread)
    rw [readChunks_eq_of_some hread', takeValueText_even h]
    show (readChunks .template ends (d.even spot) >>= _) = _
    rw [ih]
    cases readChunks .template ends d with
    | error e => rfl
    | ok more =>
      show Except.ok _ = Except.ok _
      simp [even_textChunk, Chunk.even, text]

/-- A value ends at the end of the source, or where a character ends it. -/
theorem rest_readChunks {mode : Mode} {c d : Cursor} {chunks : List Chunk}
    (h : readChunks mode ends c = .ok (chunks, d)) :
    d.rest = [] ∨ ∃ x s, d.rest = x :: s ∧ ends x = true := by
  fun_induction readChunks mode ends c generalizing chunks d with
  | case1 c text =>
    rename_i hnone
    cases h
    refine (breakAt_snd _ c.rest).imp_right fun hends => ?_
    rcases Bool.or_eq_true_iff.1 hends with hends | hmustache
    · obtain ⟨x, hx, hends⟩ := (Option.any_eq_true ..).1 hends
      obtain ⟨s, hs⟩ := List.head?_eq_some_iff.1 hx
      exact ⟨x, s, hs, hends⟩
    · exact absurd hnone (Mode.mustache?_ne_none hmustache)
  | case2 => cases h
  | case3 c text m e hm =>
    rename_i ih
    obtain ⟨⟨more, f⟩, hmore, h⟩ := exists_of_bind_eq_ok h
    cases h
    exact ih hmore

theorem quotedValue_even {quote : Char} (hquote : quote = '"' ∨ quote = '\'') (start c : Cursor) :
    readValue.quotedValue .template (start.even .outside) quote (c.even (.quoted quote)) =
      (readValue.quotedValue .template start quote c).map
        (Prod.map RawValue.even (Cursor.even .tag)) := by
  rw [readValue.quotedValue, readValue.quotedValue, readChunks_even (Spot.ends_quoted quote),
    Cursor.spanToStop_even]
  cases readChunks .template (· == quote) c with
  | error e => rfl
  | ok read =>
    obtain ⟨chunks, d⟩ := read
    have hskip : (d.even (.quoted quote)).skip? [quote] = (d.skip? [quote]).map (.even .tag) := by
      refine Cursor.skip?_even ?_ ?_ fun s => by simp [Spot.next]
      all_goals rcases hquote with rfl | rfl <;> decide
    simp only [Except.map, bind, Except.bind, Prod.map, hskip]
    cases d.skip? [quote] <;> rfl

theorem readValue_of_ne {mode : Mode} {start c : Cursor}
    (h : ∀ x ∈ c.rest.head?, x ≠ '"' ∧ x ≠ '\'') :
    readValue mode start c =
      readChunks mode (fun x => isSpace x || x == '>') c >>= fun (chunks, d) =>
        .ok (.unquoted chunks, d) := by
  rw [readValue.eq_def]
  split
  · next rest hrest => exact absurd rfl (h '"' (by rw [hrest]; rfl)).1
  · next rest hrest => exact absurd rfl (h '\'' (by rw [hrest]; rfl)).2
  · rfl

/-- A value is read the same from behind the blanks that follow the equals sign. -/
theorem readValue_even (start : Cursor) {c : Cursor}
    (hspace : ∀ x ∈ c.rest.head?, isSpace x = false) :
    readValue .template (start.even .outside) (c.even .beforeValue) =
      (readValue .template start c).map (Prod.map RawValue.even (Cursor.even .tag)) := by
  by_cases hquote : ∃ quote rest, (quote = '"' ∨ quote = '\'') ∧ c.rest = quote :: rest
  · obtain ⟨quote, rest, hquote, hrest⟩ := hquote
    obtain ⟨offset, s⟩ := c
    obtain rfl : s = quote :: rest := hrest
    have heven : Cursor.even .beforeValue ⟨offset, quote :: rest⟩ =
        ⟨offset, quote :: evenSource (.quoted quote) rest⟩ := by
      rcases hquote with rfl | rfl <;>
        exact congrArg (Cursor.mk offset) (evenSource_cons_of_ne (by decide) (by decide))
    rw [heven]
    rcases hquote with rfl | rfl
    · exact quotedValue_even (.inl rfl) start ((⟨offset, '"' :: rest⟩ : Cursor).past ['"'] rest)
    · exact quotedValue_even (.inr rfl) start ((⟨offset, '\'' :: rest⟩ : Cursor).past ['\''] rest)
  · have hnone : ∀ x ∈ c.rest.head?, x ≠ '"' ∧ x ≠ '\'' := by
      intro x hx
      obtain ⟨rest, hrest⟩ := List.head?_eq_some_iff.1 hx
      exact ⟨fun h => hquote ⟨x, rest, .inl h, hrest⟩, fun h => hquote ⟨x, rest, .inr h, hrest⟩⟩
    have heven : c.even .beforeValue = c.even .bare :=
      congrArg (Cursor.mk c.offset)
        (evenSource_beforeValue fun x hx => ⟨hspace x hx, hnone x hx⟩)
    have hnone' : ∀ x ∈ (c.even .bare).rest.head?, x ≠ '"' ∧ x ≠ '\'' := by
      intro x hx
      exact hnone x ((head?_evenSource .bare c.rest) ▸ hx)
    rw [heven, readValue_of_ne hnone, readValue_of_ne hnone', readChunks_even Spot.ends_bare]
    cases hread : readChunks .template (fun x => isSpace x || x == '>') c with
    | error e => rfl
    | ok read =>
      obtain ⟨chunks, d⟩ := read
      have hd : d.even .bare = d.even .tag :=
        congrArg (Cursor.mk d.offset) (evenSource_bare (rest_readChunks hread))
      simp only [Except.map, bind, Except.bind, Prod.map, hd, RawValue.even]

end Values

/-! ## tags -/

def RawAttribute.even (a : RawAttribute) : RawAttribute := { a with value := a.value.even }

def TagPart.even : TagPart → TagPart
  | attr a => attr a.even
  | modifier m => modifier m.even
  | slash => slash

/-- A start tag with its mustaches made even. -/
def StartTag.even (tag : StartTag) : StartTag :=
  { tag with
    attributes := tag.attributes.map RawAttribute.even
    modifiers := tag.modifiers.map Mustache.even }

section Tags

variable (start c : Cursor)

theorem readAttribute_even :
    readAttribute .template (start.even .outside) (c.even .tag) =
      (readAttribute .template start c).map (Prod.map RawAttribute.even (Cursor.even .tag)) := by
  have htake := Cursor.takeWhile_even (c := c) Spot.keeps_isAttributeCharacter
  rw [readAttribute.eq_def, readAttribute.eq_def, htake]
  obtain ⟨name, d⟩ := c.takeWhile isAttributeCharacter
  cases name with
  | nil =>
    have hfirst : (c.even .tag).rest.take 1 = c.rest.take 1 := by
      rw [List.take_one, List.take_one, Cursor.even, head?_evenSource]
    simp only [hfirst]
    rfl
  | cons x name =>
    have hskip : ((d.even .tag).skipWhile isSpace).skip? ['='] =
        ((d.skipWhile isSpace).skip? ['=']).map (Cursor.even .beforeValue) := by
      rw [Cursor.skipWhile_even Spot.keeps_isSpace]
      exact Cursor.skip?_even (by decide) (by decide) fun s => rfl
    simp only [hskip]
    cases (d.skipWhile isSpace).skip? ['='] with
    | none => rfl
    | some e =>
      have hspace : ∀ x ∈ (e.skipWhile isSpace).rest.head?, isSpace x = false := by
        intro x hx
        have hhead : (e.rest.dropWhile isSpace).head? = some x := hx
        have hstop := List.head?_dropWhile_not isSpace e.rest
        rw [hhead] at hstop
        exact hstop
      simp only [Option.map_some, Cursor.skipWhile_even Spot.keeps_isSpace_beforeValue,
        readValue_even start hspace]
      cases readValue .template start (e.skipWhile isSpace) <;> rfl

theorem readTagPart_of_ne {mode : Mode} {start c : Cursor} (h : c.rest.head? ≠ some '/') :
    readTagPart mode start c =
      ((mode.mustache? c).map (Except.map (Prod.map TagPart.modifier id))).getD
        ((readAttribute mode start c).map (Prod.map TagPart.attr id)) := by
  rw [readTagPart.eq_def]
  split
  · next hrest => exact absurd (by rw [hrest]; rfl) h
  · cases mode.mustache? c <;> rfl

theorem readTagPart_even :
    readTagPart .template (start.even .outside) (c.even .tag) =
      (readTagPart .template start c).map (Prod.map TagPart.even (Cursor.even .tag)) := by
  by_cases hslash : c.rest.head? = some '/'
  · obtain ⟨offset, s⟩ := c
    obtain ⟨rest, hrest⟩ := List.head?_eq_some_iff.1 hslash
    obtain rfl : s = '/' :: rest := hrest
    have heven : Cursor.even .tag ⟨offset, '/' :: rest⟩ = ⟨offset, '/' :: evenSource .tag rest⟩ :=
      congrArg (Cursor.mk offset) (evenSource_cons_of_ne (by decide) (by decide))
    rw [heven]
    rfl
  · have hslash' : (c.even .tag).rest.head? ≠ some '/' := by
      rwa [Cursor.even, head?_evenSource]
    rw [readTagPart_of_ne hslash, readTagPart_of_ne hslash', Mode.mustache?_even,
      readAttribute_even]
    cases Mode.template.mustache? c with
    | some read => cases read <;> rfl
    | none => cases readAttribute .template start c <;> rfl

theorem tagEnd?_even :
    tagEnd? (c.even .tag) = (tagEnd? c).map (Prod.map id (Cursor.even .outside)) := by
  obtain ⟨offset, s⟩ := c
  have halike := alike_evenSource .tag s
  rw [tagEnd?.eq_def ⟨offset, s⟩]
  split
  · next rest hrest =>
    obtain rfl : s = '/' :: '>' :: rest := hrest
    have heven : Cursor.even .tag ⟨offset, '/' :: '>' :: rest⟩ =
        ⟨offset, '/' :: '>' :: evenSource .outside rest⟩ := by
      rw [Cursor.even, evenSource_cons_of_ne (by decide) (by decide),
        evenSource_cons_of_ne (by decide) (by decide)]
      rfl
    rw [heven]
    rfl
  · next rest hrest =>
    obtain rfl : s = '>' :: rest := hrest
    have heven : Cursor.even .tag ⟨offset, '>' :: rest⟩ =
        ⟨offset, '>' :: evenSource .outside rest⟩ :=
      congrArg (Cursor.mk offset) (evenSource_cons_of_ne (by decide) (by decide))
    rw [heven]
    rfl
  · next hself hclose =>
    rw [tagEnd?.eq_def]
    split
    · next rest hrest =>
      have hprefix : ['/', '>'] <+: s := halike.isPrefix rfl ⟨rest, hrest.symm⟩
      obtain ⟨t, rfl⟩ := hprefix
      exact absurd rfl (hself t)
    · next rest hrest =>
      have hprefix : ['>'] <+: s := halike.isPrefix rfl ⟨rest, hrest.symm⟩
      obtain ⟨t, rfl⟩ := hprefix
      exact absurd rfl (hclose t)
    · rfl

/-- The parts of a tag are read the same, by induction on what is left to read. -/
theorem readTagParts_even :
    readTagParts .template (start.even .outside) (c.even .tag) =
      (readTagParts .template start c).map
        (Prod.map (List.map TagPart.even) (Prod.map id (Cursor.even .outside))) := by
  have hempty (d : Cursor) : (d.even .tag).rest.isEmpty = d.rest.isEmpty := isEmpty_evenSource ..
  fun_induction readTagParts .template start c with
  | case1 c d hstop =>
    rw [readTagParts_eq, Cursor.skipWhile_even Spot.keeps_isSpace, hempty, if_pos hstop,
      Cursor.spanToStop_even]
    rfl
  | case2 c d hstop selfClosing e hend =>
    rw [readTagParts_eq, Cursor.skipWhile_even Spot.keeps_isSpace, hempty, if_neg hstop,
      tagEnd?_even, hend]
    rfl
  | case3 c d hstop hend e hpart =>
    rw [readTagParts_eq, Cursor.skipWhile_even Spot.keeps_isSpace, hempty, if_neg hstop,
      tagEnd?_even, hend, readTagPart_even, hpart]
    rfl
  | case4 c d hstop hend part e hpart ih =>
    rw [readTagParts_eq, Cursor.skipWhile_even Spot.keeps_isSpace, hempty, if_neg hstop,
      tagEnd?_even, hend, readTagPart_even, hpart]
    show (readTagParts .template (start.even .outside) (e.even .tag) >>= _) = _
    rw [ih]
    cases readTagParts .template start e <;> rfl

end Tags

end LiveTemplate
