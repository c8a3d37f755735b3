import LiveTemplate.Proofs.Markup.Plain
import LiveTemplate.Proofs.Spacing.Mustaches
import Mathlib.Data.List.Find

/-!
# LiveTemplate.Proofs.Spacing.Sources

Sources with even blanks.

`evenSource` makes the contents of all mustaches of a source even and leaves all else as it is.
What is a mustache depends on where it stands: there are none in comments, and `<!--` begins a
comment only outside of tags (`Spot`).  What begins at a position of an even source is what began
there before.
-/

namespace LiveTemplate

/-! ## forms of mustaches -/

namespace Mustache

/-- The form of the mustache at the start of a text. -/
def form? (s : List Char) : Option Form := forms.find? fun form => form.opening.isPrefixOf s

theorem exists_of_form? {s : List Char} {form : Form} (h : form? s = some form) :
    form ∈ forms ∧ ∃ inside, s = form.opening ++ inside := by
  obtain ⟨inside, hinside⟩ := List.isPrefixOf_iff_prefix.1 
    (List.find?_some (p := fun form : Form => form.opening.isPrefixOf s) h)
  exact ⟨List.mem_of_find?_eq_some h, inside, hinside.symm⟩

theorem form?_eq_none_iff {s : List Char} : form? s = none ↔ standsAt s = false := by
  rw [form?, List.find?_eq_none, standsAt.eq_def]
  split
  · next rest =>
    have hlast : (⟨['{', '{'], ['}', '}'], .escaped⟩ : Form) ∈ forms := by simp [forms]
    simp only [Bool.true_eq_false, iff_false]
    exact fun h => h _ hlast (by simp [List.isPrefixOf])
  · next hbraces =>
    simp only [iff_true]
    intro form hform hprefix
    obtain ⟨inside, hinside⟩ := List.isPrefixOf_iff_prefix.1 hprefix
    simp only [forms, List.mem_cons, List.not_mem_nil, or_false] at hform
    rcases hform with rfl | rfl | rfl | rfl <;> exact hbraces _ hinside.symm

/-- What is alike begins with a mustache of the same form. -/
theorem form?_eq_of_alike {s t : List Char} (h : Alike s t) : form? s = form? t := by
  exact List.find?_congr fun form hform => h.isPrefixOf_eq (isBlank_of_mem_forms hform).1

/-- A mustache is read according to its form. -/
theorem read?_eq (c : Cursor) :
    read? c = (form? c.rest).map fun form =>
      form.read c (c.past form.opening (c.rest.drop form.opening.length)) := by
  have hform : ∀ forms : List Form,
      (forms.findSome? fun form => (c.skip? form.opening).map (form.read c)) =
        (forms.find? fun form => form.opening.isPrefixOf c.rest).map fun form =>
          form.read c (c.past form.opening (c.rest.drop form.opening.length)) := by
    intro forms
    induction forms with
    | nil => rfl
    | cons form forms ih =>
      rw [List.findSome?_cons, List.find?_cons, ih, Cursor.skip?, dropMark?_eq_ite]
      cases form.opening.isPrefixOf c.rest <;> rfl
  exact hform forms

end Mustache

/-! ## spots -/

/-- Where in a source something stands. -/
inductive Spot where
  /-- Outside of tags. -/
  | outside
  /-- In a tag, outside of values. -/
  | tag
  /-- Behind an equals sign. -/
  | beforeValue
  /-- In a value without quotes. -/
  | bare
  /-- In a value between quotes. -/
  | quoted (quote : Char)

namespace Spot

/-- Where that stands which follows a character; `rest` is what follows. -/
def next (spot : Spot) (c : Char) (rest : List Char) : Spot :=
  match spot with
  | outside => if startTagStandsAt (c :: rest) then tag else outside
  | tag => if c == '>' then outside else if c == '=' then beforeValue else tag
  | beforeValue =>
    if isSpace c then beforeValue
    else if c == '"' || c == '\'' then quoted c
    else if c == '>' then outside
    else bare
  | bare => if isSpace c then tag else if c == '>' then outside else bare
  | quoted quote => if c == quote then tag else quoted quote

/-- Where that stands which follows a mustache. -/
def behindMustache : Spot → Spot
  | beforeValue => bare
  | spot => spot

/-- What follows the mark of a comment, where there are comments. -/
def comment? (spot : Spot) (s : List Char) : Option (List Char) :=
  match spot with
  | outside => dropMark? ['<', '!', '-', '-'] s
  | tag | beforeValue | bare | quoted _ => none

end Spot

/-- The start of a source, made even, and what follows it. -/
structure Piece where
  text : List Char
  spot : Spot
  rest : List Char

/-- A source begins with a mustache, a comment, or a character of anything else.  What does not
end stays as it is. -/
def Spot.piece (spot : Spot) (s : List Char) : Piece :=
  match Mustache.form? s with
  | some form =>
    match form.cut? (s.drop form.opening.length) with
    | some (content, rest) =>
      ⟨form.opening ++ (Mustache.evenContent form.kind content ++ form.closing),
        spot.behindMustache, rest⟩
    | none => ⟨s, spot.behindMustache, []⟩
  | none =>
    match spot.comment? s with
    | some inside =>
      match cut? ['-', '-', '>'] inside with
      | some (text, rest) => ⟨['<', '!', '-', '-'] ++ (text ++ ['-', '-', '>']), spot, rest⟩
      | none => ⟨s, spot, []⟩
    | none =>
      match s with
      | [] => ⟨[], spot, []⟩
      | c :: rest => ⟨[c], spot.next c rest, rest⟩

theorem Spot.comment?_eq_some {spot : Spot} {s inside : List Char}
    (h : spot.comment? s = some inside) :
    spot = .outside ∧ s = ['<', '!', '-', '-'] ++ inside := by
  cases spot with
  | outside => exact ⟨rfl, dropMark?_eq_some_iff.1 h⟩
  | tag | beforeValue | bare | quoted => cases h

/-- A piece was made of `taken`, which a source begins with. -/
structure Piece.IsMadeOf (piece : Piece) (taken s : List Char) : Prop where
  source : s = taken ++ piece.rest
  alike : Alike piece.text taken
  head?_eq : piece.text.head? = taken.head?
  ne_nil : s ≠ [] → taken ≠ []

/-- What stays as it is. -/
theorem Piece.isMadeOf_self {spot : Spot} {text rest s : List Char} (h : s = text ++ rest)
    (hne : s ≠ [] → text ≠ []) : (⟨text, spot, rest⟩ : Piece).IsMadeOf text s :=
  ⟨h, alike_refl text, rfl, hne⟩

theorem Spot.isMadeOf_piece (spot : Spot) (s : List Char) :
    ∃ taken, (spot.piece s).IsMadeOf taken s := by
  rw [piece.eq_def]
  split
  · next form hform =>
    obtain ⟨hmem, inside, rfl⟩ := Mustache.exists_of_form? hform
    obtain ⟨-, -, hne, -⟩ := Mustache.isBlank_of_mem_forms hmem
    rw [List.drop_left]
    split
    · next content rest hcut =>
      refine ⟨form.opening ++ (content ++ form.closing), ?_, ?_, ?_, fun _ => by simp [hne]⟩
      · simp [Mustache.Form.eq_append_of_cut? hcut]
      · exact List.rel_append (alike_refl _)
          (List.rel_append (Mustache.alike_evenContent form.kind content) (alike_refl _))
      · simp [List.head?_append_of_ne_nil _ hne]
    · exact ⟨_, Piece.isMadeOf_self (List.append_nil _).symm id⟩
  · split
    · next inside hcomment =>
      obtain ⟨-, rfl⟩ := Spot.comment?_eq_some hcomment
      split
      · next text rest hcut =>
        refine ⟨_, Piece.isMadeOf_self ?_ fun _ => by simp⟩
        simp [eq_append_of_cut? hcut]
      · exact ⟨_, Piece.isMadeOf_self (List.append_nil _).symm id⟩
    · split
      · exact ⟨[], Piece.isMadeOf_self rfl id⟩
      · next c rest _ _ => exact ⟨[c], Piece.isMadeOf_self rfl fun _ => by simp⟩

theorem Spot.length_rest_piece (spot : Spot) {s : List Char} (h : s ≠ []) :
    (spot.piece s).rest.length < s.length := by
  obtain ⟨taken, hmade⟩ := spot.isMadeOf_piece s
  have hpos := List.length_pos_iff.2 (hmade.ne_nil h)
  have hlength := congrArg List.length hmade.source
  rw [List.length_append] at hlength
  omega

/-! ## evening -/

/-- Makes the contents of all mustaches of a source even; `spot` is where it stands. -/
def evenSource (spot : Spot) (s : List Char) : List Char :=
  if _h : s = [] then []
  else (spot.piece s).text ++ evenSource (spot.piece s).spot (spot.piece s).rest
termination_by s.length
decreasing_by exact spot.length_rest_piece _h

@[simp] theorem evenSource_nil (spot : Spot) : evenSource spot [] = [] := by
  rw [evenSource, dif_pos rfl]

theorem evenSource_eq (spot : Spot) {s : List Char} (h : s ≠ []) :
    evenSource spot s =
      (spot.piece s).text ++ evenSource (spot.piece s).spot (spot.piece s).rest := by
  rw [evenSource, dif_neg h]

/-- An even source is alike to the source. -/
theorem alike_evenSource (spot : Spot) (s : List Char) : Alike (evenSource spot s) s := by
  fun_induction evenSource spot s with
  | case1 => exact alike_refl []
  | case2 spot s hne ih =>
    obtain ⟨taken, hmade⟩ := spot.isMadeOf_piece s
    have hboth : Alike _ (taken ++ (spot.piece s).rest) := List.rel_append hmade.alike ih
    rwa [← hmade.source] at hboth

section Equations

variable {spot : Spot} {c : Char} {s inside before after : List Char} {form : Mustache.Form}

theorem piece_mustache (hform : Mustache.form? (form.opening ++ inside) = some form)
    (hcut : form.cut? inside = some (before, after)) :
    spot.piece (form.opening ++ inside) =
      ⟨form.opening ++ (Mustache.evenContent form.kind before ++ form.closing),
        spot.behindMustache, after⟩ := by
  rw [Spot.piece.eq_def, hform]
  simp only [List.drop_left, hcut]

theorem evenSource_mustache (hform : Mustache.form? (form.opening ++ inside) = some form)
    (hcut : form.cut? inside = some (before, after)) :
    evenSource spot (form.opening ++ inside) =
      form.opening ++ (Mustache.evenContent form.kind before ++ form.closing ++
        evenSource spot.behindMustache after) := by
  obtain ⟨-, -, hne, -⟩ := Mustache.isBlank_of_mem_forms (Mustache.exists_of_form? hform).1
  rw [evenSource_eq spot (by simp [hne]), piece_mustache hform hcut]
  simp only [List.append_assoc]

/-- A mustache without an end stays as it is. -/
theorem evenSource_unterminated (hform : Mustache.form? (form.opening ++ inside) = some form)
    (hcut : form.cut? inside = none) :
    evenSource spot (form.opening ++ inside) = form.opening ++ inside := by
  obtain ⟨-, -, hne, -⟩ := Mustache.isBlank_of_mem_forms (Mustache.exists_of_form? hform).1
  rw [evenSource_eq spot (by simp [hne]), Spot.piece.eq_def, hform]
  simp only [List.drop_left, hcut, evenSource_nil, List.append_nil]

theorem form?_comment (inside : List Char) :
    Mustache.form? (['<', '!', '-', '-'] ++ inside) = none := Mustache.form?_eq_none_iff.2 rfl

theorem comment?_outside (inside : List Char) :
    Spot.outside.comment? (['<', '!', '-', '-'] ++ inside) = some inside :=
  dropMark?_eq_some_iff.2 rfl

theorem piece_comment (hcut : cut? ['-', '-', '>'] inside = some (before, after)) :
    Spot.outside.piece (['<', '!', '-', '-'] ++ inside) =
      ⟨['<', '!', '-', '-'] ++ (before ++ ['-', '-', '>']), .outside, after⟩ := by
  rw [Spot.piece.eq_def, form?_comment, comment?_outside]
  simp only [hcut]

theorem evenSource_comment (hcut : cut? ['-', '-', '>'] inside = some (before, after)) :
    evenSource .outside (['<', '!', '-', '-'] ++ inside) =
      ['<', '!', '-', '-'] ++ (before ++ ['-', '-', '>'] ++ evenSource .outside after) := by
  rw [evenSource_eq .outside (by simp), piece_comment hcut]
  simp only [List.append_assoc]

/-- A comment without an end stays as it is. -/
theorem evenSource_openComment (hcut : cut? ['-', '-', '>'] inside = none) :
    evenSource .outside (['<', '!', '-', '-'] ++ inside) = ['<', '!', '-', '-'] ++ inside := by
  rw [evenSource_eq .outside (by simp), Spot.piece.eq_def, form?_comment, comment?_outside]
  simp only [hcut, evenSource_nil, List.append_nil]

theorem piece_cons (hmustache : Mustache.standsAt (c :: s) = false)
    (hcomment : spot.comment? (c :: s) = none) :
    spot.piece (c :: s) = ⟨[c], spot.next c s, s⟩ := by
  rw [Spot.piece.eq_def, Mustache.form?_eq_none_iff.2 hmustache]
  simp only [hcomment]

/-- What is neither in a mustache nor in a comment stays as it is. -/
theorem evenSource_cons (hmustache : Mustache.standsAt (c :: s) = false)
    (hcomment : spot.comment? (c :: s) = none) :
    evenSource spot (c :: s) = c :: evenSource (spot.next c s) s := by
  rw [evenSource_eq spot (by simp), piece_cons hmustache hcomment]
  rfl

theorem evenSource_cons_of_ne (hbrace : c ≠ '{') (hangle : c ≠ '<') :
    evenSource spot (c :: s) = c :: evenSource (spot.next c s) s := by
  refine evenSource_cons ?_ ?_
  · rw [Mustache.standsAt.eq_def]
    split
    · next heq => exact absurd (List.cons.inj heq).1 hbrace
    · rfl
  · cases spot with
    | outside => simp [Spot.comment?, dropMark?, Ne.symm hangle]
    | tag | beforeValue | bare | quoted => rfl

end Equations

/-- An even source begins with the same character. -/
theorem head?_evenSource (spot : Spot) (s : List Char) : (evenSource spot s).head? = s.head? := by
  by_cases h : s = []
  · rw [h, evenSource_nil]
  · obtain ⟨taken, hmade⟩ := spot.isMadeOf_piece s
    have htaken := hmade.ne_nil h
    have htext : (spot.piece s).text ≠ [] := fun hnil =>
      htaken (List.forall₂_nil_left_iff.1 (hnil ▸ hmade.alike))
    have hsource : s.head? = (taken ++ (spot.piece s).rest).head? :=
      congrArg List.head? hmade.source
    rw [evenSource_eq spot h, hsource, List.head?_append_of_ne_nil _ htext,
      List.head?_append_of_ne_nil _ htaken, hmade.head?_eq]

theorem exists_evenSource_cons (spot : Spot) (c : Char) (s : List Char) :
    ∃ t, evenSource spot (c :: s) = c :: t :=
  List.head?_eq_some_iff.1 (head?_evenSource spot (c :: s))

theorem isEmpty_evenSource (spot : Spot) (s : List Char) :
    (evenSource spot s).isEmpty = s.isEmpty := by
  rw [Bool.eq_iff_iff, List.isEmpty_iff_length_eq_zero, List.isEmpty_iff_length_eq_zero,
    (alike_evenSource spot s).length_eq]

/-! ## what begins where -/

namespace Alike

variable {s t : List Char}

theorem standsAt_eq (h : Alike s t) :
    Mustache.standsAt s = Mustache.standsAt t := by
  have hform := Mustache.form?_eq_of_alike h
  rw [Bool.eq_iff_iff, ← not_iff_not, Bool.not_eq_true, Bool.not_eq_true,
    ← Mustache.form?_eq_none_iff, ← Mustache.form?_eq_none_iff, hform]

theorem tagStandsAt_eq (h : Alike s t) : tagStandsAt s = tagStandsAt t := by
  cases h with
  | nil => rfl
  | cons hc _ =>
    rw [tagStandsAt, tagStandsAt]
    exact hc.eq_of_blanks fun c hblank => by
      rcases eq_of_isBlank hblank with rfl | rfl | rfl | rfl <;> rfl

theorem startTagStandsAt_eq (h : Alike s t) : startTagStandsAt s = startTagStandsAt t := by
  cases h with
  | nil => rfl
  | cons hc h => rw [startTagStandsAt_cons, startTagStandsAt_cons, tagStandsAt_eq h, hc.beq_eq rfl]

theorem endTagStandsAt_eq (h : Alike s t) : endTagStandsAt s = endTagStandsAt t := by
  cases h with
  | nil => rfl
  | cons hc h =>
    cases h with
    | nil => simp [endTagStandsAt]
    | cons hd h =>
      rw [endTagStandsAt_cons, endTagStandsAt_cons, tagStandsAt_eq h, hc.beq_eq rfl, hd.beq_eq rfl]

theorem textEndsAt_eq (h : Alike s t) :
    Mode.template.textEndsAt s = Mode.template.textEndsAt t := by
  rw [LiveTemplate.textEndsAt_eq, LiveTemplate.textEndsAt_eq, h.startTagStandsAt_eq,
    h.isPrefixOf_eq rfl, h.endTagStandsAt_eq]
  exact congrArg _ h.standsAt_eq

end Alike

/-! ## what is even -/

theorem Spot.next_eq_of_alike (spot : Spot) (c : Char) {s t : List Char} (h : Alike s t) :
    spot.next c s = spot.next c t := by
  cases spot with
  | outside => rw [next, next, startTagStandsAt_cons, startTagStandsAt_cons, h.tagStandsAt_eq]
  | tag | beforeValue | bare | quoted => rfl

theorem Spot.comment?_eq_none_of_alike {spot : Spot} {s t : List Char} (h : Alike s t)
    (hs : spot.comment? s = none) : spot.comment? t = none := by
  cases spot with
  | outside => exact h.dropMark?_eq_none rfl hs
  | tag | beforeValue | bare | quoted => rfl

/-- A source that is even stays as it is, by induction on its pieces and cases on what it begins
with. -/
theorem evenSource_evenSource (spot : Spot) (s : List Char) :
    evenSource spot (evenSource spot s) = evenSource spot s := by
  induction spot, s using evenSource.induct with
  | case1 spot => rw [evenSource_nil, evenSource_nil]
  | case2 spot s hne ih =>
    -- A source begins with the same piece when it is even, so each piece is made even by itself.
    have halike := (alike_evenSource spot s).symm
    cases hform : Mustache.form? s with
    | some form =>
      obtain ⟨hmem, inside, rfl⟩ := Mustache.exists_of_form? hform
      cases hcut : form.cut? inside with
      | none => rw [evenSource_unterminated hform hcut, evenSource_unterminated hform hcut]
      | some read =>
        obtain ⟨before, after⟩ := read
        rw [piece_mustache hform hcut] at ih
        have heven : evenSource spot (form.opening ++ inside) = form.opening ++
            (Mustache.evenContent form.kind before ++ form.closing ++
              evenSource spot.behindMustache after) := evenSource_mustache hform hcut
        rw [heven] at halike ⊢
        rw [Mustache.form?_eq_of_alike halike] at hform
        rw [evenSource_mustache hform (Mustache.Form.cut?_even hmem hcut _),
          Mustache.evenContent_evenContent, ih]
    | none =>
      cases hcomment : spot.comment? s with
      | some inside =>
        obtain ⟨rfl, rfl⟩ := Spot.comment?_eq_some hcomment
        cases hcut : cut? ['-', '-', '>'] inside with
        | none => rw [evenSource_openComment hcut, evenSource_openComment hcut]
        | some read =>
          obtain ⟨before, after⟩ := read
          rw [piece_comment hcut] at ih
          rw [evenSource_comment hcut, evenSource_comment (cut?_replace rfl (by decide) hcut _), ih]
      | none =>
        cases s with
        | nil => exact absurd rfl hne
        | cons c s =>
          have hmustache := Mustache.form?_eq_none_iff.1 hform
          rw [piece_cons hmustache hcomment] at ih
          have hrest := (alike_evenSource (spot.next c s) s).symm
          have hcons := evenSource_cons hmustache hcomment
          rw [hcons] at halike ⊢
          rw [evenSource_cons (halike.standsAt_eq ▸ hmustache)
            (Spot.comment?_eq_none_of_alike halike hcomment), ← spot.next_eq_of_alike c hrest, ih]

/-! ## between the mustaches -/

theorem evenSource_outside {c : Char} {s : List Char}
    (hcomment : Spot.outside.comment? (c :: s) = none)
    (hmustache : Mustache.standsAt (c :: s) = false) (hstart : startTagStandsAt (c :: s) = false) :
    evenSource .outside (c :: s) = c :: evenSource .outside s := by
  rw [evenSource_cons hmustache hcomment, Spot.next, hstart]
  rfl

/-- What begins nothing else is text. -/
theorem evenSource_text {c : Char} {s : List Char} (h : Mode.template.textEndsAt (c :: s) = false) :
    evenSource .outside (c :: s) = c :: evenSource .outside s := by
  simp only [textEndsAt_eq, Bool.or_eq_false_iff] at h
  obtain ⟨⟨⟨hstart, hcomment⟩, -⟩, hmustache⟩ := h
  refine evenSource_outside ?_ hmustache hstart
  rw [Spot.comment?, dropMark?_eq_ite, hcomment]
  rfl

theorem evenSource_startTag {s : List Char} (h : tagStandsAt s = true) :
    evenSource .outside ('<' :: s) = '<' :: evenSource .tag s := by
  have hcomment : Spot.outside.comment? ('<' :: s) = none := by
    rw [Spot.comment?, dropMark?_eq_none_iff]
    rintro ⟨t, ht⟩
    obtain ⟨-, rfl⟩ := List.cons.inj ht
    cases h
  rw [evenSource_cons rfl hcomment, Spot.next, startTagStandsAt, h]
  rfl

theorem evenSource_endTag (s : List Char) :
    evenSource .outside ('<' :: '/' :: s) = '<' :: '/' :: evenSource .outside s := by
  rw [evenSource_outside rfl rfl rfl]
  exact congrArg _ (evenSource_cons_of_ne (by decide) (by decide))

/-- Sources that begin with the same piece are even alike. -/
theorem evenSource_eq_of_piece_eq {spot spot' : Spot} {s : List Char}
    (h : s ≠ [] → spot.piece s = spot'.piece s) : evenSource spot s = evenSource spot' s := by
  by_cases hne : s = []
  · rw [hne, evenSource_nil, evenSource_nil]
  · rw [evenSource_eq spot hne, evenSource_eq spot' hne, h hne]

/-- What is no quote begins a value without quotes. -/
theorem evenSource_beforeValue {s : List Char}
    (h : ∀ x ∈ s.head?, isSpace x = false ∧ x ≠ '"' ∧ x ≠ '\'') :
    evenSource .beforeValue s = evenSource .bare s := by
  refine evenSource_eq_of_piece_eq fun hne => ?_
  obtain ⟨x, s, rfl⟩ := List.exists_cons_of_ne_nil hne
  have hnext : Spot.beforeValue.next x s = Spot.bare.next x s := by simp [Spot.next, h x rfl]
  rw [Spot.piece.eq_def, Spot.piece.eq_def]
  simp only [Spot.behindMustache, Spot.comment?, hnext]

/-- Behind a value without quotes the tag goes on. -/
theorem evenSource_bare {s : List Char}
    (h : s = [] ∨ ∃ x t, s = x :: t ∧ (isSpace x || x == '>') = true) :
    evenSource .bare s = evenSource .tag s := by
  refine evenSource_eq_of_piece_eq fun hne => ?_
  obtain ⟨x, s, rfl, hends⟩ := h.resolve_left hne
  have hmustache : Mustache.form? (x :: s) = none := by
    rw [Mustache.form?_eq_none_iff, Mustache.standsAt.eq_def]
    split
    · next heq =>
      obtain ⟨rfl, -⟩ := List.cons.inj heq
      cases hends
    · rfl
  have hnext : Spot.bare.next x s = Spot.tag.next x s := by
    rcases Bool.or_eq_true_iff.1 hends with hspace | hclose
    · have hclose : x ≠ '>' := ne_of_class hspace rfl
      have hequals : x ≠ '=' := ne_of_class hspace rfl
      simp [Spot.next, hspace, hclose, hequals]
    · obtain rfl := eq_of_beq hclose
      rfl
  rw [Spot.piece.eq_def, Spot.piece.eq_def, hmustache]
  simp only [Spot.comment?, hnext]

/-! ## classes of characters -/

/-- A class of characters behind which a reader stands as before. -/
structure Spot.Keeps (spot : Spot) (p : Char → Bool) : Prop where
  brace : p '{' = false
  angle : p '<' = false
  next_eq : ∀ c s, p c = true → spot.next c s = spot

namespace Spot.Keeps

variable {spot : Spot} {p : Char → Bool} (h : spot.Keeps p) {c : Char} (s : List Char)

include h

theorem evenSource_cons (hc : p c = true) : evenSource spot (c :: s) = c :: evenSource spot s := by
  rw [evenSource_cons_of_ne (ne_of_class hc h.brace) (ne_of_class hc h.angle), h.next_eq c s hc]

/-- Such characters are followed by what they were followed by, made even. -/
theorem split_evenSource :
    (evenSource spot s).takeWhile p = s.takeWhile p ∧
      (evenSource spot s).dropWhile p = evenSource spot (s.dropWhile p) := by
  induction s with
  | nil => simp
  | cons c s ih =>
    cases hc : p c with
    | true =>
      rw [h.evenSource_cons s hc]
      simpa [hc] using ih
    | false =>
      obtain ⟨t, ht⟩ := exists_evenSource_cons spot c s
      simp [ht, hc]

end Spot.Keeps

/-- Outside of tags a class without `<` and `{` is passed. -/
theorem Spot.keeps_outside {p : Char → Bool} (hbrace : p '{' = false) (hangle : p '<' = false) :
    Spot.outside.Keeps p where
  brace := hbrace
  angle := hangle
  next_eq c s h := by simp [Spot.next, startTagStandsAt_cons, ne_of_class h hangle]

/-- Inside a tag a class without the end of a tag and the equals sign is passed as well. -/
theorem Spot.keeps_tag {p : Char → Bool} (hbrace : p '{' = false) (hangle : p '<' = false)
    (hclose : p '>' = false) (hequals : p '=' = false) : Spot.tag.Keeps p where
  brace := hbrace
  angle := hangle
  next_eq c s h := by simp [Spot.next, ne_of_class h hclose, ne_of_class h hequals]

theorem Spot.keeps_isSpace : Spot.tag.Keeps isSpace := keeps_tag rfl rfl rfl rfl

theorem Spot.keeps_isAttributeCharacter : Spot.tag.Keeps isAttributeCharacter :=
  keeps_tag rfl rfl rfl rfl

theorem Spot.keeps_isTagCharacter : Spot.tag.Keeps isTagCharacter :=
  keeps_tag (by decide) (by decide) (by decide) (by decide)

theorem Spot.keeps_isSpace_beforeValue : Spot.beforeValue.Keeps isSpace where
  brace := rfl
  angle := rfl
  next_eq c s h := by simp [Spot.next, h]

/-- What a text is broken at is found in an even source, if the characters before it are plain. -/
theorem breakAt_evenSource {spot : Spot} {boundary : List Char → Bool}
    (heven : ∀ s, boundary (evenSource spot s) = boundary s)
    (hstep : ∀ c s, boundary (c :: s) = false → evenSource spot (c :: s) = c :: evenSource spot s)
    (s : List Char) :
    breakAt boundary (evenSource spot s) =
      ((breakAt boundary s).1, evenSource spot (breakAt boundary s).2) := by
  induction s with
  | nil => simp [breakAt]
  | cons c s ih =>
    cases hboundary : boundary (c :: s) with
    | true =>
      obtain ⟨t, ht⟩ := exists_evenSource_cons spot c s
      have hsame := heven (c :: s)
      rw [hboundary, ht] at hsame
      rw [ht, breakAt, breakAt, if_pos hboundary, if_pos hsame, ht]
    | false =>
      have hsame := heven (c :: s)
      rw [hboundary, hstep c s hboundary] at hsame
      rw [hstep c s hboundary, breakAt, breakAt, hboundary, hsame, ih]
      rfl

end LiveTemplate
