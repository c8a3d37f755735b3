import LiveTemplate.Proofs.Markup.Plain
import LiveTemplate.Proofs.Text.Trimming

/-!
# LiveTemplate.Proofs.Markup.Positions

Where the parts of a token stand in its source, and where a fault does.

All readers move a cursor along the source, and each range goes from one cursor to a later one.
So a range is known with the text that was read there (`Cursor.Holds`); that the text is a slice
of the source at the very bytes of the range follows at once (`Cursor.Holds.covers`).
-/

namespace LiveTemplate

/-- A sequence fails when one of its steps does. -/
theorem of_bind_eq_error {ε α β : Type} {x : Except ε α} {f : α → Except ε β} {e : ε}
    (h : x >>= f = .error e) : x = .error e ∨ ∃ a, x = .ok a ∧ f a = .error e := by
  cases x with
  | error e' =>
    cases h
    exact .inl rfl
  | ok a => exact .inr ⟨a, rfl, h⟩

/-- A mapped result fails only when the result does. -/
theorem of_map_eq_error {ε α β : Type} {x : Except ε α} {f : α → β} {e : ε}
    (h : x.map f = .error e) : x = .error e := by
  cases x with
  | error e' =>
    cases h
    rfl
  | ok a => cases h

/-! ## ranges -/

/-- A range covers a slice of a source: it begins and ends between two characters. -/
def Span.Covers (span : Span) (source slice : List Char) : Prop :=
  ∃ before after, source = before ++ slice ++ after ∧
    span = ⟨byteLength before, byteLength before + byteLength slice⟩

/-- A range covers something of a source. -/
def Span.IsPart (span : Span) (source : List Char) : Prop :=
  ∃ slice, slice ≠ [] ∧ span.Covers source slice

/-- A range ends where another one begins, or before. -/
def Span.Before (a b : Span) : Prop := a.hi ≤ b.lo

/-- A range lies inside another one and reaches neither of its ends. -/
def Span.Inside (a b : Span) : Prop := b.lo < a.lo ∧ a.hi < b.hi

theorem byteLength_pos {s : List Char} (h : s ≠ []) : 0 < byteLength s := by
  obtain ⟨c, s, rfl⟩ := List.exists_cons_of_ne_nil h
  have hpos := c.utf8Size_pos
  rw [byteLength]
  omega

namespace Cursor

/-- Between two cursors a text stands at a range. -/
def Holds (c d : Cursor) (span : Span) (slice : List Char) : Prop :=
  ∃ a b, c.Reaches a ∧ a.Reads slice b ∧ b.Reaches d ∧ span = a.spanTo b

/-- Behind a cursor a range covers something of the source. -/
def Locates (c : Cursor) (span : Span) : Prop :=
  ∃ d slice, slice ≠ [] ∧ c.Holds d span slice

variable {c d e f : Cursor} {span : Span} {slice : List Char}

theorem Reaches.offset_le : c.Reaches d → c.offset ≤ d.offset
  | ⟨_, _, h⟩ => by omega

theorem Passes.offset_lt : c.Passes d → c.offset < d.offset
  | ⟨_, hne, _, h⟩ => by
    have hpos := byteLength_pos hne
    omega

theorem Passes.rest_ne_nil : c.Passes d → c.rest ≠ []
  | ⟨_, hne, h, _⟩ => by simp [h, hne]

theorem Reads.holds (h : c.Reads slice d) : c.Holds d (c.spanTo d) slice :=
  ⟨c, d, .refl c, h, .refl d, rfl⟩

namespace Holds

theorem mono (h : d.Holds e span slice) (hcd : c.Reaches d) (hef : e.Reaches f) :
    c.Holds f span slice := by
  obtain ⟨a, b, ha, hab, hb, rfl⟩ := h
  exact ⟨a, b, hcd.trans ha, hab, hb.trans hef, rfl⟩

theorem le_lo (h : c.Holds d span slice) : c.offset ≤ span.lo := by
  obtain ⟨a, b, ha, -, -, rfl⟩ := h
  exact ha.offset_le

theorem hi_le (h : c.Holds d span slice) : span.hi ≤ d.offset := by
  obtain ⟨a, b, -, -, hb, rfl⟩ := h
  exact hb.offset_le

/-- The slice of a range is that part of the source. -/
theorem covers {source : List Char} (h : c.Holds d span slice) (hc : (ofSource source).Reaches c) :
    span.Covers source slice := by
  obtain ⟨a, b, ha, hab, -, rfl⟩ := h
  obtain ⟨before, hrest, hoffset⟩ := hc.trans ha
  refine ⟨before, b.rest, ?_, ?_⟩
  · rw [List.append_assoc, ← hab.1, ← hrest]
    rfl
  · have hstart : a.offset = byteLength before := by
      rw [hoffset, ofSource, Nat.zero_add]
    rw [spanTo, hab.2, hstart]

theorem locates (h : c.Holds d span slice) (hne : slice ≠ []) : c.Locates span := ⟨d, slice, hne, h⟩

end Holds

theorem Locates.of_reaches (h : d.Locates span) (hcd : c.Reaches d) : c.Locates span := by
  obtain ⟨e, slice, hne, h⟩ := h
  exact ⟨e, slice, hne, h.mono hcd (.refl e)⟩

/-- What is left of a source is covered up to its end. -/
theorem locates_spanToStop (hne : c.rest ≠ []) : c.Locates c.spanToStop :=
  have hreads : c.Reads c.rest ⟨c.stop, []⟩ := ⟨by simp, rfl⟩
  hreads.holds.locates hne

end Cursor

/-! ## faults -/

/-- The faults that a single token can have. -/
def ParseError.Cause.IsLexical : ParseError.Cause → Prop
  | .unterminatedComment | .unterminatedMustache | .unterminatedTag | .invalidAttribute .. => True
  | _ => False

/-- Behind a cursor a token has a fault, and it covers something of the source. -/
structure Cursor.Faults (c : Cursor) (e : ParseError) : Prop where
  isLexical : e.cause.IsLexical
  locates : c.Locates e.span

theorem Cursor.Faults.of_reaches {c d : Cursor} {e : ParseError} (h : d.Faults e)
    (hcd : c.Reaches d) : c.Faults e := ⟨h.isLexical, h.locates.of_reaches hcd⟩

theorem Cursor.faults_spanToStop {c : Cursor} {cause : ParseError.Cause} (hcause : cause.IsLexical)
    (hne : c.rest ≠ []) : c.Faults ⟨cause, c.spanToStop⟩ := ⟨hcause, locates_spanToStop hne⟩

/-! ## mustaches -/

/-- Whether a mustache was read from a text: braces, and its content somewhere between them. -/
def Mustache.IsReadFrom (m : Mustache) (slice : List Char) : Prop :=
  ∃ before after, slice = ['{', '{'] ++ before ++ m.content.toList ++ after ++ ['}', '}']

theorem isInfix_trim (s : List Char) : trim s <:+: s := by
  obtain ⟨before, after, hs, -⟩ := (trims_trim s).ends
  exact ⟨before, after, hs.symm⟩

namespace Mustache

variable {c d : Cursor} {m : Mustache} {e : ParseError}

/-- The content is part of what stands between the braces. -/
theorem isInfix_classify (s : List Char) : (classify s).2 <:+: s := by
  have hmark : ∀ (mark : List Char) {rest : List Char}, trim s = mark ++ rest →
      trim rest <:+: s ∧ rest <:+: s := by
    intro mark rest h
    have hrest : rest <:+: s := (h ▸ List.suffix_append mark rest).isInfix.trans (isInfix_trim s)
    exact ⟨(isInfix_trim rest).trans hrest, hrest⟩
  unfold classify
  split
  · next opened h => exact (hmark ['#'] h).2
  · next closed h => exact (hmark ['/'] h).1
  · exact List.nil_infix
  · next chained h => exact (hmark ['e', 'l', 's', 'e', ' '] h).1
  · exact List.infix_rfl

/-- The braces of every form begin and end with two braces. -/
theorem braces_of_mem_forms {form : Form} (h : form ∈ forms) :
    ['{', '{'] <+: form.opening ∧ ['}', '}'] <:+ form.closing := by
  revert form
  decide

theorem isReadFrom_of_isInfix {opening closing inside content : List Char} (kind : Kind)
    (span : Span) (hopening : ['{', '{'] <+: opening) (hclosing : ['}', '}'] <:+ closing)
    (hcontent : content <:+: inside) :
    (⟨kind, String.ofList content, span⟩ : Mustache).IsReadFrom
      (opening ++ (inside ++ closing)) := by
  obtain ⟨before, rfl⟩ := hopening
  obtain ⟨after, rfl⟩ := hclosing
  obtain ⟨l, r, rfl⟩ := hcontent
  exact ⟨before ++ l, r ++ after, by simp⟩

theorem reads_of_read? (h : read? c = some (.ok (m, d))) :
    m.span = c.spanTo d ∧ ∃ slice, c.Reads slice d ∧ m.IsReadFrom slice := by
  obtain ⟨form, hmem, hform⟩ := List.exists_of_findSome?_eq_some h
  obtain ⟨inside, hskip, hread⟩ := Option.map_eq_some_iff.1 hform
  obtain ⟨hopening, hclosing⟩ := braces_of_mem_forms hmem
  unfold Form.read at hread
  split at hread
  · cases hread
  · next before after hcut =>
    have hreads := (Cursor.reads_skip? hskip).trans
      (Cursor.reads_past (c := inside) (Form.eq_append_of_cut? hcut))
    simp only [Except.ok.injEq, Prod.mk.injEq] at hread
    obtain ⟨rfl, rfl⟩ := hread
    refine ⟨rfl, _, hreads, isReadFrom_of_isInfix _ _ hopening hclosing ?_⟩
    cases form.kind with
    | escaped => exact isInfix_classify before
    | _ => exact List.infix_rfl

theorem faults_of_read? (h : read? c = some (.error e)) : c.Faults e := by
  obtain ⟨form, hmem, hform⟩ := List.exists_of_findSome?_eq_some h
  obtain ⟨inside, hskip, hread⟩ := Option.map_eq_some_iff.1 hform
  obtain ⟨before, hbefore⟩ := (braces_of_mem_forms hmem).1
  unfold Form.read at hread
  split at hread
  · cases hread
    refine Cursor.faults_spanToStop trivial ?_
    rw [(Cursor.reads_skip? hskip).1, ← hbefore]
    simp
  · cases hread

end Mustache

theorem Mustache.IsReadFrom.ne_nil {m : Mustache} {slice : List Char} (h : m.IsReadFrom slice) :
    slice ≠ [] := by
  obtain ⟨before, after, rfl⟩ := h
  simp

section Readers

variable {mode : Mode} {ends : Char → Bool} {start c d f : Cursor} {e : ParseError}

theorem Mode.reads_of_mustache? {m : Mustache} (h : mode.mustache? c = some (.ok (m, d))) :
    m.span = c.spanTo d ∧ ∃ slice, c.Reads slice d ∧ m.IsReadFrom slice := by
  cases mode with
  | template => exact Mustache.reads_of_read? h
  | html => cases h

theorem Mode.faults_of_mustache? (h : mode.mustache? c = some (.error e)) : c.Faults e := by
  cases mode with
  | template => exact Mustache.faults_of_read? h
  | html => cases h

/-! ## values -/

/-- The mustaches among the pieces of a value stand between two cursors. -/
def HoldsMustaches (c d : Cursor) (chunks : List Chunk) : Prop :=
  ∀ m, Chunk.mustache m ∈ chunks → ∃ slice, c.Holds d m.span slice ∧ m.IsReadFrom slice

theorem HoldsMustaches.mono {chunks : List Chunk} (h : HoldsMustaches c d chunks)
    {c' d' : Cursor} (hc : c'.Reaches c) (hd : d.Reaches d') : HoldsMustaches c' d' chunks := by
  intro m hm
  obtain ⟨slice, hholds, hread⟩ := h m hm
  exact ⟨slice, hholds.mono hc hd, hread⟩

theorem not_mustache_mem_textChunk (raw : List Char) (m : Mustache) :
    Chunk.mustache m ∉ textChunk raw := by
  rw [textChunk]
  split <;> simp

theorem holdsMustaches_of_readChunks {chunks : List Chunk}
    (h : readChunks mode ends c = .ok (chunks, f)) : HoldsMustaches c f chunks := by
  fun_induction readChunks mode ends c generalizing chunks f with
  | case1 c text =>
    cases h
    exact fun m hm => absurd hm (not_mustache_mem_textChunk _ m)
  | case2 => cases h
  | case3 c text m d hm =>
    rename_i ih
    obtain ⟨⟨more, e⟩, hmore, h⟩ := exists_of_bind_eq_ok h
    cases h
    have htext : c.Reaches text.2 := (Cursor.reads_takeUntil _ c).reaches
    have hpasses := htext.trans (Mode.passes_mustache? hm).reaches
    intro m' hm'
    rcases List.mem_append.1 hm' with hm' | hm'
    · exact absurd hm' (not_mustache_mem_textChunk _ m')
    · rcases List.mem_cons.1 hm' with heq | hm'
      · cases heq
        obtain ⟨hspan, slice, hreads, hread⟩ := Mode.reads_of_mustache? hm
        exact ⟨slice, hspan ▸ hreads.holds.mono htext (reaches_readChunks hmore), hread⟩
      · exact (ih hmore).mono hpasses (.refl _) m' hm'

theorem faults_of_readChunks (h : readChunks mode ends c = .error e) : c.Faults e := by
  fun_induction readChunks mode ends c with
  | case1 => cases h
  | case2 c text e' hm =>
    cases h
    exact (Mode.faults_of_mustache? hm).of_reaches (Cursor.reads_takeUntil _ c).reaches
  | case3 c text m d hm =>
    rename_i ih
    have hpasses : c.Reaches d :=
      (Cursor.reads_takeUntil _ c).reaches.trans (Mode.passes_mustache? hm).reaches
    rcases of_bind_eq_error h with hmore | ⟨_, -, h⟩
    · exact (ih hmore).of_reaches hpasses
    · cases h

theorem holdsMustaches_of_readValue {v : RawValue} (h : readValue mode start c = .ok (v, f)) :
    HoldsMustaches c f v.chunks := by
  have hquoted : ∀ {quote : Char} {d : Cursor}, c.Reaches d →
      readValue.quotedValue mode start quote d = .ok (v, f) → HoldsMustaches c f v.chunks := by
    intro quote d hd h
    obtain ⟨⟨chunks, e⟩, hchunks, h⟩ := exists_of_bind_eq_ok h
    simp only at h
    split at h
    · next hskip =>
      cases h
      exact (holdsMustaches_of_readChunks hchunks).mono hd (Cursor.reads_skip? hskip).reaches
    · cases h
  unfold readValue at h
  split at h
  · next hrest => exact hquoted (Cursor.reads_mark ['"'] hrest).reaches h
  · next hrest => exact hquoted (Cursor.reads_mark ['\''] hrest).reaches h
  · obtain ⟨⟨chunks, d⟩, hchunks, h⟩ := exists_of_bind_eq_ok h
    cases h
    exact holdsMustaches_of_readChunks hchunks

/-- A fault in a value is one of its mustaches, or goes from the tag to the end of the source. -/
theorem faults_of_readValue (hstart : start.Passes c) (h : readValue mode start c = .error e) :
    start.Faults e := by
  have hquoted : ∀ {quote : Char} {d : Cursor}, start.Passes d →
      readValue.quotedValue mode start quote d = .error e → start.Faults e := by
    intro quote d hd h
    rcases of_bind_eq_error h with hchunks | ⟨⟨chunks, f⟩, -, h⟩
    · exact (faults_of_readChunks hchunks).of_reaches hd.reaches
    · simp only at h
      split at h
      · cases h
      · cases h
        exact Cursor.faults_spanToStop trivial hd.rest_ne_nil
  unfold readValue at h
  split at h
  · next hrest => exact hquoted (hstart.trans_reaches (Cursor.reads_mark ['"'] hrest).reaches) h
  · next hrest => exact hquoted (hstart.trans_reaches (Cursor.reads_mark ['\''] hrest).reaches) h
  · rcases of_bind_eq_error h with hchunks | ⟨_, -, h⟩
    · exact (faults_of_readChunks hchunks).of_reaches hstart.reaches
    · cases h

/-! ## parts of tags -/

/-- The range of a part of a tag; stray slashes are forgotten. -/
def TagPart.span? : TagPart → Option Span
  | attr a => some a.span
  | modifier m => some m.span
  | slash => none

/-- What a part of a tag says of the text it was read from, between two cursors. -/
def TagPart.IsReadBetween (c d : Cursor) : TagPart → Prop
  | attr a => a.span = c.spanTo d ∧
      (∃ behind, c.Reads (a.name.toList ++ behind) d ∧ a.name.toList ≠ []) ∧
      HoldsMustaches c d a.value.chunks
  | modifier m => m.span = c.spanTo d ∧ ∃ slice, c.Reads slice d ∧ m.IsReadFrom slice
  | slash => True

theorem isReadBetween_of_readAttribute {a : RawAttribute}
    (h : readAttribute mode start c = .ok (a, f)) : (TagPart.attr a).IsReadBetween c f := by
  unfold readAttribute at h
  have hname := Cursor.reads_takeWhile isAttributeCharacter c
  split at h
  · cases h
  · next name d hne heq =>
    rw [heq] at hname
    split at h
    · cases h
      refine ⟨rfl, ⟨[], by simpa using hname, by simpa using hne⟩, fun m hm => ?_⟩
      cases hm
    · next e he =>
      obtain ⟨⟨value, g⟩, hvalue, h⟩ := exists_of_bind_eq_ok h
      cases h
      have hto : d.Reaches (e.skipWhile isSpace) := (Cursor.reaches_skipWhile isSpace d).trans
        ((Cursor.reads_skip? he).reaches.trans (Cursor.reaches_skipWhile isSpace e))
      obtain ⟨behind, hbehind⟩ := hto.trans (reaches_readValue hvalue)
      refine ⟨rfl, ⟨behind, by simpa using hname.trans hbehind, by simpa using hne⟩, ?_⟩
      exact (holdsMustaches_of_readValue hvalue).mono (hname.reaches.trans hto) (.refl _)

theorem isReadBetween_of_readTagPart {part : TagPart}
    (h : readTagPart mode start c = .ok (part, f)) : part.IsReadBetween c f := by
  unfold readTagPart at h
  split at h
  · cases h
    trivial
  · split at h
    · next read hread =>
      obtain ⟨⟨m, d⟩, rfl, heq⟩ := exists_of_map_eq_ok h
      cases heq
      exact Mode.reads_of_mustache? hread
    · obtain ⟨⟨a, d⟩, hread, heq⟩ := exists_of_map_eq_ok h
      cases heq
      exact isReadBetween_of_readAttribute hread

/-- A character that begins no attribute is one byte long. -/
theorem utf8Size_of_isAttributeCharacter {x : Char} (h : isAttributeCharacter x = false) :
    x.utf8Size = 1 := by
  simp only [isAttributeCharacter, isSpace, Bool.not_eq_false', Bool.or_eq_true, beq_iff_eq,
    List.contains_iff_mem, List.mem_cons, List.not_mem_nil, or_false] at h
  rcases h with ((((rfl | rfl) | rfl) | rfl) | rfl) | rfl | rfl | rfl | rfl | rfl | rfl | rfl <;>
    rfl

theorem faults_of_readAttribute (hstart : start.Passes c) (hne : c.rest ≠ [])
    (h : readAttribute mode start c = .error e) : start.Faults e := by
  unfold readAttribute at h
  have hname := Cursor.reads_takeWhile isAttributeCharacter c
  split at h
  · next d heq =>
    cases h
    obtain ⟨x, rest, hrest⟩ := List.exists_cons_of_ne_nil hne
    have hx : isAttributeCharacter x = false := by
      have htake : c.rest.takeWhile isAttributeCharacter = [] := congrArg Prod.fst heq
      rw [← Bool.not_eq_true]
      intro hx
      simp [hrest, List.takeWhile_cons_of_pos hx] at htake
    have hreads : c.Reads [x] (c.past [x] rest) := Cursor.reads_past hrest
    have hspan : c.spanTo (c.past [x] rest) = ⟨c.offset, c.offset + 1⟩ := by
      simp [Cursor.spanTo, Cursor.past, byteLength, utf8Size_of_isAttributeCharacter hx]
    exact ⟨trivial, (hspan ▸ hreads.holds.locates (by simp)).of_reaches hstart.reaches⟩
  · next name d hne' heq =>
    rw [heq] at hname
    split at h
    · cases h
    · next e' he =>
      have hto : c.Reaches (e'.skipWhile isSpace) := hname.reaches.trans
        ((Cursor.reaches_skipWhile isSpace d).trans
          ((Cursor.reads_skip? he).reaches.trans (Cursor.reaches_skipWhile isSpace e')))
      rcases of_bind_eq_error h with hvalue | ⟨_, -, h⟩
      · exact faults_of_readValue (hstart.trans_reaches hto) hvalue
      · cases h

theorem faults_of_readTagPart (hstart : start.Passes c) (hne : c.rest ≠ [])
    (h : readTagPart mode start c = .error e) : start.Faults e := by
  unfold readTagPart at h
  split at h
  · cases h
  · split at h
    · next read hread =>
      rw [of_map_eq_error h] at hread
      exact (Mode.faults_of_mustache? hread).of_reaches hstart.reaches
    · exact faults_of_readAttribute hstart hne (of_map_eq_error h)

/-! ## tags -/

/-- Parts of a tag that were read one behind the other, between two cursors. -/
inductive PartsBetween : Cursor → List TagPart → Cursor → Prop where
  | nil {c d : Cursor} (hcd : c.Reaches d) : PartsBetween c [] d
  | cons {c d e f : Cursor} {part : TagPart} {parts : List TagPart} (hcd : c.Reaches d)
    (hde : d.Passes e) (hpart : part.IsReadBetween d e) (hparts : PartsBetween e parts f) :
    PartsBetween c (part :: parts) f

theorem exists_of_tagEnd? {closes : Bool} (h : tagEnd? c = some (closes, d)) :
    ∃ slash, c.Reads (slash ++ ['>']) d := by
  unfold tagEnd? at h
  split at h
  · next hrest =>
    cases h
    exact ⟨['/'], Cursor.reads_mark _ hrest⟩
  · next hrest =>
    cases h
    exact ⟨[], Cursor.reads_mark _ hrest⟩
  · cases h

/-- The parts of a tag stand one behind the other in front of its end. -/
theorem partsBetween_of_readTagParts {parts : List TagPart} {closes : Bool}
    (h : readTagParts mode start c = .ok (parts, closes, f)) :
    ∃ g slash, PartsBetween c parts g ∧ g.Reads (slash ++ ['>']) f := by
  fun_induction readTagParts mode start c generalizing parts closes f with
  | case1 => cases h
  | case2 c d hne closes e =>
    rename_i hend
    cases h
    obtain ⟨slash, hslash⟩ := exists_of_tagEnd? hend
    exact ⟨d, slash, .nil (Cursor.reaches_skipWhile isSpace c), hslash⟩
  | case3 => cases h
  | case4 c d hne hend part e hpart =>
    rename_i ih
    obtain ⟨⟨more, closes, g⟩, hmore, h⟩ := exists_of_bind_eq_ok h
    cases h
    obtain ⟨g', slash, hparts, hslash⟩ := ih hmore
    exact ⟨g', slash, .cons (Cursor.reaches_skipWhile isSpace c) (passes_readTagPart hpart)
      (isReadBetween_of_readTagPart hpart) hparts, hslash⟩

theorem faults_of_readTagParts (hstart : start.Passes c)
    (h : readTagParts mode start c = .error e) : start.Faults e := by
  fun_induction readTagParts mode start c with
  | case1 =>
    cases h
    exact Cursor.faults_spanToStop trivial hstart.rest_ne_nil
  | case2 => cases h
  | case3 c d hne hend e' hpart =>
    cases h
    exact faults_of_readTagPart (hstart.trans_reaches (Cursor.reaches_skipWhile isSpace c))
      (by simpa using hne) hpart
  | case4 c d hne hend part e hpart =>
    rename_i ih
    rcases of_bind_eq_error h with hmore | ⟨_, -, h⟩
    · exact ih (hstart.trans_reaches ((Cursor.reaches_skipWhile isSpace c).trans
        (passes_readTagPart hpart).reaches)) hmore
    · cases h

/-- Parts that were read end no earlier than they begin. -/
theorem PartsBetween.reaches {parts : List TagPart} (h : PartsBetween c parts d) : c.Reaches d := by
  induction h with
  | nil hcd => exact hcd
  | cons hcd hde _ _ ih => exact hcd.trans (hde.reaches.trans ih)

theorem PartsBetween.exists_of_mem {parts : List TagPart} (h : PartsBetween c parts d)
    {part : TagPart} (hpart : part ∈ parts) :
    ∃ a b, c.Reaches a ∧ b.Reaches d ∧ part.IsReadBetween a b := by
  induction h with
  | nil => cases hpart
  | cons hcd hde hread hparts ih =>
    rcases List.mem_cons.1 hpart with rfl | hpart
    · exact ⟨_, _, hcd, hparts.reaches, hread⟩
    · obtain ⟨a, b, ha, hb, hread⟩ := ih hpart
      exact ⟨a, b, hcd.trans (hde.reaches.trans ha), hb, hread⟩

theorem TagPart.IsReadBetween.span_eq {part : TagPart} (h : part.IsReadBetween c d) {span : Span}
    (hspan : part.span? = some span) : span = c.spanTo d := by
  cases part with
  | attr a =>
    cases hspan
    exact h.1
  | modifier m =>
    cases hspan
    exact h.1
  | slash => cases hspan

/-- No part of a tag begins before those in front of it end. -/
theorem PartsBetween.pairwise {parts : List TagPart} (h : PartsBetween c parts d) :
    parts.Pairwise fun p q => ∀ a b, p.span? = some a → q.span? = some b → a.Before b := by
  induction h with
  | nil => exact .nil
  | cons hcd hde hread hparts ih =>
    refine List.pairwise_cons.2 ⟨fun part hpart a b ha hb => ?_, ih⟩
    obtain ⟨f, g, hf, -, hread'⟩ := hparts.exists_of_mem hpart
    rw [hread.span_eq ha, hread'.span_eq hb]
    exact hf.offset_le

/-- Of two parts of a tag one ends before the other begins. -/
def TagPart.Apart (p q : TagPart) : Prop :=
  ∀ a b, p.span? = some a → q.span? = some b → a.Before b ∨ b.Before a

instance : Std.Symm TagPart.Apart := ⟨fun _ _ h b a hb ha => (h a b ha hb).symm⟩

theorem PartsBetween.apart {parts : List TagPart} (h : PartsBetween c parts d) :
    ∀ ⦃p⦄, p ∈ parts → ∀ ⦃q⦄, q ∈ parts → p ≠ q → p.Apart q :=
  List.Pairwise.forall (h.pairwise.imp fun hbefore a b ha hb => .inl (hbefore a b ha hb))

/-- The attribute that a part of a tag is. -/
def TagPart.attribute? : TagPart → Option RawAttribute
  | attr a => some a
  | _ => none

/-- The mustache that a part of a tag is. -/
def TagPart.modifier? : TagPart → Option Mustache
  | modifier m => some m
  | _ => none

theorem TagPart.attribute?_eq_some {part : TagPart} {a : RawAttribute}
    (h : part.attribute? = some a) : part = attr a := by
  cases part <;> cases h
  rfl

theorem TagPart.modifier?_eq_some {part : TagPart} {m : Mustache}
    (h : part.modifier? = some m) : part = modifier m := by
  cases part <;> cases h
  rfl

/-- What a start tag says of the text between two cursors. -/
def StartTag.IsReadBetween (c f : Cursor) (tag : StartTag) : Prop :=
  tag.span = c.spanTo f ∧ ∃ d g parts slash,
    c.Reads ('<' :: tag.name.toList) d ∧ PartsBetween d parts g ∧ g.Reads (slash ++ ['>']) f ∧
      tag.attributes = parts.filterMap TagPart.attribute? ∧
        tag.modifiers = parts.filterMap TagPart.modifier?

theorem reads_readTagName? {name : List Char} (h : readTagName? c = some (name, d)) :
    c.Reads name d := by
  unfold readTagName? at h
  split at h
  · have hreads := Cursor.reads_takeWhile isTagCharacter c
    rw [Option.some.inj h] at hreads
    exact hreads
  · cases h

theorem isReadBetween_of_readStartTag {tag : StartTag} (h : readStartTag mode c = .ok (tag, f)) :
    tag.IsReadBetween c f := by
  unfold readStartTag at h
  split at h
  · cases h
  · next name d hname =>
    obtain ⟨opened, hskip, hname⟩ := Option.bind_eq_some_iff.1 hname
    obtain ⟨⟨parts, closes, e⟩, hparts, h⟩ := exists_of_bind_eq_ok h
    cases h
    obtain ⟨g, slash, hbetween, hslash⟩ := partsBetween_of_readTagParts hparts
    have hopened := (Cursor.reads_skip? hskip).trans (reads_readTagName? hname)
    exact ⟨rfl, d, g, parts, slash, by simpa using hopened, hbetween, hslash, rfl, rfl⟩

theorem faults_of_readStartTag (hne : c.rest ≠ []) (h : readStartTag mode c = .error e) :
    c.Faults e := by
  unfold readStartTag at h
  split at h
  · cases h
    exact Cursor.faults_spanToStop trivial hne
  · next name d hname =>
    obtain ⟨opened, hskip, hname⟩ := Option.bind_eq_some_iff.1 hname
    rcases of_bind_eq_error h with hparts | ⟨_, -, h⟩
    · have hpasses := (Cursor.reads_skip? hskip).passes (by simp)
      exact faults_of_readTagParts (hpasses.trans_reaches (reaches_readTagName? hname)) hparts
    · cases h

/-! ## layout -/

/-- The attributes of a start tag and the mustaches in it stand inside it; no attribute or modifier
begins before those in front of it end. -/
structure StartTag.IsLaidOut (tag : StartTag) (source : List Char) : Prop where
  attributeInside : ∀ a ∈ tag.attributes, a.span.Inside tag.span ∧
    ∃ behind, a.span.Covers source (a.name.toList ++ behind) ∧ a.name.toList ≠ []
  valueInside : ∀ a ∈ tag.attributes, ∀ m, Chunk.mustache m ∈ a.value.chunks →
    m.span.Inside tag.span ∧ ∃ slice, m.span.Covers source slice ∧ m.IsReadFrom slice
  modifierInside : ∀ m ∈ tag.modifiers, m.span.Inside tag.span ∧
    ∃ slice, m.span.Covers source slice ∧ m.IsReadFrom slice
  attributes : tag.attributes.Pairwise fun a b => a.span.Before b.span
  modifiers : tag.modifiers.Pairwise fun a b => a.span.Before b.span
  apart : ∀ a ∈ tag.attributes, ∀ m ∈ tag.modifiers,
    a.span.Before m.span ∨ m.span.Before a.span

theorem StartTag.IsReadBetween.isLaidOut {source : List Char} {tag : StartTag}
    (h : tag.IsReadBetween c f) (hc : (Cursor.ofSource source).Reaches c) :
    tag.IsLaidOut source := by
  obtain ⟨hspan, d, g, parts, slash, hname, hparts, hslash, hattributes, hmodifiers⟩ := h
  have hd : c.Passes d := hname.passes (by simp)
  have hg : g.Passes f := hslash.passes (by simp)
  -- What stands between the name and the end stands inside.
  have hinside : ∀ {a b span slice}, d.Reaches a → b.Reaches g → a.Holds b span slice →
      span.Inside tag.span ∧ span.Covers source slice := by
    intro a b span slice ha hb hholds
    have hwithin := hholds.mono ha hb
    rw [hspan]
    exact ⟨⟨Nat.lt_of_lt_of_le hd.offset_lt hwithin.le_lo,
      Nat.lt_of_le_of_lt hwithin.hi_le hg.offset_lt⟩, hwithin.covers (hc.trans hd.reaches)⟩
  have hattribute : ∀ a ∈ tag.attributes, TagPart.attr a ∈ parts := by
    intro a ha
    rw [hattributes] at ha
    obtain ⟨part, hpart, heq⟩ := List.mem_filterMap.1 ha
    exact TagPart.attribute?_eq_some heq ▸ hpart
  have hmodifier : ∀ m ∈ tag.modifiers, TagPart.modifier m ∈ parts := by
    intro m hm
    rw [hmodifiers] at hm
    obtain ⟨part, hpart, heq⟩ := List.mem_filterMap.1 hm
    exact TagPart.modifier?_eq_some heq ▸ hpart
  constructor
  case attributeInside =>
    intro a ha
    obtain ⟨p, q, hp, hq, heq, ⟨behind, hreads, hne⟩, -⟩ := hparts.exists_of_mem (hattribute a ha)
    obtain ⟨hin, hcovers⟩ := hinside hp hq hreads.holds
    rw [heq]
    exact ⟨hin, behind, hcovers, hne⟩
  case valueInside =>
    intro a ha m hm
    obtain ⟨p, q, hp, hq, -, -, hmustaches⟩ := hparts.exists_of_mem (hattribute a ha)
    obtain ⟨slice, hholds, hread⟩ := hmustaches m hm
    obtain ⟨hin, hcovers⟩ := hinside hp hq hholds
    exact ⟨hin, slice, hcovers, hread⟩
  case modifierInside =>
    intro m hm
    obtain ⟨p, q, hp, hq, heq, slice, hreads, hread⟩ := hparts.exists_of_mem (hmodifier m hm)
    obtain ⟨hin, hcovers⟩ := hinside hp hq hreads.holds
    rw [heq]
    exact ⟨hin, slice, hcovers, hread⟩
  case attributes =>
    rw [hattributes, List.pairwise_filterMap]
    refine hparts.pairwise.imp fun hbefore a ha b hb => ?_
    rw [TagPart.attribute?_eq_some ha, TagPart.attribute?_eq_some hb] at hbefore
    exact hbefore a.span b.span rfl rfl
  case modifiers =>
    rw [hmodifiers, List.pairwise_filterMap]
    refine hparts.pairwise.imp fun hbefore a ha b hb => ?_
    rw [TagPart.modifier?_eq_some ha, TagPart.modifier?_eq_some hb] at hbefore
    exact hbefore a.span b.span rfl rfl
  case apart =>
    intro a ha m hm
    exact hparts.apart (hattribute a ha) (hmodifier m hm) (by simp) _ _ rfl rfl

end Readers

end LiveTemplate
