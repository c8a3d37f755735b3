import LiveTemplate.Proofs.Spacing.Expressions
import LiveTemplate.Proofs.Spacing.Tokens
import LiveTemplate.Template.Parser

/-!
# LiveTemplate.Proofs.Spacing.Templates

Templates from sources that are even alike.

Each step of the construction does the same with tokens that are even alike, or fails with the
same fault, up to the blanks of the expression that the fault quotes (`SameResult`).  Only block
closings are told apart by their blanks: the name in a closing is no expression, but compared
with the path of the opening as it is.
-/

namespace LiveTemplate

/-! ## results -/

namespace SameResult

variable {α β γ : Type}

theorem refl (x : Except ParseError α) : SameResult x x := rfl

theorem error {e e' : ParseError} (h : e.even = e'.even) :
    SameResult (.error e : Except ParseError α) (.error e') := congrArg Except.error h

theorem bind {x y : Except ParseError α} {f g : α → Except ParseError β} (h : SameResult x y)
    (hf : ∀ a, SameResult (f a) (g a)) : SameResult (x >>= f) (y >>= g) := by
  cases x with
  | error e =>
    cases y with
    | error e' =>
      have heven : e.even = e'.even := Except.error.inj h
      exact .error heven
    | ok b => cases h
  | ok a =>
    cases y with
    | error e' => cases h
    | ok b =>
      obtain rfl : a = b := Except.ok.inj h
      exact hf a

theorem mapM {R : α → β → Prop} {f : α → Except ParseError γ} {g : β → Except ParseError γ}
    (hf : ∀ a b, R a b → SameResult (f a) (g b)) {as : List α} {bs : List β}
    (h : List.Forall₂ R as bs) : SameResult (as.mapM f) (bs.mapM g) := by
  induction h with
  | nil => exact .refl _
  | cons hab _ ih =>
    rw [List.mapM_cons, List.mapM_cons]
    exact (hf _ _ hab).bind fun c => ih.bind fun cs => .refl _

theorem foldlM {R : α → β → Prop} {f : γ → α → Except ParseError γ}
    {g : γ → β → Except ParseError γ} (hf : ∀ s a b, R a b → SameResult (f s a) (g s b))
    {as : List α} {bs : List β} (h : List.Forall₂ R as bs) (s : γ) :
    SameResult (as.foldlM f s) (bs.foldlM g s) := by
  induction h generalizing s with
  | nil => exact .refl _
  | cons hab _ ih =>
    rw [List.foldlM_cons, List.foldlM_cons]
    exact (hf s _ _ hab).bind ih

end SameResult

theorem forall₂_of_map_eq {α β : Type} {f : α → β} {as bs : List α} (h : as.map f = bs.map f) :
    List.Forall₂ (fun a b => f a = f b) as bs := by
  have hmap : List.Forall₂ (· = ·) (as.map f) (bs.map f) := List.forall₂_eq_eq_eq ▸ h
  exact List.forall₂_map_right_iff.1 (List.forall₂_map_left_iff.1 hmap)

theorem evenText_trimString {s t : String}
    (h : evenText none s.toList = evenText none t.toList) :
    evenText none (trimString s).toList = evenText none (trimString t).toList := by
  rw [trimString, trimString, String.toList_ofList, String.toList_ofList, ← trim_evenText,
    ← trim_evenText, h]

/-! ## mustaches -/

section Mustaches

variable {m m' : Mustache}

/-- Mustaches that are even alike do the same at the same place. -/
theorem Mustache.of_even_eq (h : m.even = m'.even) :
    m.kind = m'.kind ∧ m.span = m'.span ∧
      evenText none m.content.toList = evenText none m'.content.toList := by
  have hcontent := congrArg (evenText none ·.content.toList) h
  simp only [even, String.toList_ofList, evenText_evenContent] at hcontent
  exact ⟨(congrArg kind h :), (congrArg span h :), hcontent⟩

theorem sameResult_invalidAttribute {α : Type} (h : m.even = m'.even) (fault : AttributeFault) :
    SameResult (.error ⟨.invalidAttribute (trimString m.content) fault, m.span⟩ :
      Except ParseError α) (.error ⟨.invalidAttribute (trimString m'.content) fault, m'.span⟩) := by
  obtain ⟨-, hspan, hcontent⟩ := Mustache.of_even_eq h
  refine .error ?_
  simp only [ParseError.even, ParseError.Cause.even, evenText_trimString hcontent, hspan]

theorem sameResult_call (h : m.even = m'.even) : SameResult m.call m'.call := by
  obtain ⟨-, hspan, hcontent⟩ := Mustache.of_even_eq h
  rw [Mustache.call, Mustache.call, hspan]
  refine (sameResult_ofContent _ hcontent).bind fun e => ?_
  split
  · exact .refl _
  · refine .error ?_
    simp only [ParseError.even, ParseError.Cause.even, evenText_trimString hcontent]

theorem sameResult_insertion (h : m.even = m'.even) : SameResult m.insertion m'.insertion := by
  obtain ⟨hkind, hspan, -⟩ := Mustache.of_even_eq h
  rw [Mustache.insertion, Mustache.insertion, hkind, hspan]
  exact (sameResult_call h).bind fun call => .refl _

theorem sameResult_modifier (h : m.even = m'.even) : SameResult m.modifier m'.modifier := by
  obtain ⟨hkind, -⟩ := Mustache.of_even_eq h
  rw [Mustache.modifier, Mustache.modifier, hkind]
  split
  · exact sameResult_call h
  · exact sameResult_invalidAttribute h .notACall

end Mustaches

/-! ## tags -/

theorem sameResult_ofChunks (name : String) {chunks chunks' : List Chunk}
    (h : chunks.map Chunk.even = chunks'.map Chunk.even) :
    SameResult (AttributePart.ofChunks name chunks) (AttributePart.ofChunks name chunks') := by
  have hchunks := forall₂_of_map_eq h
  clear h
  induction hchunks with
  | nil => exact .refl _
  | @cons chunk chunk' _ _ hchunk _ ih =>
    cases chunk with
    | text s =>
      cases chunk' with
      | text s' =>
        cases hchunk
        rw [AttributePart.ofChunks, AttributePart.ofChunks]
        exact ih.bind fun parts => .refl _
      | mustache m' => cases hchunk
    | mustache m =>
      cases chunk' with
      | text s' => cases hchunk
      | mustache m' =>
        have heven : m.even = m'.even := Chunk.mustache.inj hchunk
        obtain ⟨hkind, hspan, -⟩ := Mustache.of_even_eq heven
        rw [AttributePart.ofChunks, AttributePart.ofChunks, hkind, hspan]
        cases m'.kind with
        | comment => exact ih
        | escaped | unescaped =>
          exact (sameResult_insertion heven).bind fun i => ih.bind fun parts => .refl _
        | opening | otherwise | closing => exact .refl _

theorem sameResult_ofRaw {a a' : RawAttribute} (h : a.even = a'.even) :
    SameResult (Attribute.ofRaw a) (Attribute.ofRaw a') := by
  have hname : a.name = a'.name := (congrArg RawAttribute.name h :)
  have hspan : a.span = a'.span := (congrArg RawAttribute.span h :)
  have hvalue : a.value.even = a'.value.even := (congrArg RawAttribute.value h :)
  have hquoted : a.value.isQuoted = a'.value.isQuoted := by
    cases hv : a.value <;> cases hv' : a'.value <;> simp_all [RawValue.even, RawValue.isQuoted]
  have hchunks : a.value.chunks.map Chunk.even = a'.value.chunks.map Chunk.even := by
    cases hv : a.value <;> cases hv' : a'.value <;> simp_all [RawValue.even, RawValue.chunks]
  rw [Attribute.ofRaw, Attribute.ofRaw, hname, hspan, hquoted]
  exact (sameResult_ofChunks a'.name hchunks).bind fun parts => .refl _

theorem map_even_withoutComments (ms : List Mustache) :
    (withoutComments ms).map Mustache.even = withoutComments (ms.map Mustache.even) := by
  rw [withoutComments, withoutComments, List.filter_map]
  rfl

namespace Construction

variable (s : Construction)

section Tags

variable {tag tag' : StartTag} (h : tag.even = tag'.even) (attributes : List Attribute)

include h

/-- Start tags with the same even tag differ in their values and modifiers only. -/
theorem of_even_tags_eq :
    tag.name = tag'.name ∧ tag.span = tag'.span ∧ tag.selfClosing = tag'.selfClosing ∧
      tag.attributes.map RawAttribute.even = tag'.attributes.map RawAttribute.even ∧
      tag.modifiers.map Mustache.even = tag'.modifiers.map Mustache.even :=
  ⟨(congrArg StartTag.name h :), (congrArg StartTag.span h :), (congrArg StartTag.selfClosing h :),
    congrArg StartTag.attributes h, congrArg StartTag.modifiers h⟩

theorem map_even_modifiers :
    (withoutComments tag.modifiers).map Mustache.even =
      (withoutComments tag'.modifiers).map Mustache.even := by
  obtain ⟨-, -, -, -, hmodifiers⟩ := of_even_tags_eq h
  rw [map_even_withoutComments, map_even_withoutComments, hmodifiers]

theorem sameResult_startComponent :
    SameResult (s.startComponent tag attributes) (s.startComponent tag' attributes) := by
  obtain ⟨hname, hspan, hclosing, -⟩ := of_even_tags_eq h
  have hmodifiers := forall₂_of_map_eq (map_even_modifiers h)
  rw [startComponent, startComponent, hname, hspan, hclosing]
  generalize withoutComments tag.modifiers = ms at hmodifiers ⊢
  generalize withoutComments tag'.modifiers = ms' at hmodifiers ⊢
  cases hmodifiers with
  | nil => exact .refl _
  | cons hm _ => exact sameResult_invalidAttribute hm .modifierOnComponent

theorem sameResult_startElement :
    SameResult (s.startElement tag attributes) (s.startElement tag' attributes) := by
  obtain ⟨hname, hspan, hclosing, -⟩ := of_even_tags_eq h
  have hmodifiers := forall₂_of_map_eq (map_even_modifiers h)
  rw [startElement, startElement, hname, hspan, hclosing]
  exact (SameResult.mapM (fun _ _ hm => sameResult_modifier hm) hmodifiers).bind fun _ => .refl _

theorem sameResult_startTag (options : TemplateOptions) :
    SameResult (s.startTag options tag) (s.startTag options tag') := by
  obtain ⟨hname, -, -, hattributes, -⟩ := of_even_tags_eq h
  rw [startTag, startTag, hname]
  refine (SameResult.mapM (fun _ _ ha => sameResult_ofRaw ha)
    (forall₂_of_map_eq hattributes)).bind fun attributes => ?_
  split
  · exact sameResult_startComponent s h attributes
  · exact sameResult_startElement s h attributes

end Tags

section Mustaches

variable {m m' : Mustache} (h : m.even = m'.even)

include h

theorem sameResult_openBlock : SameResult (s.openBlock m) (s.openBlock m') := by
  obtain ⟨-, hspan, hcontent⟩ := Mustache.of_even_eq h
  rw [openBlock, openBlock, hspan]
  exact (sameResult_ofContent _ hcontent).bind fun e => .refl _

/-- What is chained to `else` is a fault, whatever it is. -/
theorem sameResult_otherwise : SameResult (s.otherwise m) (s.otherwise m') := by
  obtain ⟨-, hspan, hcontent⟩ := Mustache.of_even_eq h
  have hchained := evenText_trimString hcontent
  rw [otherwise, otherwise, hspan]
  split
  · have hempty : (trimString m.content).isEmpty = (trimString m'.content).isEmpty := by
      rw [Bool.eq_iff_iff, String.isEmpty_iff, String.isEmpty_iff, ← String.toList_eq_nil_iff,
        ← String.toList_eq_nil_iff, ← evenText_eq_nil, hchained, evenText_eq_nil]
    simp only [hempty]
    split
    · exact .refl _
    · refine .error ?_
      have helse : ∀ chained : String, evenText none ("else " ++ chained).toList =
          "else ".toList ++ evenText none chained.toList := by
        intro chained
        rw [String.toList_append, evenText_append]
        rfl
      simp only [ParseError.even, ParseError.Cause.even, helse, hchained]
  · exact .refl _

/-- A block closing names what it closes exactly. -/
theorem closeBlock_eq (hname : trimString m.content = trimString m'.content) :
    s.closeBlock m = s.closeBlock m' := by
  obtain ⟨-, hspan, -⟩ := Mustache.of_even_eq h
  rw [closeBlock, closeBlock, hspan, hname]

end Mustaches

end Construction

/-! ## tokens -/

/-- The name in a block closing. -/
def Token.closing? : Token → Option String
  | mustache m => if m.kind = .closing then some (trimString m.content) else none
  | startTag _ | endTag _ _ | text _ _ | comment _ _ => none

/-- The names in the block closings of a reading. -/
def Reading.closings (r : Reading) : List String := r.tokens.filterMap Token.closing?

/-- A token makes the same of a construction as one that is even alike. -/
theorem Construction.sameResult_step (options : TemplateOptions) (s : Construction) {a b : Token}
    (h : a.even = b.even) (hclosing : a.closing? = b.closing?) :
    SameResult (s.step options a) (s.step options b) := by
  cases a with
  | startTag tag =>
    cases b with
    | startTag tag' => exact sameResult_startTag s (Token.startTag.inj h) options
    | _ => cases h
  | mustache m =>
    cases b with
    | mustache m' =>
      have heven : m.even = m'.even := Token.mustache.inj h
      have hkind := (Mustache.of_even_eq heven).1
      rw [step, step, hkind]
      cases hkind' : m'.kind with
      | comment => exact .refl _
      | escaped | unescaped => exact (sameResult_insertion heven).bind fun i => .refl _
      | opening => exact sameResult_openBlock s heven
      | otherwise => exact sameResult_otherwise s heven
      | closing =>
        rw [Token.closing?, Token.closing?, hkind, if_pos hkind', if_pos hkind'] at hclosing
        show SameResult (s.closeBlock m) (s.closeBlock m')
        rw [closeBlock_eq s heven (Option.some.inj hclosing)]
        exact .refl _
    | _ => cases h
  | endTag | text | comment =>
    cases b <;> cases h
    exact .refl _

theorem isSome_closing?_even (token : Token) :
    token.even.closing?.isSome = token.closing?.isSome := by
  cases token with
  | mustache m =>
    simp only [Token.even, Token.closing?, Mustache.even]
    split <;> rfl
  | startTag | endTag | text | comment => rfl

/-- Closings of tokens that are even alike correspond to each other. -/
theorem forall₂_of_closings_eq {as bs : List Token} (h : as.map Token.even = bs.map Token.even)
    (hclosings : as.filterMap Token.closing? = bs.filterMap Token.closing?) :
    List.Forall₂ (fun a b => a.even = b.even ∧ a.closing? = b.closing?) as bs := by
  have halike := forall₂_of_map_eq h
  clear h
  induction halike with
  | nil => exact .nil
  | @cons a b as bs heven _ ih =>
    have hsome : a.closing?.isSome = b.closing?.isSome := by
      rw [← isSome_closing?_even, heven, isSome_closing?_even]
    cases ha : a.closing? with
    | none =>
      have hb : b.closing? = none := by rwa [ha, Eq.comm, Option.isSome_none,
        Option.isSome_eq_false_iff, Option.isNone_iff_eq_none] at hsome
      rw [List.filterMap_cons_none ha, List.filterMap_cons_none hb] at hclosings
      exact .cons ⟨heven, by rw [ha, hb]⟩ (ih hclosings)
    | some name =>
      rw [ha] at hsome
      obtain ⟨name', hb⟩ := Option.isSome_iff_exists.1 hsome.symm
      rw [List.filterMap_cons_some ha, List.filterMap_cons_some hb] at hclosings
      obtain ⟨rfl, hrest⟩ := List.cons.inj hclosings
      exact .cons ⟨heven, by rw [ha, hb]⟩ (ih hrest)

/-! ## sources -/

theorem Template.sameResult_ofReading (options : TemplateOptions) {r r' : Reading} (length : Nat)
    (h : r.even = r'.even) (hclosings : r.closings = r'.closings) :
    SameResult (Template.ofReading options r length) (Template.ofReading options r' length) := by
  have herror : r.error? = r'.error? := (congrArg Reading.error? h :)
  have htokens : r.tokens.map Token.even = r'.tokens.map Token.even := congrArg Reading.tokens h
  rw [Template.ofReading, Template.ofReading, herror]
  exact (SameResult.foldlM (fun s _ _ hab => Construction.sameResult_step options s hab.1 hab.2)
    (forall₂_of_closings_eq htokens hclosings) {}).bind fun _ => .refl _

/-- Sources that differ only in the blanks inside mustaches, outside of strings and comments. -/
def IsRespacing (source source' : String) : Prop :=
  evenSource .outside source.toList = evenSource .outside source'.toList

instance (source source' : String) : Decidable (IsRespacing source source') :=
  inferInstanceAs (Decidable (_ = _))

/-- Respacing changes blanks only. -/
theorem IsRespacing.alike {source source' : String} (h : IsRespacing source source') :
    Alike source.toList source'.toList := by
  have halike := alike_evenSource .outside source.toList
  rw [h] at halike
  exact halike.symm.trans (alike_evenSource .outside source'.toList)

/-- A source is respaced by writing all those blanks as spaces. -/
theorem isRespacing_evenSource (source : String) :
    IsRespacing (String.ofList (evenSource .outside source.toList)) source := by
  rw [IsRespacing, String.toList_ofList, evenSource_evenSource]

/-- A respaced source reads as the same tokens, up to the blanks inside of mustaches.  If the
names in the block closings are the same, it holds the same template, or has the same fault. -/
theorem ofSource_of_isRespacing {source source' : String} (h : IsRespacing source source') :
    (Reading.ofSource .template source).even = (Reading.ofSource .template source').even ∧
      ((Reading.ofSource .template source).closings =
          (Reading.ofSource .template source').closings →
        ∀ options, (Template.ofSource options source).mapError ParseError.even =
          (Template.ofSource options source').mapError ParseError.even) := by
  have hreading : (Reading.ofSource .template source).even =
      (Reading.ofSource .template source').even := by
    rw [← Reading.ofSource_evenSource, ← Reading.ofSource_evenSource, h]
  refine ⟨hreading, fun hclosings options => ?_⟩
  rw [Template.ofSource, Template.ofSource, h.alike.byteLength_eq]
  exact Template.sameResult_ofReading options _ hreading hclosings

/-- A loop with tabs and line ends for its blanks; the string keeps its own. -/
theorem ofSource_of_isRespacing_loop :
    let source := "\x7b\x7b#each items as |x| \x7d\x7d" ++
      "<p title=\x7b\x7bx \x7d\x7d \x7b\x7bon 'a b' key=x \x7d\x7d></p>" ++
      "\x7b\x7b else \x7d\x7d\x7b\x7b/ each \x7d\x7d"
    let source' := "\x7b\x7b#each\titems\nas\t|x|\t\x7d\x7d" ++
      "<p title=\x7b\x7bx\n\x7d\x7d \x7b\x7bon\r'a b'\nkey=x\t\x7d\x7d></p>" ++
      "\x7b\x7b\telse\t\x7d\x7d\x7b\x7b/\neach\n\x7d\x7d"
    (Template.ofSource {} source).isOk ∧ IsRespacing source source' ∧
      (Reading.ofSource .template source).closings =
        (Reading.ofSource .template source').closings ∧
      (Reading.ofSource .template source).even = (Reading.ofSource .template source').even ∧
      (Template.ofSource {} source).mapError ParseError.even =
        (Template.ofSource {} source').mapError ParseError.even := by
  intro source source'
  have hrespacing : IsRespacing source source' := by decide +kernel
  have hclosings : (Reading.ofSource .template source).closings =
      (Reading.ofSource .template source').closings := by decide +kernel
  obtain ⟨hreading, htemplate⟩ := ofSource_of_isRespacing hrespacing
  exact ⟨by decide +kernel, hrespacing, hclosings, hreading, htemplate hclosings {}⟩

/-- The name in a block closing is compared as it is: `a b` with a tab does not close the block
of the string `a b`. -/
theorem not_isOk_of_isRespacing :
    ¬∀ source source' : String, IsRespacing source source' →
      (Template.ofSource {} source).isOk = (Template.ofSource {} source').isOk := by
  intro h
  have hrespacing : IsRespacing "\x7b\x7b#'a b'\x7d\x7d\x7b\x7b/a b\x7d\x7d"
      "\x7b\x7b#'a b'\x7d\x7d\x7b\x7b/a\tb\x7d\x7d" := by decide +kernel
  exact absurd (h _ _ hrespacing) (by decide +kernel)

end LiveTemplate
