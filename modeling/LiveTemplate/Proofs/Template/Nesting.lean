import LiveTemplate.Proofs.Template.Attributes
import LiveTemplate.Proofs.Text.Trimming
import LiveTemplate.Template.Parser

/-!
# LiveTemplate.Proofs.Template.Nesting

Which tokens are a template.

The grammar of well-nested tokens (`Content`) knows of no frames.  What has been read
while something is open is well-nested up to the tokens that have opened it
(`Pending`), and every step keeps this; so tokens that are accepted are well-nested.
The other way round, well-nested tokens leave the frames as they were
(`Content.exists_run`), if each of them converts.
-/

namespace LiveTemplate

/-! ## tags -/

/-- Names are the same up to the case of ASCII letters. -/
def SameName (a b : String) : Prop := a.toList.map Char.toLower = b.toList.map Char.toLower

instance (a b : String) : Decidable (SameName a b) := inferInstanceAs (Decidable (_ = _))

theorem sameTag_iff {a b : String} : sameTag a b = true ↔ SameName a b := by
  rw [sameTag, beq_iff_eq, asciiLowercase, asciiLowercase, String.ofList_inj, SameName]

/-- Whether a tag names an element without content, in letters of either case. -/
def IsVoid (tag : String) : Prop :=
  ∃ void ∈ ["area", "base", "br", "col", "command", "embed", "hr", "img", "input", "keygen", "link",
    "meta", "param", "source", "track", "wbr"], SameName void tag

theorem isVoidTag_iff {tag : String} : isVoidTag tag = true ↔ IsVoid tag := by
  have hsmall : ∀ void ∈ voidTags, void.toList.map Char.toLower = void.toList := by decide
  rw [isVoidTag, List.contains_iff_mem]
  show _ ↔ ∃ void ∈ voidTags, SameName void tag
  constructor
  · intro h
    refine ⟨_, h, ?_⟩
    rw [SameName, hsmall _ h, asciiLowercase, String.toList_ofList]
  · rintro ⟨void, hvoid, hsame⟩
    rw [SameName, hsmall void hvoid] at hsame
    rwa [asciiLowercase, ← hsame, String.ofList_toList]

instance (tag : String) : Decidable (IsVoid tag) := decidable_of_iff _ isVoidTag_iff

/-- Whether a tag invokes a component: it has a dash, and SVG and MathML have not claimed it. -/
structure StartTag.IsComponent (tag : StartTag) (options : TemplateOptions) : Prop where
  components : options.components = true
  dash : '-' ∈ tag.name.toList
  not_reserved : tag.name ∉ ["annotation-xml", "color-profile", "font-face", "font-face-src",
    "font-face-uri", "font-face-format", "font-face-name", "missing-glyph"]

theorem StartTag.isComponent_iff {tag : StartTag} {options : TemplateOptions} :
    (options.components && isComponentTag tag.name) = true ↔ tag.IsComponent options := by
  rw [isComponentTag, Bool.and_eq_true, Bool.and_eq_true, Bool.not_eq_true', List.contains_iff_mem,
    ← Bool.not_eq_true, List.contains_iff_mem]
  exact ⟨fun ⟨h, hdash, hnot⟩ => ⟨h, hdash, hnot⟩, fun ⟨h, hdash, hnot⟩ => ⟨h, hdash, hnot⟩⟩

/-- Whether a tag opens nothing. -/
def StartTag.IsSingle (tag : StartTag) : Prop := tag.selfClosing = true ∨ IsVoid tag.name

theorem StartTag.isSingle_iff {tag : StartTag} :
    (tag.selfClosing || isVoidTag tag.name) = true ↔ tag.IsSingle := by
  rw [Bool.or_eq_true, isVoidTag_iff, IsSingle]

instance (tag : StartTag) : Decidable tag.IsSingle := decidable_of_iff _ StartTag.isSingle_iff

/-! ## what a token can do -/

/-- The element of a tag, below a place that hands down `ns`. -/
def StartTag.element (tag : StartTag) (ns : Namespace) (attributes : List Attribute)
    (modifiers : List Call) : ElementTag where
  name := tag.name
  ns := .ofElement tag.name ns
  attributes := attributes
  modifiers := modifiers
  selfClosing := tag.selfClosing || isVoidTag tag.name

/-- Components have a dash in their names, and void elements have none. -/
theorem StartTag.IsComponent.not_isSingle {tag : StartTag} {options : TemplateOptions}
    (h : tag.IsComponent options) (hsingle : tag.selfClosing = false) : ¬tag.IsSingle := by
  have hdash : '-' ∈ tag.name.toList.map Char.toLower := List.mem_map.2 ⟨'-', h.dash, rfl⟩
  have hvoid : ∀ void ∈ voidTags, '-' ∉ void.toList.map Char.toLower := by decide
  rintro (hclosing | ⟨void, hmem, hsame⟩)
  · rw [hsingle] at hclosing
    cases hclosing
  · exact hvoid void hmem (hsame ▸ hdash)

namespace Construction

theorem frames_pushText (s : Construction) (text : String) (span : Span) :
    (s.pushText text span).frames = s.frames := by
  rw [pushText]
  split <;> rfl

/-- What a token can do to a template under construction. -/
inductive Steps (options : TemplateOptions) (s : Construction) : Token → Construction → Prop where
  | text (text : String) (span : Span) : Steps options s (.text text span) (s.pushText text span)
  | comment (text : String) (span : Span) :
    Steps options s (.comment text span)
      (if options.keepComments then s.push (.comment text span) else s)
  | component {tag : StartTag} {attributes : List Attribute} (hcomponent : tag.IsComponent options)
    (hattributes : tag.attributes.mapM Attribute.ofRaw = .ok attributes)
    (hmodifiers : withoutComments tag.modifiers = []) (hsingle : tag.selfClosing = true) :
    Steps options s (.startTag tag) (s.push (.component ⟨tag.name, attributes⟩ {} tag.span))
  | openComponent {tag : StartTag} {attributes : List Attribute}
    (hcomponent : tag.IsComponent options)
    (hattributes : tag.attributes.mapM Attribute.ofRaw = .ok attributes)
    (hmodifiers : withoutComments tag.modifiers = []) (hsingle : tag.selfClosing = false) :
    Steps options s (.startTag tag) (s.enter (.component ⟨tag.name, attributes⟩ tag.span) s.ns)
  | element {tag : StartTag} {attributes : List Attribute} {modifiers : List Call}
    (hcomponent : ¬tag.IsComponent options)
    (hattributes : tag.attributes.mapM Attribute.ofRaw = .ok attributes)
    (hmodifiers : (withoutComments tag.modifiers).mapM Mustache.modifier = .ok modifiers)
    (hsingle : tag.IsSingle) :
    Steps options s (.startTag tag)
      (s.push (.element (tag.element s.ns attributes modifiers) [] tag.span))
  | openElement {tag : StartTag} {attributes : List Attribute} {modifiers : List Call}
    (hcomponent : ¬tag.IsComponent options)
    (hattributes : tag.attributes.mapM Attribute.ofRaw = .ok attributes)
    (hmodifiers : (withoutComments tag.modifiers).mapM Mustache.modifier = .ok modifiers)
    (hsingle : ¬tag.IsSingle) :
    Steps options s (.startTag tag)
      (s.enter (.element (tag.element s.ns attributes modifiers) tag.span)
        ((Namespace.ofElement tag.name s.ns).below tag.name))
  | closeElement {tag : ElementTag} {start : Span} {before : List Node} {ns : Namespace}
    {frames : List Frame} {name : String} (span : Span) (hvoid : ¬IsVoid name)
    (hframes : s.frames = ⟨.element tag start, before, ns⟩ :: frames)
    (hsame : SameName tag.name name) :
    Steps options s (.endTag name span)
      (leave ⟨.element tag start, before, ns⟩ frames (.element tag s.children ⟨start.lo, span.hi⟩))
  | closeComponent {tag : ComponentTag} {start : Span} {before : List Node} {ns : Namespace}
    {frames : List Frame} {name : String} (span : Span) (hvoid : ¬IsVoid name)
    (hframes : s.frames = ⟨.component tag start, before, ns⟩ :: frames)
    (hsame : SameName tag.name name) :
    Steps options s (.endTag name span)
      (leave ⟨.component tag start, before, ns⟩ frames
        (.component tag { children := s.children, span := ⟨start.hi, span.lo⟩ }
          ⟨start.lo, span.hi⟩))
  | ignore {m : Mustache} (hkind : m.kind = .comment) : Steps options s (.mustache m) s
  | insertion {m : Mustache} {i : Insertion} (hkind : m.kind = .escaped ∨ m.kind = .unescaped)
    (hi : m.insertion = .ok i) : Steps options s (.mustache m) (s.push (.insertion i))
  | openBlock {m : Mustache} {e : Expression} (hkind : m.kind = .opening)
    (he : Expression.ofContent m.content m.span = .ok e) :
    Steps options s (.mustache m) (s.enter (.block e.call e.blockParams none m.span.lo) s.ns)
  | otherwise {m : Mustache} {call : Call} {blockParams : List String} {lo : Nat}
    {before : List Node} {ns : Namespace} {frames : List Frame} (hkind : m.kind = .otherwise)
    (hframes : s.frames = ⟨.block call blockParams none lo, before, ns⟩ :: frames)
    (hbare : (trimString m.content).isEmpty = true) :
    Steps options s (.mustache m)
      { s with
        nodes := []
        frames := ⟨.block call blockParams
          (some { children := s.children, blockParams, span := ⟨lo, m.span.lo⟩ }) lo, before, ns⟩ ::
            frames }
  | closeBlock {m : Mustache} {call : Call} {blockParams : List String} {body : Option Template}
    {lo : Nat} {before : List Node} {ns : Namespace} {frames : List Frame}
    (hkind : m.kind = .closing)
    (hframes : s.frames = ⟨.block call blockParams body lo, before, ns⟩ :: frames)
    (hpath : call.path = trimString m.content) :
    Steps options s (.mustache m)
      (leave ⟨.block call blockParams body lo, before, ns⟩ frames
        (block call blockParams body s.children ⟨lo, m.span.lo⟩ ⟨lo, m.span.hi⟩))

variable {options : TemplateOptions} {s s' : Construction}

theorem Steps.of_startTag {tag : StartTag} (h : s.startTag options tag = .ok s') :
    Steps options s (.startTag tag) s' := by
  obtain ⟨attributes, hattributes, h⟩ := exists_of_bind_eq_ok h
  split at h
  · next hcomponent =>
    rw [StartTag.isComponent_iff] at hcomponent
    rw [startComponent] at h
    split at h
    · cases h
    · next hmodifiers =>
      cases hsingle : tag.selfClosing with
      | true =>
        rw [hsingle] at h
        cases h
        exact .component hcomponent hattributes hmodifiers hsingle
      | false =>
        rw [hsingle] at h
        cases h
        exact .openComponent hcomponent hattributes hmodifiers hsingle
  · next hcomponent =>
    rw [StartTag.isComponent_iff] at hcomponent
    obtain ⟨modifiers, hmodifiers, h⟩ := exists_of_bind_eq_ok h
    by_cases hsingle : tag.IsSingle
    · have hs := (congrArg Except.ok (if_pos (StartTag.isSingle_iff.2 hsingle))).symm.trans h
      cases hs
      exact .element hcomponent hattributes hmodifiers hsingle
    · have hs :=
        (congrArg Except.ok (if_neg (mt StartTag.isSingle_iff.1 hsingle))).symm.trans h
      cases hs
      exact .openElement hcomponent hattributes hmodifiers hsingle

theorem Steps.of_endTag {name : String} {span : Span} (h : s.endTag name span = .ok s') :
    Steps options s (.endTag name span) s' := by
  rw [endTag] at h
  split at h
  · cases h
  · next hvoid =>
    rw [isVoidTag_iff] at hvoid
    split at h
    · cases h
    · next frame frames hframes =>
      obtain ⟨opening, before, ns⟩ := frame
      cases opening with
      | element tag start =>
        simp only at h
        split at h
        · next hsame =>
          cases h
          exact .closeElement span hvoid hframes (sameTag_iff.1 hsame)
        · cases h
      | component tag start =>
        simp only at h
        split at h
        · next hsame =>
          cases h
          exact .closeComponent span hvoid hframes (sameTag_iff.1 hsame)
        · cases h
      | block call blockParams body lo => cases h

theorem Steps.of_mustache {m : Mustache} (h : s.step options (.mustache m) = .ok s') :
    Steps options s (.mustache m) s' := by
  rw [step] at h
  split at h
  · next hkind =>
    cases h
    exact .ignore hkind
  · next hkind =>
    obtain ⟨i, hi, h⟩ := exists_of_bind_eq_ok h
    cases h
    exact .insertion (.inl hkind) hi
  · next hkind =>
    obtain ⟨i, hi, h⟩ := exists_of_bind_eq_ok h
    cases h
    exact .insertion (.inr hkind) hi
  · next hkind =>
    obtain ⟨e, he, h⟩ := exists_of_bind_eq_ok h
    cases h
    exact .openBlock hkind he
  · next hkind =>
    rw [Construction.otherwise] at h
    split at h
    · next call blockParams lo before ns frames hframes =>
      simp only at h
      split at h
      · next hbare =>
        cases h
        exact .otherwise hkind hframes hbare
      · cases h
    · cases h
  · next hkind =>
    rw [Construction.closeBlock] at h
    split at h
    · cases h
    · next frame frames hframes =>
      obtain ⟨opening, before, ns⟩ := frame
      cases opening with
      | block call blockParams body lo =>
        simp only at h
        split at h
        · next hpath =>
          cases h
          exact .closeBlock hkind hframes hpath
        · cases h
      | element tag start => cases h
      | component tag start => cases h

/-- The tokens that are accepted are those that can do something. -/
theorem step_eq_ok_iff {token : Token} :
    s.step options token = .ok s' ↔ Steps options s token s' := by
  refine ⟨fun h => ?_, fun h => ?_⟩
  · cases token with
    | text text span =>
      cases h
      exact .text text span
    | comment text span =>
      cases h
      exact .comment text span
    | startTag tag => exact .of_startTag h
    | endTag name span => exact .of_endTag h
    | mustache m => exact .of_mustache h
  · cases h with
    | text text span => rfl
    | comment text span => rfl
    | component hcomponent hattributes hmodifiers hsingle =>
      rw [step, startTag, hattributes]
      refine (if_pos (StartTag.isComponent_iff.2 hcomponent)).trans ?_
      rw [startComponent, hmodifiers, hsingle]
      rfl
    | openComponent hcomponent hattributes hmodifiers hsingle =>
      rw [step, startTag, hattributes]
      refine (if_pos (StartTag.isComponent_iff.2 hcomponent)).trans ?_
      rw [startComponent, hmodifiers, hsingle]
      rfl
    | element hcomponent hattributes hmodifiers hsingle =>
      rw [step, startTag, hattributes]
      refine (if_neg (mt StartTag.isComponent_iff.1 hcomponent)).trans ?_
      rw [startElement, hmodifiers]
      exact congrArg Except.ok (if_pos (StartTag.isSingle_iff.2 hsingle))
    | openElement hcomponent hattributes hmodifiers hsingle =>
      rw [step, startTag, hattributes]
      refine (if_neg (mt StartTag.isComponent_iff.1 hcomponent)).trans ?_
      rw [startElement, hmodifiers]
      exact congrArg Except.ok (if_neg (mt StartTag.isSingle_iff.1 hsingle))
    | closeElement span hvoid hframes hsame =>
      simp only [step, endTag, isVoidTag_iff, hvoid, hframes, sameTag_iff, hsame, if_true, if_false]
    | closeComponent span hvoid hframes hsame =>
      simp only [step, endTag, isVoidTag_iff, hvoid, hframes, sameTag_iff, hsame, if_true, if_false]
    | ignore hkind => simp only [step, hkind]
    | insertion hkind hi =>
      rcases hkind with hkind | hkind
      · simp only [step, hkind, insert, hi]
        rfl
      · simp only [step, hkind, insert, hi]
        rfl
    | openBlock hkind he =>
      simp only [step, hkind, Construction.openBlock, he]
      rfl
    | otherwise hkind hframes hbare =>
      simp only [step, hkind, Construction.otherwise, hframes, hbare, if_true]
    | closeBlock hkind hframes hpath =>
      simp only [step, hkind, Construction.closeBlock, hframes, hpath, if_true]

end Construction

/-! ## the grammar -/

/-- Whether an opening can be understood, and calls `path`. -/
structure Mustache.Opens (m : Mustache) (path : String) : Prop where
  kind : m.kind = .opening
  call : ∃ e, Expression.ofContent m.content m.span = .ok e ∧ e.call.path = path

/-- Whether a mustache is an `else` with nothing behind it. -/
structure Mustache.IsBareElse (m : Mustache) : Prop where
  kind : m.kind = .otherwise
  bare : ∀ c ∈ m.content.toList, isWhiteSpace c = true

/-- Whether a mustache closes a block that calls `path`. -/
structure Mustache.Closes (m : Mustache) (path : String) : Prop where
  kind : m.kind = .closing
  trims : Trims m.content.toList path.toList

theorem Mustache.Closes.trimString_eq {m : Mustache} {path : String} (h : m.Closes path) :
    trimString m.content = path :=
  trimString_eq_iff.2 h.trims

/-- Whether a token stands on its own. -/
def Token.IsSingle : Token → Prop
  | .text .. | .comment .. => True
  | .startTag tag => tag.IsSingle
  | .endTag .. => False
  | .mustache m => m.kind = .escaped ∨ m.kind = .unescaped ∨ m.kind = .comment

/-- Well-nested tokens. -/
inductive Content : List Token → Prop where
  | nil : Content []
  | single {token : Token} {rest : List Token} (hsingle : token.IsSingle) (hrest : Content rest) :
    Content (token :: rest)
  | tags {tag : StartTag} {name : String} {span : Span} {inside rest : List Token}
    (hopen : ¬tag.IsSingle) (hsame : SameName tag.name name) (hvoid : ¬IsVoid name)
    (hinside : Content inside) (hrest : Content rest) :
    Content (.startTag tag :: inside ++ .endTag name span :: rest)
  | block {opening closing : Mustache} {path : String} {inside rest : List Token}
    (hopens : opening.Opens path) (hcloses : closing.Closes path) (hinside : Content inside)
    (hrest : Content rest) :
    Content (.mustache opening :: inside ++ .mustache closing :: rest)
  | inverse {opening otherwise closing : Mustache} {path : String} {inside behind rest : List Token}
    (hopens : opening.Opens path) (helse : otherwise.IsBareElse) (hcloses : closing.Closes path)
    (hinside : Content inside) (hbehind : Content behind) (hrest : Content rest) :
    Content (.mustache opening :: inside ++ .mustache otherwise :: behind ++
      .mustache closing :: rest)

theorem Content.append {tokens tokens' : List Token} (h : Content tokens) (h' : Content tokens') :
    Content (tokens ++ tokens') := by
  induction h with
  | nil => exact h'
  | single hsingle _ ih => exact .single hsingle ih
  | tags hopen hsame hvoid hinside _ _ ih =>
    rw [List.append_assoc]
    exact .tags hopen hsame hvoid hinside ih
  | block hopens hcloses hinside _ _ ih =>
    rw [List.append_assoc]
    exact .block hopens hcloses hinside ih
  | inverse hopens helse hcloses hinside hbehind _ _ _ ih =>
    rw [List.append_assoc]
    exact .inverse hopens helse hcloses hinside hbehind ih

/-- The tag of an element or a component. -/
def Opening.tagName? : Opening → Option String
  | .element tag _ => some tag.name
  | .component tag _ => some tag.name
  | .block .. => none

/-- What has been read while something is open: for each frame well-nested tokens, then the token
that opened it and where it begins, and well-nested tokens in the end. -/
inductive Pending : List Frame → List Token → Prop where
  | nil {tokens : List Token} (hcontent : Content tokens) : Pending [] tokens
  | tag {opening : Opening} {before : List Node} {ns : Namespace} {frames : List Frame}
    {tag : StartTag} {tokens inside : List Token} (hname : opening.tagName? = some tag.name)
    (hlo : opening.lo = tag.span.lo) (hopen : ¬tag.IsSingle) (hbefore : Pending frames tokens)
    (hinside : Content inside) :
    Pending (⟨opening, before, ns⟩ :: frames) (tokens ++ .startTag tag :: inside)
  | block {call : Call} {blockParams : List String} {lo : Nat} {before : List Node} {ns : Namespace}
    {frames : List Frame} {m : Mustache} {tokens inside : List Token} (hopens : m.Opens call.path)
    (hlo : lo = m.span.lo) (hbefore : Pending frames tokens) (hinside : Content inside) :
    Pending (⟨.block call blockParams none lo, before, ns⟩ :: frames)
      (tokens ++ .mustache m :: inside)
  | inverse {call : Call} {blockParams : List String} {body : Template} {lo : Nat}
    {before : List Node} {ns : Namespace} {frames : List Frame} {m otherwise : Mustache}
    {tokens inside behind : List Token} (hopens : m.Opens call.path) (hlo : lo = m.span.lo)
    (helse : otherwise.IsBareElse) (hbefore : Pending frames tokens) (hinside : Content inside)
    (hbehind : Content behind) :
    Pending (⟨.block call blockParams (some body) lo, before, ns⟩ :: frames)
      (tokens ++ .mustache m :: inside ++ .mustache otherwise :: behind)

/-- Well-nested tokens can be read at any time. -/
theorem Pending.append {frames : List Frame} {tokens tokens' : List Token}
    (h : Pending frames tokens) (h' : Content tokens') : Pending frames (tokens ++ tokens') := by
  cases h with
  | nil hcontent => exact .nil (hcontent.append h')
  | tag hname hlo hopen hbefore hinside =>
    rw [List.append_assoc]
    exact .tag hname hlo hopen hbefore (hinside.append h')
  | block hopens hlo hbefore hinside =>
    rw [List.append_assoc]
    exact .block hopens hlo hbefore (hinside.append h')
  | inverse hopens hlo helse hbefore hinside hbehind =>
    rw [List.append_assoc]
    exact .inverse hopens hlo helse hbefore hinside (hbehind.append h')

/-- The end tag of what is open ends it. -/
theorem Pending.endTag {opening : Opening} {before : List Node} {ns : Namespace}
    {frames : List Frame} {tokens : List Token}
    (h : Pending (⟨opening, before, ns⟩ :: frames) tokens) {tagName name : String}
    (hname : opening.tagName? = some tagName) (hsame : SameName tagName name)
    (hvoid : ¬IsVoid name) (span : Span) :
    Pending frames (tokens ++ [.endTag name span]) := by
  cases h with
  | tag hname' hlo hopen hbefore hinside =>
    obtain rfl := Option.some.inj (hname.symm.trans hname')
    rw [List.append_assoc]
    exact hbefore.append (.tags hopen hsame hvoid hinside .nil)
  | block => cases hname
  | inverse => cases hname

/-- A step keeps what has been read well-nested. -/
theorem Construction.Steps.pending {options : TemplateOptions} {s s' : Construction} {token : Token}
    (h : Steps options s token s') {tokens : List Token} (hpending : Pending s.frames tokens) :
    Pending s'.frames (tokens ++ [token]) := by
  cases h with
  | text text span =>
    rw [frames_pushText]
    exact hpending.append (.single trivial .nil)
  | comment text span =>
    have hframes : (if options.keepComments then s.push (.comment text span) else s).frames =
        s.frames := by
      split <;> rfl
    rw [hframes]
    exact hpending.append (.single trivial .nil)
  | component hcomponent hattributes hmodifiers hsingle =>
    exact hpending.append (.single (.inl hsingle) .nil)
  | openComponent hcomponent hattributes hmodifiers hsingle =>
    exact .tag rfl rfl (hcomponent.not_isSingle hsingle) hpending .nil
  | element hcomponent hattributes hmodifiers hsingle =>
    exact hpending.append (.single hsingle .nil)
  | openElement hcomponent hattributes hmodifiers hsingle =>
    exact .tag rfl rfl hsingle hpending .nil
  | closeElement span hvoid hframes hsame =>
    rw [hframes] at hpending
    exact hpending.endTag rfl hsame hvoid span
  | closeComponent span hvoid hframes hsame =>
    rw [hframes] at hpending
    exact hpending.endTag rfl hsame hvoid span
  | ignore hkind => exact hpending.append (.single (.inr (.inr hkind)) .nil)
  | insertion hkind hi => exact hpending.append (.single (hkind.imp_right .inl) .nil)
  | openBlock hkind he => exact .block ⟨hkind, _, he, rfl⟩ rfl hpending .nil
  | otherwise hkind hframes hbare =>
    rw [hframes] at hpending
    cases hpending with
    | tag hname => cases hname
    | block hopens hlo hbefore hinside =>
      exact .inverse hopens hlo ⟨hkind, isEmpty_trimString_iff.1 hbare⟩ hbefore hinside .nil
  | closeBlock hkind hframes hpath =>
    have htrims := trimString_eq_iff.1 hpath.symm
    rw [hframes] at hpending
    cases hpending with
    | tag hname => cases hname
    | block hopens hlo hbefore hinside =>
      rw [List.append_assoc]
      exact hbefore.append (.block hopens ⟨hkind, htrims⟩ hinside .nil)
    -- What stands before and behind `else` becomes one block, which ends what was read before it.
    | inverse hopens hlo helse hbefore hinside hbehind =>
      rw [List.append_assoc, List.append_assoc]
      have hwhole := Content.inverse hopens helse ⟨hkind, htrims⟩ hinside hbehind .nil
      rw [List.append_assoc] at hwhole
      exact hbefore.append hwhole

/-! ## conversion -/

/-- Whether the attributes, the modifiers and the mustache of a token can be understood.  A
component has no modifiers; comments do not count. -/
def Token.Converts (options : TemplateOptions) : Token → Prop
  | .startTag tag =>
    (∀ raw ∈ tag.attributes, ∃ a, raw.Holds a) ∧
      ∀ m ∈ tag.modifiers, m.kind ≠ .comment →
        ¬tag.IsComponent options ∧ ∃ call, m.Modifies call
  | .mustache m =>
    ((m.kind = .escaped ∨ m.kind = .unescaped) → ∃ i, m.Inserts i) ∧
      (m.kind = .opening → ∃ e, Expression.ofContent m.content m.span = .ok e)
  | .endTag .. | .text .. | .comment .. => True

/-- Items are converted one by one. -/
theorem mapM_eq_ok_iff {α β ε : Type} {f : α → Except ε β} {xs : List α} {ys : List β} :
    xs.mapM f = .ok ys ↔ List.Forall₂ (fun x y => f x = .ok y) xs ys := by
  induction xs generalizing ys with
  | nil =>
    rw [List.forall₂_nil_left_iff]
    exact ⟨fun h => (Except.ok.inj h).symm, fun h => h ▸ rfl⟩
  | cons x xs ih =>
    rw [List.mapM_cons]
    constructor
    · intro h
      obtain ⟨y, hy, h⟩ := exists_of_bind_eq_ok h
      obtain ⟨ys', hys, h⟩ := exists_of_bind_eq_ok h
      cases h
      exact .cons hy (ih.1 hys)
    · rintro (_ | ⟨hy, hys⟩)
      rw [hy, ih.2 hys]
      rfl

theorem exists_mapM_eq_ok_iff {α β ε : Type} {f : α → Except ε β} {xs : List α} :
    (∃ ys, xs.mapM f = .ok ys) ↔ ∀ x ∈ xs, ∃ y, f x = .ok y := by
  simp only [mapM_eq_ok_iff]
  induction xs with
  | nil => exact ⟨fun _ => by simp, fun _ => ⟨[], .nil⟩⟩
  | cons x xs ih =>
    rw [List.forall_mem_cons, ← ih]
    constructor
    · rintro ⟨_, _ | ⟨hy, hys⟩⟩
      exact ⟨⟨_, hy⟩, _, hys⟩
    · rintro ⟨⟨y, hy⟩, ys, hys⟩
      exact ⟨y :: ys, .cons hy hys⟩

/-- Converted items keep what conversion keeps. -/
theorem map_of_mapM {α β γ ε : Type} {f : α → Except ε β} {g : β → γ} {k : α → γ}
    (hf : ∀ x y, f x = .ok y → g y = k x) {xs : List α} {ys : List β} (h : xs.mapM f = .ok ys) :
    ys.map g = xs.map k := by
  rw [mapM_eq_ok_iff] at h
  induction h with
  | nil => rfl
  | cons hy _ ih => rw [List.map_cons, List.map_cons, hf _ _ hy, ih]

theorem mapM_ofRaw_iff {raws : List RawAttribute} {attributes : List Attribute} :
    raws.mapM Attribute.ofRaw = .ok attributes ↔
      List.Forall₂ RawAttribute.Holds raws attributes := by
  simp only [mapM_eq_ok_iff, Attribute.ofRaw_eq_ok_iff]

theorem mapM_modifier_iff {ms : List Mustache} {calls : List Call} :
    ms.mapM Mustache.modifier = .ok calls ↔ List.Forall₂ Mustache.Modifies ms calls := by
  simp only [mapM_eq_ok_iff, Mustache.modifier_eq_ok_iff]

theorem exists_mapM_ofRaw_iff {raws : List RawAttribute} :
    (∃ attributes, raws.mapM Attribute.ofRaw = .ok attributes) ↔
      ∀ raw ∈ raws, ∃ a, raw.Holds a := by
  simp only [exists_mapM_eq_ok_iff, Attribute.ofRaw_eq_ok_iff]

theorem exists_mapM_modifier_iff {ms : List Mustache} :
    (∃ calls, ms.mapM Mustache.modifier = .ok calls) ↔ ∀ m ∈ ms, ∃ call, m.Modifies call := by
  simp only [exists_mapM_eq_ok_iff, Mustache.modifier_eq_ok_iff]

theorem mem_withoutComments {ms : List Mustache} {m : Mustache} :
    m ∈ withoutComments ms ↔ m ∈ ms ∧ m.kind ≠ .comment := by
  rw [withoutComments, List.mem_filter, bne_iff_ne]

/-- Only tokens that convert can do something. -/
theorem Construction.Steps.converts {options : TemplateOptions} {s s' : Construction}
    {token : Token} (h : Steps options s token s') : token.Converts options := by
  have hnone : ∀ ms : List Mustache, withoutComments ms = [] → ∀ m ∈ ms, ¬m.kind ≠ .comment := by
    intro ms hms m hm hkind
    have hmem := mem_withoutComments.2 ⟨hm, hkind⟩
    rw [hms] at hmem
    cases hmem
  cases h with
  | text | comment | closeElement | closeComponent => trivial
  | component hcomponent hattributes hmodifiers hsingle =>
    exact ⟨exists_mapM_ofRaw_iff.1 ⟨_, hattributes⟩,
      fun m hm hkind => absurd hkind (hnone _ hmodifiers m hm)⟩
  | openComponent hcomponent hattributes hmodifiers hsingle =>
    exact ⟨exists_mapM_ofRaw_iff.1 ⟨_, hattributes⟩,
      fun m hm hkind => absurd hkind (hnone _ hmodifiers m hm)⟩
  | element hcomponent hattributes hmodifiers hsingle =>
    have hall := exists_mapM_modifier_iff.1 ⟨_, hmodifiers⟩
    exact ⟨exists_mapM_ofRaw_iff.1 ⟨_, hattributes⟩,
      fun m hm hkind => ⟨hcomponent, hall m (mem_withoutComments.2 ⟨hm, hkind⟩)⟩⟩
  | openElement hcomponent hattributes hmodifiers hsingle =>
    have hall := exists_mapM_modifier_iff.1 ⟨_, hmodifiers⟩
    exact ⟨exists_mapM_ofRaw_iff.1 ⟨_, hattributes⟩,
      fun m hm hkind => ⟨hcomponent, hall m (mem_withoutComments.2 ⟨hm, hkind⟩)⟩⟩
  | ignore hkind => exact ⟨by simp [hkind], by simp [hkind]⟩
  | insertion hkind hi =>
    refine ⟨fun _ => ⟨_, (Mustache.insertion_eq_ok_iff hkind).1 hi⟩, fun hopening => ?_⟩
    rw [hopening] at hkind
    simp at hkind
  | openBlock hkind he => exact ⟨by simp [hkind], fun _ => ⟨_, he⟩⟩
  | otherwise hkind => exact ⟨by simp [hkind], by simp [hkind]⟩
  | closeBlock hkind => exact ⟨by simp [hkind], by simp [hkind]⟩

/-! ## completeness -/

namespace Construction

variable {options : TemplateOptions}

/-- A tag that converts opens something, if it does not stand on its own. -/
theorem exists_steps_startTag {tag : StartTag} (h : Token.Converts options (.startTag tag))
    (s : Construction) :
    ∃ s', Steps options s (.startTag tag) s' ∧
      (tag.IsSingle → s'.frames = s.frames) ∧
      (¬tag.IsSingle → ∃ opening, opening.tagName? = some tag.name ∧
        s'.frames = ⟨opening, s.nodes, s.ns⟩ :: s.frames) := by
  obtain ⟨hattributes, hmodifiers⟩ := h
  obtain ⟨attributes, hattributes⟩ := exists_mapM_ofRaw_iff.2 hattributes
  by_cases hcomponent : tag.IsComponent options
  · have hnone : withoutComments tag.modifiers = [] := by
      refine List.eq_nil_iff_forall_not_mem.2 fun m hm => ?_
      obtain ⟨hm, hkind⟩ := mem_withoutComments.1 hm
      exact (hmodifiers m hm hkind).1 hcomponent
    cases hsingle : tag.selfClosing with
    | true =>
      have his : tag.IsSingle := .inl hsingle
      exact ⟨_, .component hcomponent hattributes hnone hsingle, fun _ => rfl,
        fun hnot => absurd his hnot⟩
    | false =>
      have hnot := hcomponent.not_isSingle hsingle
      exact ⟨_, .openComponent hcomponent hattributes hnone hsingle, fun his => absurd his hnot,
        fun _ => ⟨_, rfl, rfl⟩⟩
  · obtain ⟨modifiers, hmodifiers⟩ := exists_mapM_modifier_iff.2
      fun m (hm : m ∈ withoutComments tag.modifiers) =>
        (hmodifiers m (mem_withoutComments.1 hm).1 (mem_withoutComments.1 hm).2).2
    by_cases hsingle : tag.IsSingle
    · exact ⟨_, .element hcomponent hattributes hmodifiers hsingle, fun _ => rfl,
        fun hnot => absurd hsingle hnot⟩
    · exact ⟨_, .openElement hcomponent hattributes hmodifiers hsingle,
        fun his => absurd his hsingle, fun _ => ⟨_, rfl, rfl⟩⟩

/-- A token that stands on its own leaves the frames as they were. -/
theorem exists_steps_single {token : Token} (hsingle : token.IsSingle)
    (h : token.Converts options) (s : Construction) :
    ∃ s', Steps options s token s' ∧ s'.frames = s.frames := by
  cases token with
  | text text span => exact ⟨_, .text text span, frames_pushText ..⟩
  | comment text span =>
    refine ⟨_, .comment text span, ?_⟩
    split <;> rfl
  | startTag tag =>
    obtain ⟨s', hstep, hframes, -⟩ := exists_steps_startTag h s
    exact ⟨s', hstep, hframes hsingle⟩
  | endTag name span => exact hsingle.elim
  | mustache m =>
    rcases hsingle with hkind | hkind | hkind
    · obtain ⟨i, hi⟩ := h.1 (.inl hkind)
      exact ⟨_, .insertion (.inl hkind) ((Mustache.insertion_eq_ok_iff (.inl hkind)).2 hi), rfl⟩
    · obtain ⟨i, hi⟩ := h.1 (.inr hkind)
      exact ⟨_, .insertion (.inr hkind) ((Mustache.insertion_eq_ok_iff (.inr hkind)).2 hi), rfl⟩
    · exact ⟨s, .ignore hkind, rfl⟩

/-- An end tag takes away the frame of its start tag. -/
theorem exists_steps_endTag {opening : Opening} {tagName name : String} {before : List Node}
    {ns : Namespace} {frames : List Frame} {s : Construction}
    (hname : opening.tagName? = some tagName)
    (hframes : s.frames = ⟨opening, before, ns⟩ :: frames) (hsame : SameName tagName name)
    (hvoid : ¬IsVoid name) (span : Span) :
    ∃ s', Steps options s (.endTag name span) s' ∧ s'.frames = frames := by
  cases opening with
  | element tag start =>
    cases hname
    exact ⟨_, .closeElement span hvoid hframes hsame, rfl⟩
  | component tag start =>
    cases hname
    exact ⟨_, .closeComponent span hvoid hframes hsame, rfl⟩
  | block call blockParams body lo => cases hname

/-- Reads tokens, one after the other. -/
def run (options : TemplateOptions) (tokens : List Token) (s : Construction) :
    Except ParseError Construction :=
  tokens.foldlM (step options) s

theorem run_cons {token : Token} {tokens : List Token} {s s' s'' : Construction}
    (h : Steps options s token s') (h' : run options tokens s' = .ok s'') :
    run options (token :: tokens) s = .ok s'' := by
  rw [run, List.foldlM_cons, step_eq_ok_iff.2 h]
  exact h'

theorem run_append {tokens tokens' : List Token} {s s' s'' : Construction}
    (h : run options tokens s = .ok s') (h' : run options tokens' s' = .ok s'') :
    run options (tokens ++ tokens') s = .ok s'' := by
  rw [run] at h
  rw [run, List.foldlM_append, h]
  exact h'

theorem exists_of_run_cons {token : Token} {tokens : List Token} {s s'' : Construction}
    (h : run options (token :: tokens) s = .ok s'') :
    ∃ s', Steps options s token s' ∧ run options tokens s' = .ok s'' := by
  rw [run, List.foldlM_cons] at h
  obtain ⟨s', hstep, h⟩ := exists_of_bind_eq_ok h
  exact ⟨s', step_eq_ok_iff.1 hstep, h⟩

/-- What has been read is well-nested, and each of its tokens converts. -/
theorem pending_of_run {tokens tokens' : List Token} {s s' : Construction}
    (h : run options tokens s = .ok s') (hpending : Pending s.frames tokens') :
    (∀ token ∈ tokens, token.Converts options) ∧ Pending s'.frames (tokens' ++ tokens) := by
  induction tokens generalizing s tokens' with
  | nil =>
    cases h
    rw [List.append_nil]
    exact ⟨by simp, hpending⟩
  | cons token tokens ih =>
    obtain ⟨s₁, hstep, h⟩ := exists_of_run_cons h
    obtain ⟨hconverts, hread⟩ := ih h (hstep.pending hpending)
    rw [List.append_assoc] at hread
    exact ⟨List.forall_mem_cons.2 ⟨hstep.converts, hconverts⟩, hread⟩

end Construction

/-- Well-nested tokens that convert can be read at any time, and leave the frames as they were. -/
theorem Content.exists_run {options : TemplateOptions} {tokens : List Token} (h : Content tokens)
    (hconverts : ∀ token ∈ tokens, token.Converts options) (s : Construction) :
    ∃ s', Construction.run options tokens s = .ok s' ∧ s'.frames = s.frames := by
  induction h generalizing s with
  | nil => exact ⟨s, rfl, rfl⟩
  | single hsingle hrest ih =>
    rw [List.forall_mem_cons] at hconverts
    obtain ⟨s₁, hstep, hframes⟩ := Construction.exists_steps_single hsingle hconverts.1 s
    obtain ⟨s₂, hrun, hframes'⟩ := ih hconverts.2 s₁
    exact ⟨s₂, Construction.run_cons hstep hrun, hframes'.trans hframes⟩
  -- The inside is read with the tag open, so the frame on top is still its own at the end tag.
  | @tags tag name span inside rest hopen hsame hvoid hinside hrest ihinside ihrest =>
    simp only [List.cons_append, List.forall_mem_cons, List.forall_mem_append] at hconverts
    obtain ⟨htag, hconverts, -, hconverts'⟩ := hconverts
    obtain ⟨s₁, hstep, -, hopens⟩ := Construction.exists_steps_startTag htag s
    obtain ⟨opening, hname, hframes⟩ := hopens hopen
    obtain ⟨s₂, hrun, hframes₂⟩ := ihinside hconverts s₁
    obtain ⟨s₃, hstep', hframes₃⟩ := Construction.exists_steps_endTag hname
      (hframes₂.trans hframes) hsame hvoid span
    obtain ⟨s₄, hrun', hframes₄⟩ := ihrest hconverts' s₃
    exact ⟨s₄, Construction.run_cons hstep (Construction.run_append hrun
      (Construction.run_cons hstep' hrun')), hframes₄.trans hframes₃⟩
  | @block opening closing path inside rest hopens hcloses hinside hrest ihinside ihrest =>
    simp only [List.cons_append, List.forall_mem_cons, List.forall_mem_append] at hconverts
    obtain ⟨-, hconverts, -, hconverts'⟩ := hconverts
    obtain ⟨e, he, hpath⟩ := hopens.call
    obtain ⟨s₂, hrun, hframes₂⟩ :=
      ihinside hconverts (s.enter (.block e.call e.blockParams none opening.span.lo) s.ns)
    obtain ⟨s₄, hrun', hframes₄⟩ := ihrest hconverts' _
    have hbody := Construction.run_cons (.openBlock hopens.kind he) hrun
    have hclose := Construction.run_cons
      (.closeBlock hcloses.kind hframes₂ (hpath.trans hcloses.trimString_eq.symm)) hrun'
    exact ⟨s₄, Construction.run_append hbody hclose, hframes₄⟩
  | @inverse opening otherwise closing path inside behind rest hopens helse hcloses hinside hbehind
      hrest ihinside ihbehind ihrest =>
    simp only [List.cons_append, List.forall_mem_cons, List.forall_mem_append] at hconverts
    obtain ⟨-, ⟨hconverts, -, hconverts'⟩, -, hconverts''⟩ := hconverts
    obtain ⟨e, he, hpath⟩ := hopens.call
    obtain ⟨s₂, hrun, hframes₂⟩ :=
      ihinside hconverts (s.enter (.block e.call e.blockParams none opening.span.lo) s.ns)
    obtain ⟨s₄, hrun', hframes₄⟩ := ihbehind hconverts' _
    obtain ⟨s₆, hrun'', hframes₆⟩ := ihrest hconverts'' _
    have hbody := Construction.run_cons (.openBlock hopens.kind he) hrun
    have hbare := isEmpty_trimString_iff.2 helse.bare
    have helse' := Construction.run_cons (.otherwise helse.kind hframes₂ hbare) hrun'
    have hclose := Construction.run_cons
      (.closeBlock hcloses.kind hframes₄ (hpath.trans hcloses.trimString_eq.symm)) hrun''
    exact ⟨s₆, Construction.run_append (Construction.run_append hbody helse') hclose, hframes₆⟩

/-! ## sources -/

theorem Template.exists_ofSource_of_isSome {options : TemplateOptions} {source : String}
    (h : (Template.ofSource options source).toOption.isSome) :
    ∃ t, Template.ofSource options source = .ok t := by
  cases hsource : Template.ofSource options source with
  | ok t => exact ⟨t, rfl⟩
  | error e =>
    rw [hsource] at h
    cases h

/-- The source of a template reads as tokens. -/
theorem Template.tokens?_of_ofSource {options : TemplateOptions} {source : String} {t : Template}
    (h : Template.ofSource options source = .ok t) :
    tokens? .template source = .ok (Reading.ofSource .template source).tokens := by
  rw [Template.ofSource, Template.ofReading] at h
  obtain ⟨s, -, h⟩ := exists_of_bind_eq_ok h
  rw [tokens?]
  split
  · rfl
  · next e he =>
    rw [he] at h
    cases h

/-- A source without a fault in its tokens is a template if they leave nothing open. -/
theorem Template.ofSource_eq_ok_iff {options : TemplateOptions} {source : String}
    {tokens : List Token} (h : tokens? .template source = .ok tokens) {t : Template} :
    Template.ofSource options source = .ok t ↔
      ∃ s, Construction.run options tokens {} = .ok s ∧ s.frames = [] ∧
        t = { children := s.children, span := ⟨0, byteLength source.toList⟩ } := by
  obtain ⟨herror, htokens⟩ : (Reading.ofSource .template source).error? = none ∧
      (Reading.ofSource .template source).tokens = tokens := by
    rw [tokens?] at h
    split at h
    · next herror => exact ⟨herror, Except.ok.inj h⟩
    · cases h
  rw [Template.ofSource, Template.ofReading, htokens, herror]
  constructor
  · intro hparse
    obtain ⟨s, hrun, hfinish⟩ := exists_of_bind_eq_ok hparse
    have hfinish : s.finish (byteLength source.toList) = .ok t := hfinish
    rw [Construction.finish] at hfinish
    split at hfinish
    · next hframes =>
      cases hfinish
      exact ⟨s, hrun, hframes, rfl⟩
    · cases hfinish
  · rintro ⟨s, hrun, hframes, rfl⟩
    rw [Construction.run] at hrun
    rw [hrun]
    show s.finish _ = _
    rw [Construction.finish, hframes]

/-- A source without a fault in its tokens is a template if they convert and are well-nested, and
only then. -/
theorem Template.exists_ofSource_iff {options : TemplateOptions} {source : String}
    {tokens : List Token} (h : tokens? .template source = .ok tokens) :
    (∃ t, Template.ofSource options source = .ok t) ↔
      (∀ token ∈ tokens, token.Converts options) ∧ Content tokens := by
  constructor
  · rintro ⟨t, hparse⟩
    obtain ⟨s, hrun, hframes, -⟩ := (Template.ofSource_eq_ok_iff h).1 hparse
    obtain ⟨hconverts, hpending⟩ := Construction.pending_of_run hrun (.nil .nil)
    rw [hframes] at hpending
    cases hpending with
    | nil hcontent => exact ⟨hconverts, hcontent⟩
  · rintro ⟨hconverts, hcontent⟩
    obtain ⟨s, hrun, hframes⟩ := hcontent.exists_run hconverts {}
    exact ⟨_, (Template.ofSource_eq_ok_iff h).2 ⟨s, hrun, hframes, rfl⟩⟩

end LiveTemplate
