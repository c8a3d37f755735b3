import LiveTemplate.Program.Builtin
import LiveTemplate.Proofs.Markup.Legible
import LiveTemplate.Proofs.Template.Keeping

/-!
# LiveTemplate.Proofs.Template.Escaped

Templates that show values as text only.

A source without triple braces and without mustaches between attributes
(`Token.IsEscaped`) gives a template in which values are shown as text or as values of
attributes, and in which all names are names (`Template.safeAll`).  Every token keeps this of
the nodes that are there and of what is open (`kept_isSafe`).
-/

namespace LiveTemplate

/-- A token that neither shows a value as HTML nor hands an element to a helper. -/
def Token.IsEscaped : Token → Prop
  | .mustache m => m.kind ≠ .unescaped
  | .startTag tag => withoutComments tag.modifiers = []
  | .text .. | .comment .. | .endTag .. => True

instance (token : Token) : Decidable token.IsEscaped :=
  match token with
  | .mustache m => inferInstanceAs (Decidable (m.kind ≠ .unescaped))
  | .startTag tag => inferInstanceAs (Decidable (withoutComments tag.modifiers = []))
  | .text .. | .comment .. | .endTag .. => .isTrue trivial

/-! ## safe nodes -/

/-- The names in the tag of an element are names, and it has no modifiers. -/
structure ElementTag.IsSafe (tag : ElementTag) : Prop where
  modifiers : tag.modifiers = []
  name : IsTagName tag.name
  attributes : ∀ a ∈ tag.attributes, IsAttributeName a.name

/-- The names in the tag of a component are names, and no helper has its name. -/
structure ComponentTag.IsSafe (tag : ComponentTag) : Prop where
  helper : Builtin.ofName? tag.name = none
  name : IsTagName tag.name
  attributes : ∀ a ∈ tag.attributes, IsAttributeName a.name

mutual

/-- Whatever values are shown in a node, they are shown as text or as values of attributes, and
what is around them can be written.  The bodies of blocks are not rendered, so that nothing is
asked of them. -/
def Node.IsSafe : Node → Prop
  | .comment s _ => ¬commentEnd <:+: s.toList
  | .insertion i => i.escaped = true
  | .element tag children _ => tag.IsSafe ∧ SafeAll children
  | .component tag body _ => tag.IsSafe ∧ SafeBody body
  | .text .. | .block .. => True

/-- All nodes of a body are safe. -/
def SafeBody : Body Node → Prop
  | ⟨children, _, _⟩ => SafeAll children

/-- All of some nodes are safe. -/
def SafeAll : List Node → Prop
  | [] => True
  | node :: nodes => node.IsSafe ∧ SafeAll nodes

end

theorem safeAll_iff {nodes : List Node} : SafeAll nodes ↔ ∀ node ∈ nodes, node.IsSafe := by
  induction nodes with
  | nil => simp [SafeAll]
  | cons node nodes ih => simp [SafeAll, ih]

/-! ## start tags -/

/-- An attribute keeps its name. -/
theorem Attribute.name_ofRaw {raw : RawAttribute} {a : Attribute}
    (h : Attribute.ofRaw raw = .ok a) : a.name = raw.name := by
  obtain ⟨parts, -, h⟩ := exists_of_bind_eq_ok h
  cases h
  rfl

/-- The attributes of a legible tag have names. -/
theorem isAttributeName_of_mapM {raws : List RawAttribute} {attributes : List Attribute}
    (h : raws.mapM Attribute.ofRaw = .ok attributes)
    (hlegible : ∀ raw ∈ raws, IsAttributeName raw.name) :
    ∀ a ∈ attributes, IsAttributeName a.name := by
  induction raws generalizing attributes with
  | nil =>
    cases h
    simp
  | cons raw raws ih =>
    rw [List.mapM_cons] at h
    obtain ⟨a, ha, h⟩ := exists_of_bind_eq_ok h
    obtain ⟨more, hmore, h⟩ := exists_of_bind_eq_ok h
    cases h
    obtain ⟨hraw, hraws⟩ := List.forall_mem_cons.1 hlegible
    rw [List.forall_mem_cons, Attribute.name_ofRaw ha]
    exact ⟨hraw, ih hmore hraws⟩

/-- Helpers have no dash in their names. -/
theorem ofName?_of_dash {tag : String} (h : '-' ∈ tag.toList) : Builtin.ofName? tag = none := by
  have hdash : ∀ b ∈ Builtin.all, '-' ∉ b.name.toList := by decide
  refine List.find?_eq_none.2 fun b hb heq => ?_
  have hname : b.name = tag := eq_of_beq heq
  exact hdash b hb (hname ▸ h)

section Tags

variable {tag : StartTag} {attributes : List Attribute}

/-- The element of an escaped tag is safe. -/
theorem StartTag.isSafe_element {modifiers : List Call} (ns : Namespace)
    (hlegible : (Token.startTag tag).IsLegible) (hescaped : (Token.startTag tag).IsEscaped)
    (hattributes : tag.attributes.mapM Attribute.ofRaw = .ok attributes)
    (hmodifiers : (withoutComments tag.modifiers).mapM Mustache.modifier = .ok modifiers) :
    (tag.element ns attributes modifiers).IsSafe := by
  rw [show withoutComments tag.modifiers = [] from hescaped] at hmodifiers
  cases hmodifiers
  exact ⟨rfl, hlegible.1, isAttributeName_of_mapM hattributes hlegible.2⟩

/-- The component of a tag is safe. -/
theorem StartTag.isSafe_component {options : TemplateOptions}
    (hlegible : (Token.startTag tag).IsLegible) (hcomponent : tag.IsComponent options)
    (hattributes : tag.attributes.mapM Attribute.ofRaw = .ok attributes) :
    (⟨tag.name, attributes⟩ : ComponentTag).IsSafe :=
  ⟨ofName?_of_dash hcomponent.dash, hlegible.1, isAttributeName_of_mapM hattributes hlegible.2⟩

end Tags

/-- The value of a mustache with two braces is escaped. -/
theorem Mustache.escaped_of_insertion {m : Mustache} {i : Insertion} (hkind : m.kind = .escaped)
    (h : m.insertion = .ok i) : i.escaped = true := by
  obtain ⟨call, -, h⟩ := exists_of_bind_eq_ok h
  cases h
  rw [hkind]
  rfl

/-! ## templates -/

/-- What is open is safe, once it is closed behind safe nodes. -/
def Opening.IsSafe : Opening → Prop
  | .element tag _ => tag.IsSafe
  | .component tag _ => tag.IsSafe
  | .block .. => True

/-- Escaped tokens keep nodes safe. -/
theorem kept_isSafe {options : TemplateOptions} {tokens : List Token}
    (hlegible : ∀ token ∈ tokens, token.IsLegible) (hescaped : ∀ token ∈ tokens, token.IsEscaped) :
    Kept options tokens Node.IsSafe Opening.IsSafe where
  text _ _ := trivial
  comment _ _ htoken := hlegible _ htoken
  insertion _ _ htoken hkind hi :=
    Mustache.escaped_of_insertion (hkind.resolve_right (hescaped _ htoken)) hi
  element _ ns _ _ htoken hattributes hmodifiers :=
    StartTag.isSafe_element ns (hlegible _ htoken) (hescaped _ htoken) hattributes hmodifiers
  component _ _ htoken hcomponent hattributes :=
    StartTag.isSafe_component (hlegible _ htoken) hcomponent hattributes
  block _ _ _ := trivial
  inverse _ _ _ _ _ _ := trivial
  close _ _ _ hopening hchildren hcloses := by
    cases hcloses with
    | element => exact ⟨hopening, safeAll_iff.2 hchildren⟩
    | component => exact ⟨hopening, safeAll_iff.2 hchildren⟩
    | block => trivial
    | inverse => trivial

/-- A source whose tokens are escaped gives a template of safe nodes. -/
theorem Template.safeAll {options : TemplateOptions} {source : String} {t : Template}
    (h : Template.ofSource options source = .ok t)
    (hescaped : ∀ token ∈ (Reading.ofSource .template source).tokens, token.IsEscaped) :
    SafeAll t.children :=
  safeAll_iff.2 (Template.forall_mem_ofSource h (kept_isSafe isLegible_of_mem_ofSource hescaped))

end LiveTemplate
