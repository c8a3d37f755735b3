import LiveTemplate.Proofs.Template.Nesting

/-!
# LiveTemplate.Proofs.Template.Keeping

What holds of all nodes of a template because of the tokens it is read from.

A property of nodes is read off the tokens together with one of what is open: where both hold
so far, every token keeps them (`Construction.Steps.keeps`).  So it is enough to look at what
single tokens make and at what is closed (`Kept`).
-/

namespace LiveTemplate

/-- What is open becomes a node when it is closed behind these children. -/
inductive Opening.Closes : Opening → List Node → Node → Prop
  | element (tag : ElementTag) (start span : Span) (children : List Node) :
    Closes (.element tag start) children (.element tag children span)
  | component (tag : ComponentTag) (start within span : Span) (children : List Node) :
    Closes (.component tag start) children (.component tag ⟨children, [], within⟩ span)
  | block (call : Call) (blockParams : List String) (lo : Nat) (within span : Span)
    (children : List Node) :
    Closes (.block call blockParams none lo) children
      (.block call ⟨children, blockParams, within⟩ none span)
  | inverse (call : Call) (blockParams : List String) (body : Template) (lo : Nat)
    (within span : Span) (children : List Node) :
    Closes (.block call blockParams (some body) lo) children
      (.block call body (some ⟨children, [], within⟩) span)

/-- Tokens make nodes that have a property, if what is open has another. -/
structure Kept (options : TemplateOptions) (tokens : List Token) (P : Node → Prop)
    (Q : Opening → Prop) : Prop where
  text : ∀ text span, P (.text text span)
  comment : ∀ text span, Token.comment text span ∈ tokens → P (.comment text span)
  insertion : ∀ m i, Token.mustache m ∈ tokens → m.kind = .escaped ∨ m.kind = .unescaped →
    m.insertion = .ok i → P (.insertion i)
  element : ∀ tag ns attributes modifiers, Token.startTag tag ∈ tokens →
    tag.attributes.mapM Attribute.ofRaw = .ok attributes →
    (withoutComments tag.modifiers).mapM Mustache.modifier = .ok modifiers →
      Q (.element (tag.element ns attributes modifiers) tag.span)
  component : ∀ tag attributes, Token.startTag tag ∈ tokens → tag.IsComponent options →
    tag.attributes.mapM Attribute.ofRaw = .ok attributes →
      Q (.component ⟨tag.name, attributes⟩ tag.span)
  block : ∀ call blockParams lo, Q (.block call blockParams none lo)
  inverse : ∀ call blockParams lo children span, (∀ child ∈ children, P child) →
    Q (.block call blockParams (some ⟨children, blockParams, span⟩) lo)
  close : ∀ opening children node, Q opening → (∀ child ∈ children, P child) →
    opening.Closes children node → P node

namespace Construction

/-- All nodes so far have a property, and what is open has another. -/
structure Keeps (s : Construction) (P : Node → Prop) (Q : Opening → Prop) : Prop where
  nodes : ∀ node ∈ s.nodes, P node
  frames : ∀ frame ∈ s.frames, Q frame.opening ∧ ∀ node ∈ frame.before, P node

variable {options : TemplateOptions} {s s' : Construction} {P : Node → Prop} {Q : Opening → Prop}

namespace Keeps

theorem push (h : s.Keeps P Q) {node : Node} (hnode : P node) : (s.push node).Keeps P Q :=
  ⟨List.forall_mem_cons.2 ⟨hnode, h.nodes⟩, h.frames⟩

theorem pushText (h : s.Keeps P Q) (htext : ∀ text span, P (.text text span)) (text : String)
    (span : Span) : (s.pushText text span).Keeps P Q := by
  rw [Construction.pushText]
  split
  · next hnodes =>
    have hbefore := h.nodes
    rw [hnodes, List.forall_mem_cons] at hbefore
    exact ⟨List.forall_mem_cons.2 ⟨htext .., hbefore.2⟩, h.frames⟩
  · exact h.push (htext ..)

theorem enter (h : s.Keeps P Q) {opening : Opening} (hopening : Q opening) (ns : Namespace) :
    (s.enter opening ns).Keeps P Q :=
  ⟨by simp [Construction.enter], List.forall_mem_cons.2 ⟨⟨hopening, h.nodes⟩, h.frames⟩⟩

theorem children (h : s.Keeps P Q) : ∀ child ∈ s.children, P child :=
  fun child hchild => h.nodes child (List.mem_reverse.1 hchild)

/-- What is closed leaves a node in its place. -/
theorem leave (h : s.Keeps P Q) {frame : Frame} {frames : List Frame}
    (hframes : s.frames = frame :: frames) {node : Node} (hnode : Q frame.opening → P node) :
    (leave frame frames node).Keeps P Q := by
  have hopen := h.frames
  rw [hframes, List.forall_mem_cons] at hopen
  exact ⟨List.forall_mem_cons.2 ⟨hnode hopen.1.1, hopen.1.2⟩, hopen.2⟩

end Keeps

/-- A token keeps what tokens keep. -/
theorem Steps.keeps {tokens : List Token} (hkept : Kept options tokens P Q) {token : Token}
    (htoken : token ∈ tokens) (h : Steps options s token s') (hs : s.Keeps P Q) : s'.Keeps P Q := by
  cases h with
  | text text span => exact hs.pushText hkept.text text span
  | comment text span =>
    split
    · exact hs.push (hkept.comment text span htoken)
    · exact hs
  | component hcomponent hattributes =>
    exact hs.push (hkept.close _ [] _ (hkept.component _ _ htoken hcomponent hattributes) (by simp)
      (.component ..))
  | openComponent hcomponent hattributes =>
    exact hs.enter (hkept.component _ _ htoken hcomponent hattributes) _
  | element hcomponent hattributes hmodifiers =>
    exact hs.push (hkept.close _ [] _ (hkept.element _ _ _ _ htoken hattributes hmodifiers)
      (by simp) (.element ..))
  | openElement hcomponent hattributes hmodifiers =>
    exact hs.enter (hkept.element _ _ _ _ htoken hattributes hmodifiers) _
  | closeElement span hvoid hframes =>
    exact hs.leave hframes fun htag => hkept.close _ _ _ htag hs.children (.element ..)
  | closeComponent span hvoid hframes =>
    exact hs.leave hframes fun htag => hkept.close _ _ _ htag hs.children (.component ..)
  | ignore => exact hs
  | insertion hkind hi => exact hs.push (hkept.insertion _ _ htoken hkind hi)
  | openBlock => exact hs.enter (hkept.block ..) _
  | otherwise hkind hframes =>
    have hopen := hs.frames
    rw [hframes, List.forall_mem_cons] at hopen
    exact ⟨by simp, List.forall_mem_cons.2
      ⟨⟨hkept.inverse _ _ _ _ _ hs.children, hopen.1.2⟩, hopen.2⟩⟩
  | @closeBlock m call blockParams body lo before ns frames hkind hframes =>
    refine hs.leave hframes fun hopening => ?_
    cases body with
    | none => exact hkept.close _ _ _ hopening hs.children (.block ..)
    | some body => exact hkept.close _ _ _ hopening hs.children (.inverse ..)

/-- Tokens that are read one after the other keep what they keep. -/
theorem keeps_run {tokens read : List Token} (hkept : Kept options tokens P Q)
    (hread : ∀ token ∈ read, token ∈ tokens) (h : run options read s = .ok s')
    (hs : s.Keeps P Q) : s'.Keeps P Q := by
  induction read generalizing s with
  | nil =>
    cases h
    exact hs
  | cons token read ih =>
    obtain ⟨s₁, hstep, h⟩ := exists_of_run_cons h
    rw [List.forall_mem_cons] at hread
    exact ih hread.2 h (hstep.keeps hkept hread.1 hs)

end Construction

/-- What the tokens of a source keep holds of the nodes of its template. -/
theorem Template.forall_mem_ofSource {options : TemplateOptions} {source : String} {t : Template}
    (h : Template.ofSource options source = .ok t) {P : Node → Prop} {Q : Opening → Prop}
    (hkept : Kept options (Reading.ofSource .template source).tokens P Q) :
    ∀ node ∈ t.children, P node := by
  obtain ⟨s, hrun, -, rfl⟩ := (Template.ofSource_eq_ok_iff (Template.tokens?_of_ofSource h)).1 h
  have hempty : ({} : Construction).Keeps P Q := ⟨by simp, by simp⟩
  exact (Construction.keeps_run hkept (fun _ htoken => htoken) hrun hempty).children

end LiveTemplate
