import LiveTemplate.Proofs.Markup.Tiling
import LiveTemplate.Proofs.Template.Nesting

/-!
# LiveTemplate.Proofs.Template.Walk

Walking a template gives its tokens back.

A walk in document order comes by marks: one for each token, as far as the template
keeps it (`bodyMarks`).  Which mark a token leaves is said of the token alone
(`Token.Leaves`): mustache comments leave none, and texts that stand next to each other
leave one together (`joinTexts`).  While a template is under construction, the walk goes
through the frames from the outside in (`Construction.trail`), and each step adds the
mark of its token (`Steps.trail_eq`).
-/

namespace LiveTemplate

/-! ## marks -/

/-- What a template keeps of a token.  Tags that open or close something keep the position where
they begin or end, and end tags their name in small letters; start tags tell components from
elements. -/
inductive Mark where
  | text (text : String) (span : Span)
  | comment (text : String) (span : Span)
  | insertion (insertion : Insertion)
  | single (component : Bool) (name : String) (attributes : List Attribute) (modifiers : List Call)
    (span : Span)
  | start (component : Bool) (name : String) (attributes : List Attribute) (modifiers : List Call)
    (lo : Nat)
  | stop (name : List Char) (hi : Nat)
  | opening (call : Call) (blockParams : List String) (lo : Nat)
  | otherwise (lo : Nat)
  | closing (path : String) (span : Span)

/-- What a start tag holds: its attributes and modifiers, and whether it invokes a component, which
has no modifiers. -/
structure StartTag.Holds (tag : StartTag) (options : TemplateOptions) (component : Bool)
    (attributes : List Attribute) (modifiers : List Call) : Prop where
  isComponent : component = true ↔ tag.IsComponent options
  unmodified : component = true → modifiers = []
  attributes : List.Forall₂ RawAttribute.Holds tag.attributes attributes
  modifiers : List.Forall₂ Mustache.Modifies (tag.modifiers.filter (·.kind != .comment)) modifiers

namespace StartTag.Holds

variable {options : TemplateOptions} {tag : StartTag} {attributes : List Attribute}

/-- The tag of an element holds what the element keeps of it. -/
theorem of_element {modifiers : List Call} (hcomponent : ¬tag.IsComponent options)
    (hattributes : tag.attributes.mapM Attribute.ofRaw = .ok attributes)
    (hmodifiers : (withoutComments tag.modifiers).mapM Mustache.modifier = .ok modifiers) :
    tag.Holds options false attributes modifiers where
  isComponent := iff_of_false Bool.false_ne_true hcomponent
  unmodified h := absurd h Bool.false_ne_true
  attributes := mapM_ofRaw_iff.1 hattributes
  modifiers := mapM_modifier_iff.1 hmodifiers

/-- The tag of a component holds no modifiers. -/
theorem of_component (hcomponent : tag.IsComponent options)
    (hattributes : tag.attributes.mapM Attribute.ofRaw = .ok attributes)
    (hmodifiers : withoutComments tag.modifiers = []) : tag.Holds options true attributes [] where
  isComponent := iff_of_true rfl hcomponent
  unmodified _ := rfl
  attributes := mapM_ofRaw_iff.1 hattributes
  modifiers := mapM_modifier_iff.1 (by rw [← withoutComments, hmodifiers]; rfl)

theorem converts {component : Bool} {modifiers : List Call}
    (h : tag.Holds options component attributes modifiers) :
    (Token.startTag tag).Converts options := by
  refine ⟨exists_mapM_ofRaw_iff.1 ⟨_, mapM_ofRaw_iff.2 h.attributes⟩, fun m hm hkind => ?_⟩
  have hmem : m ∈ withoutComments tag.modifiers := mem_withoutComments.2 ⟨hm, hkind⟩
  refine ⟨fun hcomponent => ?_,
    exists_mapM_modifier_iff.1 ⟨_, mapM_modifier_iff.2 h.modifiers⟩ m hmem⟩
  have hnone := h.modifiers
  rw [h.unmodified (h.isComponent.2 hcomponent), List.forall₂_nil_right_iff] at hnone
  rw [withoutComments, hnone] at hmem
  cases hmem

theorem unique {component component' : Bool} {attributes' : List Attribute}
    {modifiers modifiers' : List Call} (h : tag.Holds options component attributes modifiers)
    (h' : tag.Holds options component' attributes' modifiers') :
    component = component' ∧ attributes = attributes' ∧ modifiers = modifiers' :=
  ⟨Bool.eq_iff_iff.2 (h.isComponent.trans h'.isComponent.symm),
    Except.ok.inj ((mapM_ofRaw_iff.2 h.attributes).symm.trans (mapM_ofRaw_iff.2 h'.attributes)),
    Except.ok.inj ((mapM_modifier_iff.2 h.modifiers).symm.trans (mapM_modifier_iff.2 h'.modifiers))⟩

end StartTag.Holds

/-- The marks that a token leaves in a template. -/
inductive Token.Leaves (options : TemplateOptions) : Token → List Mark → Prop where
  | text (s : String) (span : Span) : Leaves options (.text s span) [.text s span]
  | comment (s : String) (span : Span) (hkeeps : options.keepComments = true) :
    Leaves options (.comment s span) [.comment s span]
  | noComment (s : String) (span : Span) (hkeeps : options.keepComments = false) :
    Leaves options (.comment s span) []
  | single {tag : StartTag} {component : Bool} {attributes : List Attribute} {modifiers : List Call}
    (htag : tag.Holds options component attributes modifiers) (hsingle : tag.IsSingle) :
    Leaves options (.startTag tag) [.single component tag.name attributes modifiers tag.span]
  | start {tag : StartTag} {component : Bool} {attributes : List Attribute} {modifiers : List Call}
    (htag : tag.Holds options component attributes modifiers) (hopen : ¬tag.IsSingle) :
    Leaves options (.startTag tag) [.start component tag.name attributes modifiers tag.span.lo]
  | stop (name : String) (span : Span) :
    Leaves options (.endTag name span) [.stop (name.toList.map Char.toLower) span.hi]
  | ignore {m : Mustache} (hkind : m.kind = .comment) : Leaves options (.mustache m) []
  | insertion {m : Mustache} {i : Insertion} (h : m.Inserts i) :
    Leaves options (.mustache m) [.insertion i]
  | opening {m : Mustache} {e : Expression} (hkind : m.kind = .opening)
    (he : Expression.ofContent m.content m.span = .ok e) :
    Leaves options (.mustache m) [.opening e.call e.blockParams m.span.lo]
  | otherwise {m : Mustache} (hkind : m.kind = .otherwise) :
    Leaves options (.mustache m) [.otherwise m.span.lo]
  | closing {m : Mustache} {path : String} (h : m.Closes path) :
    Leaves options (.mustache m) [.closing path m.span]

/-- A token leaves marks in one way only. -/
theorem Token.Leaves.unique {options : TemplateOptions} {token : Token} {marks marks' : List Mark}
    (h : token.Leaves options marks) (h' : token.Leaves options marks') : marks = marks' := by
  cases h with
  | text | stop =>
    cases h'
    rfl
  | comment _ _ hkeeps | noComment _ _ hkeeps =>
    cases h' with
    | comment _ _ hkeeps' => simp_all
    | noComment _ _ hkeeps' => simp_all
  | single htag hsingle =>
    cases h' with
    | single htag' =>
      obtain ⟨rfl, rfl, rfl⟩ := htag.unique htag'
      rfl
    | start _ hopen => exact absurd hsingle hopen
  | start htag hopen =>
    cases h' with
    | single _ hsingle => exact absurd hsingle hopen
    | start htag' =>
      obtain ⟨rfl, rfl, rfl⟩ := htag.unique htag'
      rfl
  | insertion hi =>
    cases h' with
    | insertion hi' => rw [hi.unique hi']
    | ignore hkind | opening hkind | otherwise hkind => exact absurd hkind (by simp [hi.kind_ne])
    | closing hcloses => exact absurd hcloses.kind (by simp [hi.kind_ne])
  | ignore hkind | opening hkind he | otherwise hkind =>
    cases h' with
    | insertion hi => exact absurd hkind (by simp [hi.kind_ne])
    | closing hcloses => exact absurd (hkind.symm.trans hcloses.kind) (by simp)
    | ignore hkind' | opening hkind' he' | otherwise hkind' => simp_all
  | closing hcloses =>
    cases h' with
    | insertion hi => exact absurd hcloses.kind (by simp [hi.kind_ne])
    | ignore hkind | opening hkind | otherwise hkind =>
      exact absurd (hkind.symm.trans hcloses.kind) (by simp)
    | closing hcloses' => rw [← hcloses.trimString_eq, hcloses'.trimString_eq]

/-- A token that leaves marks converts. -/
theorem Token.Leaves.converts {options : TemplateOptions} {token : Token} {marks : List Mark}
    (h : token.Leaves options marks) : token.Converts options := by
  cases h with
  | text | comment | noComment | stop => trivial
  | single htag | start htag => exact htag.converts
  | insertion hi => exact ⟨fun _ => ⟨_, hi⟩, fun hkind => absurd hkind (by simp [hi.kind_ne])⟩
  | opening hkind he => exact ⟨by simp [hkind], fun _ => ⟨_, he⟩⟩
  | ignore hkind | otherwise hkind => exact ⟨by simp [hkind], by simp [hkind]⟩
  | closing hcloses => exact ⟨by simp [hcloses.kind], by simp [hcloses.kind]⟩

mutual

/-- The marks of a node.  A component without an end tag has a body without a place. -/
def Node.marks : Node → List Mark
  | .text s span => [.text s span]
  | .comment s span => [.comment s span]
  | .insertion i => [.insertion i]
  | .element tag children span =>
    if tag.selfClosing && children.isEmpty then
      [.single false tag.name tag.attributes tag.modifiers span]
    else
      .start false tag.name tag.attributes tag.modifiers span.lo :: nodesMarks children ++
        [.stop (tag.name.toList.map Char.toLower) span.hi]
  | .component tag body span =>
    if body.span = {} ∧ body.children.isEmpty then [.single true tag.name tag.attributes [] span]
    else
      .start true tag.name tag.attributes [] span.lo :: bodyMarks body ++
        [.stop (tag.name.toList.map Char.toLower) span.hi]
  | .block call body inverse span =>
    .opening call body.blockParams span.lo :: bodyMarks body ++
      inverseMarks body.span.hi inverse ++
        [.closing call.path ⟨(inverse.getD body).span.hi, span.hi⟩]

def nodesMarks : List Node → List Mark
  | [] => []
  | node :: nodes => node.marks ++ nodesMarks nodes

def bodyMarks : Body Node → List Mark
  | ⟨children, _, _⟩ => nodesMarks children

/-- The marks of what stands behind `else`, which begins at `lo`. -/
def inverseMarks (lo : Nat) : Option (Body Node) → List Mark
  | none => []
  | some body => .otherwise lo :: bodyMarks body

end

/-- A trail, last mark first, with one mark more.  A text goes on with a text before it. -/
def addMark (trail : List Mark) : Mark → List Mark
  | .text text span =>
    match trail with
    | .text before ⟨lo, _⟩ :: trail => .text (before ++ text) ⟨lo, span.hi⟩ :: trail
    | _ => .text text span :: trail
  | mark => mark :: trail

/-- Marks with the texts joined that stand next to each other. -/
def joinTexts (marks : List Mark) : List Mark := (marks.foldl addMark []).reverse

theorem nodesMarks_append (nodes nodes' : List Node) :
    nodesMarks (nodes ++ nodes') = nodesMarks nodes ++ nodesMarks nodes' := by
  induction nodes with
  | nil => rfl
  | cons node nodes ih =>
    rw [List.cons_append, nodesMarks, nodesMarks, ih, List.append_assoc]

/-! ## trails -/

/-- What has been walked of something that is open. -/
def Opening.marks : Opening → List Mark
  | .element tag span => [.start false tag.name tag.attributes tag.modifiers span.lo]
  | .component tag span => [.start true tag.name tag.attributes [] span.lo]
  | .block call blockParams none lo => [.opening call blockParams lo]
  | .block call _ (some body) lo =>
    .opening call body.blockParams lo :: bodyMarks body ++ [.otherwise body.span.hi]

/-- The marks of nodes that are kept last first, last mark first. -/
def trailOf (nodes : List Node) : List Mark := (nodesMarks nodes.reverse).reverse

theorem trailOf_cons (node : Node) (nodes : List Node) :
    trailOf (node :: nodes) = node.marks.reverse ++ trailOf nodes := by
  rw [trailOf, List.reverse_cons, nodesMarks_append, List.reverse_append, nodesMarks, nodesMarks,
    List.append_nil]
  rfl

def Frame.trail (frame : Frame) : List Mark := frame.opening.marks.reverse ++ trailOf frame.before

/-- The marks of a template under construction, last mark first. -/
def Construction.trail (s : Construction) : List Mark :=
  trailOf s.nodes ++ s.frames.flatMap Frame.trail

/-- What frames hold of tags that have no end tag yet. -/
def Opening.IsOpen : Opening → Prop
  | .element tag _ => tag.selfClosing = false
  | .component _ span => 0 < span.hi
  | .block .. => True

/-- An element is marked as it is opened, walked and closed. -/
theorem Opening.IsOpen.marks_element {tag : ElementTag} {start : Span}
    (h : (Opening.element tag start).IsOpen) (children : List Node) (hi : Nat) :
    (Node.element tag children ⟨start.lo, hi⟩).marks =
      (Opening.element tag start).marks ++ nodesMarks children ++
        [.stop (tag.name.toList.map Char.toLower) hi] := by
  have hclosing : tag.selfClosing = false := h
  rw [Node.marks, hclosing, Bool.false_and, if_neg Bool.false_ne_true]
  rfl

/-- A component whose start tag has a place is marked as it is opened, walked and closed. -/
theorem Opening.IsOpen.marks_component {tag : ComponentTag} {start : Span}
    (h : (Opening.component tag start).IsOpen) (children : List Node) (lo hi : Nat) :
    (Node.component tag { children, span := ⟨start.hi, lo⟩ } ⟨start.lo, hi⟩).marks =
      (Opening.component tag start).marks ++ nodesMarks children ++
        [.stop (tag.name.toList.map Char.toLower) hi] := by
  have hlo : ¬((⟨start.hi, lo⟩ : Span) = {} ∧ children.isEmpty = true) := by
    rintro ⟨hspan, -⟩
    exact Nat.ne_of_gt h (Span.mk.inj hspan).1
  rw [Node.marks, if_neg hlo]
  rfl

/-- A block is marked as it is opened, walked and closed, with `else` or without. -/
theorem marks_block (call : Call) (blockParams : List String) (body : Option (Body Node))
    (lo : Nat) (children : List Node) (span : Span) :
    (Construction.block call blockParams body children ⟨lo, span.lo⟩ ⟨lo, span.hi⟩).marks =
      (Opening.block call blockParams body lo).marks ++ nodesMarks children ++
        [.closing call.path span] := by
  cases body with
  | none => simp [Construction.block, Node.marks, Opening.marks, inverseMarks, bodyMarks]
  | some body => simp [Construction.block, Node.marks, Opening.marks, inverseMarks, bodyMarks]

/-- The last mark is no text. -/
def EndsBare (trail : List Mark) : Prop := ∀ text span rest, trail ≠ .text text span :: rest

theorem EndsBare.addMark_text {trail : List Mark} (h : EndsBare trail) (text : String)
    (span : Span) : addMark trail (.text text span) = .text text span :: trail := by
  cases trail with
  | nil => rfl
  | cons mark rest =>
    cases mark with
    | text before span' => exact absurd rfl (h before span' rest)
    | _ => rfl

theorem endsBare_append_cons (marks : List Mark) {mark : Mark} (h : ∀ s span, mark ≠ .text s span)
    (trail : List Mark) : EndsBare ((marks ++ [mark]).reverse ++ trail) := by
  intro s span rest heq
  rw [List.reverse_append, List.reverse_singleton] at heq
  exact h s span (List.cons.inj heq).1

/-- Only texts leave a text behind. -/
theorem Node.endsBare {node : Node} (h : ∀ s span, node ≠ .text s span) (trail : List Mark) :
    EndsBare (node.marks.reverse ++ trail) := by
  cases node with
  | text s span => exact absurd rfl (h s span)
  | comment s span => exact endsBare_append_cons [] (by simp) trail
  | insertion i => exact endsBare_append_cons [] (by simp) trail
  | element tag children span =>
    rw [Node.marks]
    split
    · exact endsBare_append_cons [] (by simp) trail
    · exact endsBare_append_cons _ (by simp) trail
  | component tag body span =>
    rw [Node.marks]
    split
    · exact endsBare_append_cons [] (by simp) trail
    · exact endsBare_append_cons _ (by simp) trail
  | block call body inverse span => exact endsBare_append_cons _ (by simp) trail

theorem Opening.endsBare (opening : Opening) (trail : List Mark) :
    EndsBare (opening.marks.reverse ++ trail) := by
  cases opening with
  | element tag span => exact endsBare_append_cons [] (by simp) trail
  | component tag span => exact endsBare_append_cons [] (by simp) trail
  | block call blockParams body lo =>
    cases body with
    | none => exact endsBare_append_cons [] (by simp) trail
    | some body => exact endsBare_append_cons _ (by simp) trail

namespace Construction

variable {options : TemplateOptions} {s s' : Construction}

/-- A text goes on with the text before it, in the trail as among the nodes. -/
theorem trail_pushText (s : Construction) (text : String) (span : Span) :
    (s.pushText text span).trail = addMark s.trail (.text text span) := by
  rw [pushText]
  split
  · next before lo hi nodes hnodes =>
    rw [trail, trail, hnodes, trailOf_cons, trailOf_cons]
    rfl
  · next hnodes =>
    have hbare : EndsBare s.trail := by
      rw [trail]
      cases h : s.nodes with
      | nil =>
        rw [show trailOf [] = [] from rfl, List.nil_append]
        cases hframes : s.frames with
        | nil => exact fun _ _ _ h => by cases h
        | cons frame frames =>
          rw [List.flatMap_cons, Frame.trail, List.append_assoc]
          exact frame.opening.endsBare _
      | cons node nodes =>
        rw [trailOf_cons, List.append_assoc]
        refine Node.endsBare (fun before span' hnode => ?_) _
        exact hnodes before span'.lo span'.hi nodes (by rw [h, hnode])
    rw [hbare.addMark_text, push, trail, trail, trailOf_cons]
    rfl

/-- A step leaves the openings of frames open. -/
theorem Steps.isOpen {token : Token} (h : Steps options s token s')
    (hopen : ∀ frame ∈ s.frames, frame.opening.IsOpen)
    (htag : ∀ tag, token = .startTag tag → 0 < tag.span.hi) :
    ∀ frame ∈ s'.frames, frame.opening.IsOpen := by
  cases h with
  | text text span =>
    rw [frames_pushText]
    exact hopen
  | comment text span =>
    split
    · exact hopen
    · exact hopen
  | component | element | ignore | insertion => exact hopen
  | openComponent => exact List.forall_mem_cons.2 ⟨htag _ rfl, hopen⟩
  | openElement hcomponent hattributes hmodifiers hsingle =>
    have hclosing := Bool.eq_false_iff.2 (mt StartTag.isSingle_iff.1 hsingle)
    exact List.forall_mem_cons.2 ⟨hclosing, hopen⟩
  | closeElement span hvoid hframes =>
    rw [hframes, List.forall_mem_cons] at hopen
    exact hopen.2
  | closeComponent span hvoid hframes =>
    rw [hframes, List.forall_mem_cons] at hopen
    exact hopen.2
  | openBlock => exact List.forall_mem_cons.2 ⟨trivial, hopen⟩
  | otherwise hkind hframes =>
    rw [hframes, List.forall_mem_cons] at hopen
    exact List.forall_mem_cons.2 ⟨trivial, hopen.2⟩
  | closeBlock hkind hframes =>
    rw [hframes, List.forall_mem_cons] at hopen
    exact hopen.2

theorem trail_push (s : Construction) (node : Node) :
    (s.push node).trail = node.marks.reverse ++ s.trail := by
  rw [push, trail, trail, trailOf_cons, List.append_assoc]

theorem trail_enter (s : Construction) (opening : Opening) (ns : Namespace) :
    (s.enter opening ns).trail = opening.marks.reverse ++ s.trail := by
  rw [enter, trail, List.flatMap_cons, Frame.trail, List.append_assoc]
  rfl

theorem trail_leave (frame : Frame) (frames : List Frame) (node : Node) :
    (leave frame frames node).trail =
      node.marks.reverse ++ (trailOf frame.before ++ frames.flatMap Frame.trail) := by
  rw [leave, trail, trailOf_cons, List.append_assoc]

theorem trail_of_frames {frame : Frame} {frames : List Frame} (h : s.frames = frame :: frames) :
    s.trail = (nodesMarks s.children).reverse ++ frame.opening.marks.reverse ++
      (trailOf frame.before ++ frames.flatMap Frame.trail) := by
  rw [trail, h, List.flatMap_cons, Frame.trail, trailOf, children]
  simp only [List.append_assoc]

/-- Closing what is open adds one mark. -/
theorem trail_close {frame : Frame} {frames : List Frame} (h : s.frames = frame :: frames)
    {node : Node} {mark : Mark}
    (hmarks : node.marks = frame.opening.marks ++ nodesMarks s.children ++ [mark]) :
    (leave frame frames node).trail = mark :: s.trail := by
  rw [trail_leave, trail_of_frames h, hmarks, List.reverse_append, List.reverse_append]
  rfl

/-- A step adds the marks of its token. -/
theorem Steps.trail_eq {token : Token} (h : Steps options s token s')
    (hopen : ∀ frame ∈ s.frames, frame.opening.IsOpen) :
    ∃ marks, token.Leaves options marks ∧ s'.trail = marks.foldl addMark s.trail := by
  cases h with
  | text text span => exact ⟨_, .text text span, trail_pushText s text span⟩
  | comment text span =>
    split
    · next hkeeps => exact ⟨_, .comment text span hkeeps, trail_push ..⟩
    · next hkeeps => exact ⟨_, .noComment text span (Bool.eq_false_iff.2 hkeeps), rfl⟩
  | component hcomponent hattributes hmodifiers hsingle =>
    exact ⟨_, .single (.of_component hcomponent hattributes hmodifiers) (.inl hsingle),
      trail_push ..⟩
  | openComponent hcomponent hattributes hmodifiers hsingle =>
    exact ⟨_, .start (.of_component hcomponent hattributes hmodifiers)
      (hcomponent.not_isSingle hsingle), trail_enter ..⟩
  | @element tag attributes modifiers hcomponent hattributes hmodifiers hsingle =>
    have hmarks : Node.marks (.element (tag.element s.ns attributes modifiers) [] tag.span) =
        [.single false tag.name attributes modifiers tag.span] := by
      rw [Node.marks]
      exact if_pos (Bool.and_eq_true_iff.2 ⟨StartTag.isSingle_iff.2 hsingle, rfl⟩)
    refine ⟨_, .single (.of_element hcomponent hattributes hmodifiers) hsingle, ?_⟩
    rw [trail_push, hmarks]
    rfl
  | openElement hcomponent hattributes hmodifiers hsingle =>
    exact ⟨_, .start (.of_element hcomponent hattributes hmodifiers) hsingle, trail_enter ..⟩
  -- A closing leaves the marks of what it closes where they are, and puts its own on top.
  | @closeElement tag start before ns frames name span hvoid hframes hsame =>
    rw [hframes, List.forall_mem_cons] at hopen
    refine ⟨_, .stop name span, ?_⟩
    rw [← (hsame : tag.name.toList.map Char.toLower = _)]
    exact trail_close hframes (hopen.1.marks_element s.children span.hi)
  | @closeComponent tag start before ns frames name span hvoid hframes hsame =>
    rw [hframes, List.forall_mem_cons] at hopen
    refine ⟨_, .stop name span, ?_⟩
    rw [← (hsame : tag.name.toList.map Char.toLower = _)]
    exact trail_close hframes (hopen.1.marks_component s.children span.lo span.hi)
  | ignore hkind => exact ⟨[], .ignore hkind, rfl⟩
  | insertion hkind hi =>
    exact ⟨_, .insertion ((Mustache.insertion_eq_ok_iff hkind).1 hi), trail_push ..⟩
  | openBlock hkind he => exact ⟨_, .opening hkind he, trail_enter ..⟩
  | @otherwise m call blockParams lo before ns frames hkind hframes hbare =>
    refine ⟨_, .otherwise hkind, ?_⟩
    have hmarks : (Opening.block call blockParams
          (some { children := s.children, blockParams, span := ⟨lo, m.span.lo⟩ }) lo).marks =
        (Opening.block call blockParams none lo).marks ++ nodesMarks s.children ++
          [.otherwise m.span.lo] := rfl
    rw [trail_of_frames hframes, trail, List.flatMap_cons, Frame.trail, hmarks, List.reverse_append,
      List.reverse_append, List.append_assoc]
    rfl
  | @closeBlock m call blockParams body lo before ns frames hkind hframes hpath =>
    refine ⟨_, .closing ⟨hkind, trimString_eq_iff.1 rfl⟩, ?_⟩
    rw [← hpath]
    exact trail_close hframes (marks_block call blockParams body lo s.children m.span)

/-- Reading tokens adds their marks. -/
theorem trail_run {tokens : List Token} (h : run options tokens s = .ok s')
    (hopen : ∀ frame ∈ s.frames, frame.opening.IsOpen)
    (htags : ∀ tag, .startTag tag ∈ tokens → 0 < tag.span.hi) :
    ∃ marks, List.Forall₂ (Token.Leaves options) tokens marks ∧
      s'.trail = marks.flatten.foldl addMark s.trail := by
  induction tokens generalizing s with
  | nil =>
    cases h
    exact ⟨[], .nil, rfl⟩
  | cons token tokens ih =>
    obtain ⟨s₁, hstep, h⟩ := exists_of_run_cons h
    obtain ⟨marks, hmarks, htrail⟩ := hstep.trail_eq hopen
    have htag : ∀ tag, token = .startTag tag → 0 < tag.span.hi :=
      fun tag heq => htags tag (heq ▸ List.mem_cons_self)
    obtain ⟨marks', hmarks', htrail'⟩ := ih h (hstep.isOpen hopen htag)
      fun tag hmem => htags tag (List.mem_cons_of_mem _ hmem)
    refine ⟨marks :: marks', .cons hmarks hmarks', ?_⟩
    rw [htrail', htrail, List.flatten_cons, List.foldl_append]

end Construction

/-! ## sources -/

/-- A start tag ends behind the start of its source. -/
theorem span_hi_pos_of_mem {mode : Mode} {source : String} {tag : StartTag}
    (h : .startTag tag ∈ (Reading.ofSource mode source).tokens) : 0 < tag.span.hi := by
  obtain ⟨slice, hne, ⟨before, after, -, hspan⟩, -⟩ :=
    (isTiling_readTokens mode (.refl _)).covers _ h
  have hhi : tag.span.hi = byteLength before + byteLength slice := congrArg Span.hi hspan
  have hpos := byteLength_pos hne
  omega

/-- A source without a fault in its tokens is a template if and only if each of the tokens converts
and they are well-nested.  Walking the template then gives the tokens back: all of them in order,
each once, but for mustache comments, for comments that are not kept, and for texts that stand next
to each other, which have become one. -/
theorem Template.marks_ofSource {options : TemplateOptions} {source : String} {tokens : List Token}
    (h : tokens? .template source = .ok tokens) :
    ((∃ t, Template.ofSource options source = .ok t) ↔
        (∀ token ∈ tokens, token.Converts options) ∧ Content tokens) ∧
      ∀ t, Template.ofSource options source = .ok t →
        ∃ marks, List.Forall₂ (Token.Leaves options) tokens marks ∧
          bodyMarks t = joinTexts marks.flatten := by
  refine ⟨Template.exists_ofSource_iff h, fun t hparse => ?_⟩
  obtain ⟨s, hrun, hframes, rfl⟩ := (Template.ofSource_eq_ok_iff h).1 hparse
  have htags : ∀ tag, .startTag tag ∈ tokens → 0 < tag.span.hi := by
    intro tag hmem
    rw [tokens?] at h
    split at h
    · cases h
      exact span_hi_pos_of_mem hmem
    · cases h
  obtain ⟨marks, hmarks, htrail⟩ := Construction.trail_run hrun (by simp) htags
  refine ⟨marks, hmarks, ?_⟩
  rw [joinTexts]
  have hempty : ({} : Construction).trail = [] := rfl
  rw [hempty, Construction.trail, hframes] at htrail
  rw [← htrail]
  simp [trailOf, bodyMarks, Construction.children]

/-! ## a paragraph -/

/-- The start tag of `paragraph`. -/
def paragraphTag : StartTag where
  name := "p"
  attributes := [
    ⟨"a", .unquoted [.text "b"], ⟨3, 6⟩⟩,
    ⟨"c", .unquoted [.mustache ⟨.escaped, "d", ⟨9, 14⟩⟩], ⟨7, 14⟩⟩,
    ⟨"e", .quoted [.text "f", .mustache ⟨.comment, "", ⟨19, 24⟩⟩, .text "g",
      .mustache ⟨.escaped, "h i", ⟨25, 32⟩⟩], ⟨15, 33⟩⟩]
  modifiers := [⟨.escaped, "j", ⟨34, 39⟩⟩]
  selfClosing := false
  span := ⟨0, 40⟩

/-- The attributes that `paragraphTag` holds. -/
def paragraphAttributes : List Attribute := [
  ⟨"a", .static "b", ⟨3, 6⟩⟩,
  ⟨"c", .bare ⟨{ path := "d" }, true, ⟨9, 14⟩⟩, ⟨7, 14⟩⟩,
  ⟨"e", .joined [.text "fg", .insertion ⟨{ path := "h", params := [.id "i"] }, true, ⟨25, 32⟩⟩],
    ⟨15, 33⟩⟩]

/-- What stands between the tags of `paragraph`. -/
def paragraphContent : List Token := [
  .mustache ⟨.opening, "k as |l|", ⟨40, 53⟩⟩, .text "m" ⟨53, 54⟩,
  .mustache ⟨.otherwise, "", ⟨54, 62⟩⟩, .mustache ⟨.unescaped, "n", ⟨62, 69⟩⟩,
  .mustache ⟨.closing, "k", ⟨69, 75⟩⟩, .text "o" ⟨75, 76⟩, .mustache ⟨.comment, "", ⟨76, 81⟩⟩,
  .text "p" ⟨81, 82⟩, .startTag ⟨"br", [], [], false, ⟨82, 86⟩⟩]

/-- A paragraph with attributes of every kind, a modifier, a block, comments and a void tag. -/
def paragraph : String :=
  "<p a=b c=\x7b\x7bd\x7d\x7d e=\"f\x7b\x7b!\x7d\x7dg\x7b\x7bh i\x7d\x7d\" " ++
    "\x7b\x7bj\x7d\x7d>\x7b\x7b#k as |l|\x7d\x7dm\x7b\x7belse\x7d\x7d" ++
    "\x7b\x7b\x7bn\x7d\x7d\x7d\x7b\x7b/k\x7d\x7do\x7b\x7b!\x7d\x7dp<br></P>"

theorem tokens?_paragraph :
    tokens? .template paragraph =
      .ok (.startTag paragraphTag :: paragraphContent ++ [.endTag "P" ⟨86, 90⟩]) := by
  have hreading : Reading.ofSource .template paragraph =
      ⟨.startTag paragraphTag :: paragraphContent ++ [.endTag "P" ⟨86, 90⟩], none⟩ := by
    decide +kernel
  rw [tokens?, hreading]

theorem leaves_paragraph :
    List.Forall₂ (Token.Leaves {}) (.startTag paragraphTag :: paragraphContent ++
        [.endTag "P" ⟨86, 90⟩])
      [[.start false "p" paragraphAttributes [{ path := "j" }] 0],
        [.opening { path := "k" } ["l"] 40], [.text "m" ⟨53, 54⟩], [.otherwise 54],
        [.insertion ⟨{ path := "n" }, false, ⟨62, 69⟩⟩], [.closing "k" ⟨69, 75⟩],
        [.text "o" ⟨75, 76⟩], [], [.text "p" ⟨81, 82⟩], [.single false "br" [] [] ⟨82, 86⟩],
        [.stop ['p'] 90]] := by
  have hplain : ∀ tag : StartTag, '-' ∉ tag.name.toList → ¬tag.IsComponent {} :=
    fun tag hdash h => hdash h.dash
  have htag : paragraphTag.Holds {} false paragraphAttributes [{ path := "j" }] :=
    .of_element (hplain _ (by decide)) rfl rfl
  have hbreak : (StartTag.mk "br" [] [] false ⟨82, 86⟩).Holds {} false [] [] :=
    .of_element (hplain _ (by decide)) rfl rfl
  have hcloses : (Mustache.mk .closing "k" ⟨69, 75⟩).Closes "k" :=
    ⟨rfl, trimString_eq_iff.1 (by decide)⟩
  exact .cons (.start htag (by decide)) <|
    .cons (.opening (e := ⟨{ path := "k" }, ["l"]⟩) rfl rfl) <| .cons (.text ..) <|
    .cons (.otherwise rfl) <| .cons (.insertion ⟨.inr ⟨rfl, rfl⟩, rfl, rfl⟩) <|
    .cons (.closing hcloses) <| .cons (.text ..) <| .cons (.ignore rfl) <| .cons (.text ..) <|
    .cons (.single hbreak (by decide)) <| .cons (.stop ..) .nil

theorem content_paragraph :
    Content (.startTag paragraphTag :: paragraphContent ++ [.endTag "P" ⟨86, 90⟩]) := by
  have hopens : (Mustache.mk .opening "k as |l|" ⟨40, 53⟩).Opens "k" :=
    ⟨rfl, ⟨{ path := "k" }, ["l"]⟩, rfl, rfl⟩
  have hcloses : (Mustache.mk .closing "k" ⟨69, 75⟩).Closes "k" :=
    ⟨rfl, trimString_eq_iff.1 (by decide)⟩
  have htext : ∀ s span, Token.IsSingle (.text s span) := fun _ _ => trivial
  have hinsertion : Token.IsSingle (.mustache ⟨.unescaped, "n", ⟨62, 69⟩⟩) := .inr (.inl rfl)
  have hcomment : Token.IsSingle (.mustache ⟨.comment, "", ⟨76, 81⟩⟩) := .inr (.inr rfl)
  have hbreak : Token.IsSingle (.startTag ⟨"br", [], [], false, ⟨82, 86⟩⟩) := .inr (by decide)
  have hcontent : Content paragraphContent :=
    .inverse hopens ⟨rfl, by simp⟩ hcloses (.single (htext ..) .nil) (.single hinsertion .nil) <|
      .single (htext ..) <| .single hcomment <| .single (htext ..) <| .single hbreak .nil
  exact .tags (by decide) (by decide) (by decide) hcontent .nil

/-- The tokens of `paragraph` convert and are well-nested, so it is a template, and walking it gives
the tokens back. -/
theorem marks_ofSource_paragraph :
    let tokens := .startTag paragraphTag :: paragraphContent ++ [.endTag "P" ⟨86, 90⟩]
    tokens? .template paragraph = .ok tokens ∧ (∀ token ∈ tokens, token.Converts {}) ∧
      Content tokens ∧ ∃ t, Template.ofSource {} paragraph = .ok t ∧
        bodyMarks t =
          [.start false "p" paragraphAttributes [{ path := "j" }] 0,
            .opening { path := "k" } ["l"] 40, .text "m" ⟨53, 54⟩, .otherwise 54,
            .insertion ⟨{ path := "n" }, false, ⟨62, 69⟩⟩, .closing "k" ⟨69, 75⟩,
            .text "op" ⟨75, 82⟩, .single false "br" [] [] ⟨82, 86⟩, .stop ['p'] 90] := by
  have hconverts := ((List.forall₂_and_left _ _).1
    (leaves_paragraph.imp fun _ _ hleaves => ⟨hleaves.converts, hleaves⟩)).1
  obtain ⟨haccepted, hmarks⟩ := Template.marks_ofSource tokens?_paragraph
  obtain ⟨t, ht⟩ := haccepted.2 ⟨hconverts, content_paragraph⟩
  obtain ⟨marks, hleaves, hbody⟩ := hmarks t ht
  refine ⟨tokens?_paragraph, hconverts, content_paragraph, t, ht, ?_⟩
  have hunique : Relator.RightUnique (Token.Leaves {}) := fun _ _ _ => Token.Leaves.unique
  rw [hbody, List.right_unique_forall₂' hunique hleaves leaves_paragraph]
  rfl

end LiveTemplate
