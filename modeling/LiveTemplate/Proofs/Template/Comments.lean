import LiveTemplate.Proofs.Template.Nesting

/-!
# LiveTemplate.Proofs.Template.Comments

A source read with its comments and without them.

1. Where comments are left out, texts stand next to each other that had comments between them;
   such texts are one (`Node.condensed`).
2. Both readings take the same steps and find the same faults (`Construction.map_step`): what is
   added, opened and closed in one of them is so in the other, and a text is added to the text
   before it if there were only comments between the two.
-/

namespace LiveTemplate

/-! ## nodes without comments -/

def Node.isComment : Node → Bool
  | comment .. => true
  | text .. | insertion _ | element .. | block .. | component .. => false

/-- Puts a node before others.  A text and the text behind it become one. -/
def Node.before : Node → List Node → List Node
  | .text s a, .text t b :: nodes => .text (s ++ t) ⟨a.lo, b.hi⟩ :: nodes
  | node, nodes => node :: nodes

mutual

/-- A node with the comments in it only if `comments`, at any depth, and with texts that stand next
to each other as one. -/
def Node.condensed (comments : Bool) : Node → Node
  | .text s span => .text s span
  | .comment s span => .comment s span
  | .insertion i => .insertion i
  | .element tag children span => .element tag (condensedAll comments children) span
  | .block call body none span => .block call (condensedBody comments body) none span
  | .block call body (some inverse) span =>
    .block call (condensedBody comments body) (some (condensedBody comments inverse)) span
  | .component tag body span => .component tag (condensedBody comments body) span

def condensedBody (comments : Bool) : Body Node → Body Node
  | ⟨children, blockParams, span⟩ => ⟨condensedAll comments children, blockParams, span⟩

/-- Nodes with comments only if `comments`, and with texts that stand next to each other as one. -/
def condensedAll (comments : Bool) : List Node → List Node
  | [] => []
  | node :: nodes =>
    if node.isComment && !comments then condensedAll comments nodes
    else (node.condensed comments).before (condensedAll comments nodes)

end

/-- Adds a text to nodes, last first. -/
def addText (text : String) (span : Span) : List Node → List Node
  | .text before ⟨lo, _⟩ :: nodes => .text (before ++ text) ⟨lo, span.hi⟩ :: nodes
  | nodes => .text text span :: nodes

variable {comments : Bool}

theorem addText_addText (s t : String) (a b : Span) (nodes : List Node) :
    addText t b (addText s a nodes) = addText (s ++ t) ⟨a.lo, b.hi⟩ nodes := by
  rcases nodes with _ | ⟨node, nodes⟩
  · rfl
  cases node with
  | text before span => simp only [addText, String.append_assoc]
  | _ => rfl

theorem addText_cons (text : String) (span : Span) (node : Node) (nodes : List Node) :
    addText text span (node :: nodes) = addText text span [node] ++ nodes := by
  cases node <;> rfl

theorem Node.before_nil (node : Node) : node.before [] = [node] := by cases node <;> rfl

/-- Only the first of some nodes becomes one with a text before them. -/
theorem Node.before_append (node : Node) {nodes : List Node} (h : nodes ≠ []) (more : List Node) :
    node.before (nodes ++ more) = node.before nodes ++ more := by
  obtain ⟨next, nodes, rfl⟩ := List.exists_cons_of_ne_nil h
  cases node with
  | text s a => cases next <;> rfl
  | _ => rfl

/-- It makes no difference whether a text is added behind nodes before or after a node is put before
them. -/
theorem addText_before (text : String) (span : Span) (node : Node) (nodes : List Node) :
    addText text span (node.before nodes).reverse =
      (node.before (addText text span nodes.reverse).reverse).reverse := by
  rcases List.eq_nil_or_concat nodes with rfl | ⟨inner, last, hnodes⟩
  · cases node <;> rfl
  rw [List.concat_eq_append] at hnodes
  subst hnodes
  by_cases hinner : inner = []
  · subst hinner
    cases node with
    | text s a =>
      cases last with
      | text t b =>
        simp only [Node.before, addText, List.nil_append, List.reverse_singleton,
          String.append_assoc]
      | _ => rfl
    | _ => cases last <;> rfl
  · rw [node.before_append hinner, List.reverse_concat, List.reverse_concat, addText_cons,
      addText_cons _ _ _ inner.reverse, List.reverse_append, List.reverse_reverse,
      node.before_append hinner, List.reverse_append, List.reverse_reverse]

/-- A text behind nodes is added to them. -/
theorem condensedAll_text (nodes : List Node) (text : String) (span : Span) :
    condensedAll comments (nodes ++ [.text text span]) =
      (addText text span (condensedAll comments nodes).reverse).reverse := by
  induction nodes with
  | nil => rfl
  | cons node nodes ih =>
    rw [List.cons_append, condensedAll, condensedAll, ih]
    split
    · rfl
    · rw [addText_before, List.reverse_reverse]

/-- Whether a node stays as one behind any others: a text may become one with them, and a comment
is there only if `comments`. -/
def Node.isSolid (comments : Bool) : Node → Bool
  | text .. => false
  | comment .. => comments
  | insertion _ | element .. | block .. | component .. => true

theorem Node.isSolid.not_omitted {node : Node} (h : node.isSolid comments = true) :
    ¬(node.isComment && !comments) = true := by
  cases node with
  | comment s span =>
    obtain rfl : comments = true := h
    exact Bool.false_ne_true
  | _ => exact Bool.false_ne_true

theorem Node.isSolid.condensed {node : Node} (h : node.isSolid comments = true) :
    (node.condensed comments).isSolid comments = true := by
  cases node with
  | block call body inverse span => cases inverse <;> rfl
  | _ => exact h

/-- Only a text becomes one with a text before it. -/
theorem Node.isSolid.before_concat {last : Node} (h : last.isSolid comments = true) (node : Node)
    (nodes : List Node) : node.before (nodes ++ [last]) = node.before nodes ++ [last] := by
  by_cases hnodes : nodes = []
  · subst hnodes
    cases node with
    | text s a =>
      cases last with
      | text t b => cases h
      | _ => rfl
    | _ => rfl
  · exact node.before_append hnodes [last]

theorem condensedAll_concat (nodes : List Node) {node : Node} (h : node.isSolid comments = true) :
    condensedAll comments (nodes ++ [node]) =
      condensedAll comments nodes ++ [node.condensed comments] := by
  induction nodes with
  | nil => exact (if_neg (Node.isSolid.not_omitted h)).trans (Node.before_nil _)
  | cons first nodes ih =>
    rw [List.cons_append, condensedAll, condensedAll, ih]
    split
    · rfl
    · exact Node.isSolid.before_concat (Node.isSolid.condensed h) _ _

/-- A comment behind nodes is left out. -/
theorem condensedAll_comment (nodes : List Node) (text : String) (span : Span) :
    condensedAll false (nodes ++ [.comment text span]) = condensedAll false nodes := by
  induction nodes with
  | nil => rfl
  | cons node nodes ih => rw [List.cons_append, condensedAll, condensedAll, ih]

/-! ## two readings -/

def Opening.condensed (comments : Bool) : Opening → Opening
  | element tag span => element tag span
  | component tag span => component tag span
  | block call blockParams body lo => block call blockParams (body.map (condensedBody comments)) lo

def Frame.condensed (comments : Bool) (frame : Frame) : Frame where
  opening := frame.opening.condensed comments
  before := (condensedAll comments frame.before.reverse).reverse
  ns := frame.ns

namespace Construction

/-- A template under construction with comments only if `comments`, and with texts that stand next
to each other as one. -/
def condensed (comments : Bool) (s : Construction) : Construction where
  nodes := (condensedAll comments s.children).reverse
  ns := s.ns
  frames := s.frames.map (Frame.condensed comments)

variable (s : Construction)

@[simp]
theorem children_condensed : (s.condensed comments).children = condensedAll comments s.children :=
  List.reverse_reverse _

theorem pushText_eq (text : String) (span : Span) :
    s.pushText text span = { s with nodes := addText text span s.nodes } := by
  rcases s with ⟨_ | ⟨node, nodes⟩, ns, frames⟩
  · rfl
  · cases node <;> rfl

/-- A text is added behind nodes, whether or not it becomes one with the last of them. -/
theorem condensedAll_addText (text : String) (span : Span) (nodes : List Node) :
    condensedAll comments (addText text span nodes).reverse =
      (addText text span (condensedAll comments nodes.reverse).reverse).reverse := by
  rcases nodes with _ | ⟨node, nodes⟩
  · exact condensedAll_text [] text span
  cases node with
  | text before span' =>
    rw [addText, List.reverse_cons, List.reverse_cons, condensedAll_text, condensedAll_text,
      List.reverse_reverse, addText_addText]
  | _ => exact (congrArg _ List.reverse_cons).trans (condensedAll_text ..)

theorem condensed_pushText (text : String) (span : Span) :
    (s.pushText text span).condensed comments = (s.condensed comments).pushText text span := by
  rw [pushText_eq, pushText_eq, condensed, children, condensedAll_addText, List.reverse_reverse]
  rfl

theorem condensed_push (node : Node) (h : node.isSolid comments = true) :
    (s.push node).condensed comments = (s.condensed comments).push (node.condensed comments) := by
  rw [condensed, push, children, List.reverse_cons, condensedAll_concat _ h, List.reverse_concat]
  rfl

theorem condensed_comment (text : String) (span : Span) :
    (s.push (.comment text span)).condensed false = s.condensed false := by
  rw [condensed, push, children, List.reverse_cons, condensedAll_comment]
  rfl

theorem condensed_leave (frame : Frame) (frames : List Frame) (node : Node)
    (h : node.isSolid comments = true) :
    (leave frame frames node).condensed comments =
      leave (frame.condensed comments) (frames.map (Frame.condensed comments))
        (node.condensed comments) := by
  rw [condensed, leave, children, List.reverse_cons, condensedAll_concat _ h, List.reverse_concat]
  rfl

/-! ## steps -/

theorem map_startComponent (tag : StartTag) (attributes : List Attribute) :
    (s.startComponent tag attributes).map (condensed comments) =
      (s.condensed comments).startComponent tag attributes := by
  rw [startComponent, startComponent]
  split
  · rfl
  · refine congrArg Except.ok ?_
    split
    · exact s.condensed_push (.component ..) rfl
    · rfl

theorem map_startElement (tag : StartTag) (attributes : List Attribute) :
    (s.startElement tag attributes).map (condensed comments) =
      (s.condensed comments).startElement tag attributes := by
  rw [startElement, startElement]
  cases (withoutComments tag.modifiers).mapM Mustache.modifier with
  | error e => rfl
  | ok modifiers =>
    refine congrArg Except.ok ?_
    dsimp only
    split
    · exact s.condensed_push (.element ..) rfl
    · rfl

theorem map_startTag (options : TemplateOptions) (tag : StartTag) :
    (s.startTag { options with keepComments := true } tag).map
        (condensed options.keepComments) =
      (s.condensed options.keepComments).startTag options tag := by
  rw [startTag, startTag]
  cases tag.attributes.mapM Attribute.ofRaw with
  | error e => rfl
  | ok attributes =>
    show Except.map _ (ite _ _ _) = ite _ _ _
    split
    · exact s.map_startComponent tag attributes
    · exact s.map_startElement tag attributes

theorem map_endTag (name : String) (span : Span) :
    (s.endTag name span).map (condensed comments) = (s.condensed comments).endTag name span := by
  rw [endTag, endTag]
  split
  · rfl
  rw [children_condensed]
  rcases s with ⟨nodes, ns, _ | ⟨⟨opening, before, ns'⟩, frames⟩⟩
  · rfl
  cases opening with
  | element tag start =>
    show Except.map _ (ite (sameTag tag.name name = true) _ _) = ite _ _ _
    split
    · exact congrArg Except.ok (condensed_leave _ _ (.element ..) rfl)
    · rfl
  | component tag start =>
    show Except.map _ (ite (sameTag tag.name name = true) _ _) = ite _ _ _
    split
    · exact congrArg Except.ok (condensed_leave _ _ (.component ..) rfl)
    · rfl
  | block call blockParams body lo => rfl

theorem map_insert (m : Mustache) :
    (s.insert m).map (condensed comments) = (s.condensed comments).insert m := by
  rw [insert, insert]
  cases m.insertion with
  | error e => rfl
  | ok i => exact congrArg Except.ok (s.condensed_push (.insertion i) rfl)

theorem map_openBlock (m : Mustache) :
    (s.openBlock m).map (condensed comments) = (s.condensed comments).openBlock m := by
  rw [openBlock, openBlock]
  cases Expression.ofContent m.content m.span with
  | error e => rfl
  | ok e => rfl

theorem map_otherwise (m : Mustache) :
    (s.otherwise m).map (condensed comments) = (s.condensed comments).otherwise m := by
  rw [otherwise, otherwise, children_condensed]
  rcases s with ⟨nodes, ns, _ | ⟨⟨opening, before, ns'⟩, frames⟩⟩
  · rfl
  cases opening with
  | element tag start => rfl
  | component tag start => rfl
  | block call blockParams body lo =>
    cases body with
    | none =>
      show Except.map _ (ite ((trimString m.content).isEmpty = true) _ _) = ite _ _ _
      split <;> rfl
    | some body => rfl

theorem map_closeBlock (m : Mustache) :
    (s.closeBlock m).map (condensed comments) = (s.condensed comments).closeBlock m := by
  rw [closeBlock, closeBlock, children_condensed]
  rcases s with ⟨nodes, ns, _ | ⟨⟨opening, before, ns'⟩, frames⟩⟩
  · rfl
  cases opening with
  | element tag start => rfl
  | component tag start => rfl
  | block call blockParams body lo =>
    show Except.map _ (ite (call.path = trimString m.content) _ _) = ite _ _ _
    split
    · cases body with
      | none => exact congrArg Except.ok (condensed_leave _ _ (.block ..) rfl)
      | some body => exact congrArg Except.ok (condensed_leave _ _ (.block ..) rfl)
    · rfl

/-- Comments make no difference to what a token does. -/
theorem map_step (options : TemplateOptions) (token : Token) :
    (s.step { options with keepComments := true } token).map (condensed options.keepComments) =
      (s.condensed options.keepComments).step options token := by
  cases token with
  | text text span => exact congrArg Except.ok (s.condensed_pushText text span)
  | comment text span =>
    refine congrArg Except.ok ?_
    show condensed _ (s.push (.comment text span)) = ite _ _ _
    split
    · next hkeep => exact s.condensed_push (.comment ..) hkeep
    · next hdrop => rw [Bool.eq_false_iff.2 hdrop, condensed_comment]
  | startTag tag => exact s.map_startTag options tag
  | endTag name span => exact s.map_endTag name span
  | mustache m =>
    rw [step, step]
    split
    · rfl
    · exact s.map_insert m
    · exact s.map_insert m
    · exact s.map_openBlock m
    · exact s.map_otherwise m
    · exact s.map_closeBlock m

/-- Comments make no difference to what tokens do, one after the other. -/
theorem map_run (options : TemplateOptions) (tokens : List Token) :
    (run { options with keepComments := true } tokens s).map (condensed options.keepComments) =
      run options tokens (s.condensed options.keepComments) := by
  induction tokens generalizing s with
  | nil => rfl
  | cons token tokens ih =>
    rw [run, run, List.foldlM_cons, List.foldlM_cons, ← map_step]
    cases s.step { options with keepComments := true } token with
    | error e => rfl
    | ok s' => exact ih s'

theorem map_finish (length : Nat) :
    (s.finish length).map (condensedBody comments) = (s.condensed comments).finish length := by
  rw [finish, finish, children_condensed]
  rcases s with ⟨nodes, ns, _ | ⟨⟨opening, before, ns'⟩, frames⟩⟩
  · rfl
  · cases opening <;> rfl

end Construction

/-- A source read without comments gives the template that is read with them, less the comments, at
any depth, and with texts as one that had only comments between them; and it has the same fault, if
it has any.  With comments nothing changes, since no two texts stand next to each other in what is
read. -/
theorem Template.ofSource_eq_map_condensedBody (options : TemplateOptions) (source : String) :
    Template.ofSource options source =
      (Template.ofSource { options with keepComments := true } source).map
        (condensedBody options.keepComments) := by
  have hrun : _ = Construction.run options (Reading.ofSource .template source).tokens {} :=
    Construction.map_run {} options _
  rw [Construction.run, Construction.run] at hrun
  rw [ofSource, ofSource, ofReading, ofReading, ← hrun]
  cases (Reading.ofSource .template source).tokens.foldlM
    (Construction.step { options with keepComments := true }) {} with
  | error e => rfl
  | ok s =>
    cases (Reading.ofSource .template source).error? with
    | some e => rfl
    | none => exact (s.map_finish _).symm

end LiveTemplate
