import LiveTemplate.Proofs.Dom.Outline
import LiveTemplate.Proofs.Dom.RoundTrip
import LiveTemplate.Proofs.Template.Nesting

/-!
# LiveTemplate.Proofs.Dom.Nested

HTML read in two ways.

A document reads HTML leniently (`Builder.html`): an end tag closes the innermost element of
exactly its name, and void tags are void in XHTML only.  Templates are nested: void tags
have no content in any namespace, and an end tag closes what is innermost
(`Builder.nested`).  Both make the same trees of tokens exactly if they add every node at
the same depth (`foldl_html_eq_foldl_nested_iff`), and they do so if void tags stand in
XHTML and end tags repeat the names of their start tags (`Undisputed`).
-/

namespace LiveTemplate

/-- The node that a token adds below a node that hands down `inherited`. -/
def Token.data? (inherited : Namespace) : Token → Option NodeData
  | .startTag tag => some (.ofStartTag tag inherited)
  | .text s _ => some (.text s)
  | .comment s _ => some (.comment s)
  | .endTag .. | .mustache _ => none

namespace Builder

variable {root : Namespace} {b b' : Builder}

/-- Adds a token of a template. -/
def nested (root : Namespace) (b : Builder) : Token → Builder
  | .startTag tag =>
    let data := NodeData.ofStartTag tag (b.inherited root)
    if tag.selfClosing || isVoidTag tag.name then b.leaf data else b.enter data
  | .endTag .. => b.leave
  | .text s _ => b.leaf (.text s)
  | .comment s _ => b.leaf (.comment s)
  | .mustache _ => b

/-! ## depths -/

/-- The line that a token adds to the outline. -/
def lines (root : Namespace) (b : Builder) (token : Token) : List (Nat × NodeData) :=
  ((token.data? (b.inherited root)).map fun data => (b.depth, data)).toList

theorem outline_html (root : Namespace) (b : Builder) (token : Token) :
    (b.html root token).outline = b.outline ++ b.lines root token := by
  cases token with
  | startTag tag =>
    rw [html]
    split
    · exact b.outline_enter _
    · exact b.outline_leaf _
  | endTag name span => exact (b.outline_leaveThrough _).trans (List.append_nil _).symm
  | text s span => exact b.outline_leaf _
  | comment s span => exact b.outline_leaf _
  | mustache m => exact (List.append_nil _).symm

theorem outline_nested (root : Namespace) (b : Builder) (token : Token) :
    (b.nested root token).outline = b.outline ++ b.lines root token := by
  cases token with
  | startTag tag =>
    rw [nested]
    split
    · exact b.outline_leaf _
    · exact b.outline_enter _
  | endTag name span => exact b.outline_leave.trans (List.append_nil _).symm
  | text s span => exact b.outline_leaf _
  | comment s span => exact b.outline_leaf _
  | mustache m => exact (List.append_nil _).symm

/-- Tokens add lines at the end of the outline. -/
theorem outline_prefix_foldl {step : Builder → Token → Builder}
    (hstep : ∀ b token, (step b token).outline = b.outline ++ b.lines root token)
    (tokens : List Token) (b : Builder) : b.outline <+: (tokens.foldl step b).outline := by
  induction tokens generalizing b with
  | nil => exact List.prefix_refl _
  | cons token tokens ih =>
    exact (hstep b token ▸ List.prefix_append _ _).trans (ih (step b token))

/-- Whether both readings add every node at the same depth. -/
def SameDepths (root : Namespace) (b b' : Builder) : List Token → Prop
  | [] => True
  | token :: tokens =>
    ((token.data? root).isSome → b.depth = b'.depth) ∧
      SameDepths root (b.html root token) (b'.nested root token) tokens

theorem isSome_data? (token : Token) (inherited inherited' : Namespace) :
    (token.data? inherited).isSome = (token.data? inherited').isSome := by
  cases token <;> rfl

/-- A token that adds its node at the same depth adds the same line. -/
theorem lines_congr {token : Token} (houtline : b.outline = b'.outline)
    (hdepth : (token.data? root).isSome → b.depth = b'.depth) :
    b.lines root token = b'.lines root token := by
  rw [lines, lines]
  by_cases hsome : (token.data? root).isSome
  · rw [inherited_congr root houtline (hdepth hsome), hdepth hsome]
  · have hnone : ∀ inherited, token.data? inherited = none := by
      intro inherited
      rw [← Option.not_isSome_iff_eq_none, isSome_data? token _ root]
      exact hsome
    rw [hnone, hnone]
    rfl

/-- A token that adds a node adds a line at the depth of what is open. -/
theorem exists_lines_eq {token : Token} (hsome : (token.data? root).isSome) (b : Builder) :
    ∃ data, b.lines root token = [(b.depth, data)] := by
  obtain ⟨data, hdata⟩ := Option.isSome_iff_exists.1
    ((isSome_data? token (b.inherited root) root).trans hsome)
  exact ⟨data, by rw [lines, hdata]; rfl⟩

/-- The outlines stay the same as long as nodes are added at the same depth, and no longer. -/
theorem outline_foldl_eq_iff (houtline : b.outline = b'.outline) (tokens : List Token) :
    (tokens.foldl (html root) b).outline = (tokens.foldl (nested root) b').outline ↔
      SameDepths root b b' tokens := by
  induction tokens generalizing b b' with
  | nil => exact iff_of_true houtline trivial
  | cons token tokens ih =>
    have hhtml := outline_html root b token
    have hnested := outline_nested root b' token
    rw [List.foldl_cons, List.foldl_cons, SameDepths]
    by_cases hdepth : (token.data? root).isSome → b.depth = b'.depth
    · rw [ih (by rw [hhtml, hnested, houtline, lines_congr houtline hdepth])]
      exact (and_iff_right hdepth).symm
    · refine iff_of_false (fun heq => hdepth fun hsome => ?_) fun h => hdepth h.1
      -- Both outlines have got one line more, and what comes later stands behind it.
      obtain ⟨data, hlines⟩ := exists_lines_eq hsome b
      obtain ⟨data', hlines'⟩ := exists_lines_eq hsome b'
      rw [hlines, houtline] at hhtml
      rw [hlines'] at hnested
      have hbehind := outline_prefix_foldl (outline_html root) tokens (b.html root token)
      have hbehind' := outline_prefix_foldl (outline_nested root) tokens (b'.nested root token)
      rw [hhtml] at hbehind
      rw [← heq, hnested] at hbehind'
      have hlength : (b'.outline ++ [(b.depth, data)]).length =
          (b'.outline ++ [(b'.depth, data')]).length := by
        rw [List.length_append, List.length_append]
        rfl
      have hsame := (List.prefix_of_prefix_length_le hbehind hbehind'
        (Nat.le_of_eq hlength)).eq_of_length hlength
      exact congrArg Prod.fst (List.singleton_inj.1 (List.append_cancel_left hsame))

/-- Both readings make the same trees of tokens if they add every node at the same depth, and only
then. -/
theorem foldl_html_eq_foldl_nested_iff (root : Namespace) (tokens : List Token) :
    (tokens.foldl (html root) {}).finish = (tokens.foldl (nested root) {}).finish ↔
      SameDepths root {} {} tokens := by
  rw [finish_eq_iff, outline_foldl_eq_iff rfl]

end Builder

/-! ## tags without a dispute -/

/-- Tokens, below a node that hands down a namespace, in which tags that open nothing end with a
slash or stand in XHTML, and every end tag repeats the name of its start tag. -/
inductive Undisputed : Namespace → List Token → Prop where
  | nil {ns : Namespace} : Undisputed ns []
  | text {ns : Namespace} {rest : List Token} (s : String) (span : Span)
    (hrest : Undisputed ns rest) : Undisputed ns (.text s span :: rest)
  | comment {ns : Namespace} {rest : List Token} (s : String) (span : Span)
    (hrest : Undisputed ns rest) : Undisputed ns (.comment s span :: rest)
  | single {ns : Namespace} {tag : StartTag} {rest : List Token} (hsingle : tag.IsSingle)
    (hleaf : tag.selfClosing = true ∨ Namespace.ofElement tag.name ns = .xhtml)
    (hrest : Undisputed ns rest) : Undisputed ns (.startTag tag :: rest)
  | tags {ns : Namespace} {tag : StartTag} {inside rest : List Token} (span : Span)
    (hopen : ¬tag.IsSingle)
    (hinside : Undisputed ((Namespace.ofElement tag.name ns).below tag.name) inside)
    (hrest : Undisputed ns rest) :
    Undisputed ns (.startTag tag :: inside ++ .endTag tag.name span :: rest)

namespace Builder

variable {root ns : Namespace}

theorem html_of_isSingle {tag : StartTag} {b : Builder} (hinherited : b.inherited root = ns)
    (hsingle : tag.IsSingle)
    (hleaf : tag.selfClosing = true ∨ Namespace.ofElement tag.name ns = .xhtml) :
    b.html root (.startTag tag) = b.leaf (.ofStartTag tag ns) := by
  have hcontent : ((NodeData.ofStartTag tag ns).hasContent && !tag.selfClosing) = false := by
    cases hclosing : tag.selfClosing with
    | true => exact Bool.and_false _
    | false =>
      rw [← StartTag.isSingle_iff, hclosing, Bool.false_or] at hsingle
      have hns := hleaf.resolve_left (by simp [hclosing])
      simp [NodeData.ofStartTag, NodeData.hasContent, hns, hsingle]
  rw [html, hinherited]
  exact if_neg (Bool.eq_false_iff.1 hcontent)

theorem html_of_not_isSingle {tag : StartTag} {b : Builder} (hinherited : b.inherited root = ns)
    (hopen : ¬tag.IsSingle) :
    b.html root (.startTag tag) = b.enter (.ofStartTag tag ns) := by
  rw [← StartTag.isSingle_iff, Bool.not_eq_true, Bool.or_eq_false_iff] at hopen
  have hcontent : ((NodeData.ofStartTag tag ns).hasContent && !tag.selfClosing) = true := by
    simp [NodeData.ofStartTag, NodeData.hasContent, hopen.1, hopen.2]
  rw [html, hinherited]
  exact if_pos hcontent

/-- Where there is no dispute both readings add the same trees. -/
theorem exists_foldl_of_undisputed (root : Namespace) {tokens : List Token}
    (h : Undisputed ns tokens) :
    ∃ trees : List Markup, ∀ b : Builder, b.inherited root = ns →
      tokens.foldl (html root) b = { b with nodes := trees ++ b.nodes } ∧
        tokens.foldl (nested root) b = { b with nodes := trees ++ b.nodes } := by
  induction h with
  | nil => exact ⟨[], fun b _ => ⟨rfl, rfl⟩⟩
  | text s span hrest ih =>
    obtain ⟨trees, ih⟩ := ih
    refine ⟨trees ++ [.node () (.text s) []], fun b hb => ?_⟩
    rw [List.append_assoc]
    exact ih (b.leaf (.text s)) hb
  | comment s span hrest ih =>
    obtain ⟨trees, ih⟩ := ih
    refine ⟨trees ++ [.node () (.comment s) []], fun b hb => ?_⟩
    rw [List.append_assoc]
    exact ih (b.leaf (.comment s)) hb
  | @single ns tag rest hsingle hleaf hrest ih =>
    obtain ⟨trees, ih⟩ := ih
    refine ⟨trees ++ [.node () (.ofStartTag tag ns) []], fun b hb => ?_⟩
    have hnested : b.nested root (.startTag tag) = b.leaf (.ofStartTag tag ns) := by
      rw [nested, hb]
      exact if_pos (StartTag.isSingle_iff.2 hsingle)
    rw [List.foldl_cons, List.foldl_cons, html_of_isSingle hb hsingle hleaf, hnested,
      List.append_assoc]
    exact ih (b.leaf (.ofStartTag tag ns)) hb
  | @tags ns tag inside rest span hopen hinside hrest ihinside ih =>
    obtain ⟨kids, ihinside⟩ := ihinside
    obtain ⟨trees, ih⟩ := ih
    let data := NodeData.ofStartTag tag ns
    refine ⟨trees ++ [.node () data kids.reverse], fun b hb => ?_⟩
    have hnested : b.nested root (.startTag tag) = b.enter data := by
      rw [nested, hb]
      exact if_neg (mt StartTag.isSingle_iff.1 hopen)
    obtain ⟨hhtml, hnested'⟩ := ihinside (b.enter data) rfl
    -- Both builders are back where the tag was opened, with one node more.
    have hleave : ({ b.enter data with nodes := kids ++ (b.enter data).nodes } : Builder).leave =
        { b with nodes := .node () data kids.reverse :: b.nodes } := by
      have h := leave_enter b data kids.reverse
      rw [List.reverse_reverse] at h
      rw [← h]
      exact congrArg (fun nodes => ({ b.enter data with nodes } : Builder).leave)
        (List.append_nil kids)
    rw [List.cons_append, List.foldl_cons, List.foldl_cons, List.foldl_append, List.foldl_append,
      List.foldl_cons, List.foldl_cons, html_of_not_isSingle hb hopen, hnested, hhtml, hnested',
      html_endTag root span ⟨⟨data, b.nodes⟩, rfl, rfl⟩ rfl, nested, hleave, List.append_assoc]
    exact ih { b with nodes := .node () data kids.reverse :: b.nodes } hb

/-- Where there is no dispute every node is added at the same depth. -/
theorem sameDepths_of_undisputed {tokens : List Token} (h : Undisputed root tokens) :
    SameDepths root {} {} tokens := by
  obtain ⟨trees, hfold⟩ := exists_foldl_of_undisputed root h
  obtain ⟨hhtml, hnested⟩ := hfold {} rfl
  exact (outline_foldl_eq_iff rfl tokens).1 (by rw [hhtml, hnested])

end Builder

end LiveTemplate
