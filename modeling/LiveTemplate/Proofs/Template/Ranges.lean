import LiveTemplate.Proofs.Markup.Tiling
import LiveTemplate.Proofs.Template.Nesting

/-!
# LiveTemplate.Proofs.Template.Ranges

The ranges of the nodes of a template.

The tokens of a source stand one behind the other, and every token puts its node, or what it
opens, behind all that was read before it.  So the nodes since the innermost opening ascend from
the end of the token that opened it to the end of the last token (`Construction.StandsAt`), and
what is closed encloses them.
-/

namespace LiveTemplate

/-! ## ranges -/

namespace Span

variable {a b span : Span} {source s t : List Char}

/-- A range covers a part of a source that begins and ends with these marks. -/
def Bounded (span : Span) (source opening closing : List Char) : Prop :=
  ∃ inside, span.Covers source (opening ++ inside ++ closing)

theorem IsPart.lo_lt_hi (h : span.IsPart source) : span.lo < span.hi := by
  obtain ⟨slice, hne, before, after, -, rfl⟩ := h
  have hpos := byteLength_pos hne
  show byteLength before < byteLength before + byteLength slice
  omega

/-- From where one range begins to where a later one ends a source is covered, too. -/
theorem Covers.hull (ha : a.Covers source s) (hb : b.Covers source t) (hbefore : a.Before b) :
    ∃ inside, Covers ⟨a.lo, b.hi⟩ source (s ++ inside ++ t) := by
  obtain ⟨x, y, hx, rfl⟩ := ha
  obtain ⟨u, v, hu, rfl⟩ := hb
  have hle : byteLength x + byteLength s ≤ byteLength u := hbefore
  obtain ⟨inside, hinside⟩ : x ++ s <+: u := by
    have hfirst : x ++ s <+: source := ⟨y, hx.symm⟩
    have hsecond : u <+: source := ⟨t ++ v, by rw [hu, List.append_assoc]⟩
    rcases List.prefix_or_prefix_of_prefix hfirst hsecond with hprefix | ⟨more, hmore⟩
    · exact hprefix
    · have hlength := congrArg byteLength hmore
      rw [byteLength_append, byteLength_append] at hlength
      have hnil : more = [] := by
        by_contra hne
        have hpos := byteLength_pos hne
        omega
      rw [hnil, List.append_nil] at hmore
      exact hmore ▸ List.prefix_rfl
  refine ⟨inside, x, v, ?_, ?_⟩
  · rw [hu, ← hinside]
    simp
  · rw [← hinside]
    simp [Nat.add_assoc]

/-- From where a range begins to the end a source is covered, too. -/
theorem Covers.toStop (h : a.Covers source s) :
    ∃ rest, Covers ⟨a.lo, byteLength source⟩ source (s ++ rest) := by
  obtain ⟨before, after, hsource, rfl⟩ := h
  refine ⟨after, before, [], by simp [hsource], ?_⟩
  rw [hsource]
  simp

theorem IsPart.hull (ha : a.IsPart source) (hb : b.IsPart source) (hbefore : a.Before b) :
    IsPart ⟨a.lo, b.hi⟩ source := by
  obtain ⟨s, hs, ha⟩ := ha
  obtain ⟨t, -, hb⟩ := hb
  obtain ⟨inside, hcovers⟩ := ha.hull hb hbefore
  exact ⟨_, by simp [hs], hcovers⟩

theorem IsPart.toStop (h : a.IsPart source) : IsPart ⟨a.lo, byteLength source⟩ source := by
  obtain ⟨s, hs, h⟩ := h
  obtain ⟨rest, hcovers⟩ := h.toStop
  exact ⟨_, by simp [hs], hcovers⟩

end Span

/-! ## nodes -/

/-- The nodes directly inside a node: those of its body, then those behind `else`. -/
def Node.nested : Node → List Node
  | .element _ children _ => children
  | .component _ body _ => body.children
  | .block _ body inverse _ => body.children ++ (inverse.map Body.children).getD []
  | .text .. | .comment .. | .insertion _ => []

/-- A node is another one, or stands somewhere inside it. -/
inductive Node.Encloses (top : Node) : Node → Prop where
  | refl : Encloses top top
  | nested {node child : Node} (h : Encloses top node) (hchild : child ∈ node.nested) :
    Encloses top child

/-- The tokens of the source of a template. -/
def templateTokens (source : String) : List Token := (Reading.ofSource .template source).tokens

/-- An element or a component begins where its start tag does and ends where its end tag does, and
its children stand between the two.  Without an end tag it ends with its start tag. -/
structure IsTagged (source name : String) (attributes : List Attribute) (children : List Node)
    (span : Span) : Prop where
  bounded : span.Bounded source.toList ('<' :: name.toList) ['>']
  startTag : ∃ start : StartTag, .startTag start ∈ templateTokens source ∧ start.name = name ∧
    start.span.lo = span.lo ∧ (∀ a ∈ attributes, a.span.Inside start.span) ∧
      ∀ child ∈ children, start.span.Before child.span
  endTag : (∃ start : StartTag, .startTag start ∈ templateTokens source ∧ start.span = span) ∨
    ∃ found stop, .endTag found stop ∈ templateTokens source ∧ SameName name found ∧
      stop.hi = span.hi ∧ ∀ child ∈ children, child.span.Before stop
  attributes : attributes.Pairwise fun a b => a.span.Before b.span

/-- A block begins where the mustache does that opens it and ends where the one does that closes
it, and its nodes stand between the two. -/
structure IsBetweenMustaches (source path : String) (nodes : List Node) (span : Span) : Prop where
  bounded : span.Bounded source.toList ['{', '{'] ['}', '}']
  opening : ∃ m, .mustache m ∈ templateTokens source ∧ m.Opens path ∧ m.span.lo = span.lo ∧
    ∀ node ∈ nodes, m.span.Before node.span
  closing : ∃ m, .mustache m ∈ templateTokens source ∧ m.Closes path ∧ m.span.hi = span.hi ∧
    ∀ node ∈ nodes, node.span.Before m.span

/-- A node that holds others stands between the tokens that open and close it. -/
def Node.IsDelimited (source : String) (node : Node) : Prop :=
  match node with
  | .element tag _ span => IsTagged source tag.name tag.attributes node.nested span
  | .component tag _ span => IsTagged source tag.name tag.attributes node.nested span
  | .block call _ _ span => IsBetweenMustaches source call.path node.nested span
  | .text .. | .comment .. | .insertion _ => True

/-- A node covers a part of its source, and the nodes directly inside it ascend within. -/
structure Node.IsPlaced (source : String) (node : Node) : Prop where
  isPart : node.span.IsPart source.toList
  inside : ∀ child ∈ node.nested, child.span.Inside node.span
  ascending : node.nested.Pairwise fun a b => a.span.Before b.span
  isDelimited : node.IsDelimited source

/-- All nodes in a node are placed. -/
def Node.Nests (source : String) (node : Node) : Prop :=
  ∀ other, node.Encloses other → other.IsPlaced source

theorem Node.Encloses.eq_or_nested {top node : Node} (h : top.Encloses node) :
    node = top ∨ ∃ child ∈ top.nested, child.Encloses node := by
  induction h with
  | refl => exact .inl rfl
  | nested h hchild ih =>
    rcases ih with rfl | ⟨between, hbetween, hencloses⟩
    · exact .inr ⟨_, hchild, .refl⟩
    · exact .inr ⟨between, hbetween, hencloses.nested hchild⟩

theorem Node.IsPlaced.nests {source : String} {node : Node} (h : node.IsPlaced source)
    (hnested : ∀ child ∈ node.nested, child.Nests source) : node.Nests source := by
  intro other hother
  rcases hother.eq_or_nested with rfl | ⟨child, hchild, hencloses⟩
  · exact h
  · exact hnested child hchild other hencloses

/-- A node without others inside it is placed where it covers something. -/
theorem Node.nests_of_isPart {source : String} {node : Node} (hnested : node.nested = [])
    (hpart : node.span.IsPart source.toList) (hdelimited : node.IsDelimited source) :
    node.Nests source :=
  Node.IsPlaced.nests ⟨hpart, by simp [hnested], by simp [hnested], hdelimited⟩ (by simp [hnested])

/-! ## lists of nodes -/

/-- Nodes stand one behind the other, between two positions. -/
structure Ascends (source : String) (lo : Nat) (nodes : List Node) (hi : Nat) : Prop where
  le : lo ≤ hi
  within : ∀ node ∈ nodes, lo ≤ node.span.lo ∧ node.span.hi ≤ hi
  ascending : nodes.Pairwise fun a b => a.span.Before b.span
  nests : ∀ node ∈ nodes, node.Nests source

namespace Ascends

variable {source : String} {lo hi : Nat} {nodes : List Node}

theorem nil (h : lo ≤ hi) : Ascends source lo [] hi := ⟨h, by simp, .nil, by simp⟩

theorem mono (h : Ascends source lo nodes hi) {hi' : Nat} (hle : hi ≤ hi') :
    Ascends source lo nodes hi' :=
  ⟨h.le.trans hle, fun node hnode => ⟨(h.within node hnode).1, (h.within node hnode).2.trans hle⟩,
    h.ascending, h.nests⟩

/-- Nodes that follow others go on where these end. -/
theorem append {mid mid' : Nat} {nodes' : List Node} (h : Ascends source lo nodes mid)
    (hle : mid ≤ mid') (h' : Ascends source mid' nodes' hi) :
    Ascends source lo (nodes ++ nodes') hi where
  le := h.le.trans (hle.trans h'.le)
  within := by
    intro node hnode
    have hle' := h'.le
    have hle'' := h.le
    rcases List.mem_append.1 hnode with hnode | hnode
    · have hwithin := h.within node hnode
      omega
    · have hwithin := h'.within node hnode
      omega
  ascending := by
    refine List.pairwise_append.2 ⟨h.ascending, h'.ascending, fun a ha b hb => ?_⟩
    exact (h.within a ha).2.trans (hle.trans (h'.within b hb).1)
  nests := List.forall_mem_append.2 ⟨h.nests, h'.nests⟩

theorem singleton {node : Node} (h : node.Nests source) :
    Ascends source node.span.lo [node] node.span.hi :=
  ⟨(h node .refl).isPart.lo_lt_hi.le, by simp, by simp, by simpa using h⟩

/-- A node that stands behind all others goes to their end. -/
theorem concat (h : Ascends source lo nodes hi) {node : Node} (hlo : hi ≤ node.span.lo)
    (hnode : node.Nests source) : Ascends source lo (nodes ++ [node]) node.span.hi :=
  h.append hlo (singleton hnode)

/-- What stands in front of the last node. -/
theorem init {node : Node} (h : Ascends source lo (nodes ++ [node]) hi) :
    Ascends source lo nodes node.span.lo where
  le := (h.within node (by simp)).1
  within a ha := ⟨(h.within a (by simp [ha])).1,
    (List.pairwise_append.1 h.ascending).2.2 a ha node (by simp)⟩
  ascending := (List.pairwise_append.1 h.ascending).1
  nests a ha := h.nests a (by simp [ha])

end Ascends

section Closing

variable {source : String} {a b : Span} {node : Node}

/-- A node is placed from where one token begins to where another one ends, if the nodes inside
ascend between the two. -/
theorem Ascends.nests_of_between (h : Ascends source a.hi node.nested b.lo)
    (hspan : node.span = ⟨a.lo, b.hi⟩) (ha : a.IsPart source.toList) (hb : b.IsPart source.toList)
    (hdelimited : node.IsDelimited source) : node.Nests source := by
  refine Node.IsPlaced.nests ⟨?_, fun child hchild => ?_, h.ascending, hdelimited⟩ h.nests
  · rw [hspan]
    exact ha.hull hb h.le
  · obtain ⟨hlo, hhi⟩ := h.within child hchild
    rw [hspan]
    exact ⟨ha.lo_lt_hi.trans_le hlo, hhi.trans_lt hb.lo_lt_hi⟩

end Closing

/-! ## what is open -/

section Tokens

variable {source : String}

theorem isTiling_template (source : String) :
    (Reading.ofSource .template source).IsTiling source.toList 0 :=
  isTiling_readTokens .template (.refl _)

/-- A token of a source covers the text it was read from. -/
theorem covers_of_mem {token : Token} (h : token ∈ templateTokens source) :
    ∃ slice, slice ≠ [] ∧ token.span.Covers source.toList slice ∧ token.IsReadFrom slice :=
  (isTiling_template source).covers token h

theorem isPart_of_mem {token : Token} (h : token ∈ templateTokens source) :
    token.span.IsPart source.toList := by
  obtain ⟨slice, hne, hcovers, -⟩ := covers_of_mem h
  exact ⟨slice, hne, hcovers⟩

/-- The attributes that were made of those of a start tag stand inside it, in this order. -/
theorem attributes_of_mapM {start : StartTag} (h : .startTag start ∈ templateTokens source)
    {attributes : List Attribute}
    (hattributes : start.attributes.mapM Attribute.ofRaw = .ok attributes) :
    (∀ a ∈ attributes, a.span.Inside start.span) ∧
      attributes.Pairwise fun a b => a.span.Before b.span := by
  have hlaid := (isTiling_template source).isLaidOut start h
  have hspans : attributes.map Attribute.span = start.attributes.map RawAttribute.span := by
    refine map_of_mapM (fun raw a ha => ?_) hattributes
    obtain ⟨parts, -, ha⟩ := exists_of_bind_eq_ok ha
    cases ha
    rfl
  constructor
  · intro a ha
    obtain ⟨raw, hraw, heq⟩ := List.mem_map.1 (hspans ▸ List.mem_map_of_mem ha)
    exact heq ▸ (hlaid.attributeInside raw hraw).1
  · have hraws : (start.attributes.map RawAttribute.span).Pairwise Span.Before :=
      List.pairwise_map.2 hlaid.attributes
    rw [← hspans] at hraws
    exact List.pairwise_map.1 hraws

/-- A start tag begins an element or a component that has its name and its attributes. -/
structure StartTag.Begins (start : StartTag) (source name : String) (attributes : List Attribute) :
    Prop where
  mem : .startTag start ∈ templateTokens source
  name_eq : start.name = name
  attributes : start.attributes.mapM Attribute.ofRaw = .ok attributes

variable {start : StartTag} {name : String} {attributes : List Attribute}

/-- A start tag that has no end tag is an element or a component. -/
theorem StartTag.Begins.isTagged_single (h : start.Begins source name attributes) :
    IsTagged source name attributes [] start.span := by
  obtain ⟨slice, -, hcovers, inside, rfl⟩ := covers_of_mem h.mem
  obtain ⟨hinside, hascending⟩ := attributes_of_mapM h.mem h.attributes
  obtain rfl := h.name_eq
  exact ⟨⟨inside, hcovers⟩, ⟨start, h.mem, rfl, rfl, hinside, by simp⟩, .inl ⟨start, h.mem, rfl⟩,
    hascending⟩

/-- From a start tag to its end tag stands an element or a component. -/
theorem StartTag.Begins.isTagged (h : start.Begins source name attributes) {found : String}
    {stop : Span} (hstop : .endTag found stop ∈ templateTokens source)
    (hsame : SameName name found) {children : List Node}
    (hchildren : Ascends source start.span.hi children stop.lo) :
    IsTagged source name attributes children ⟨start.span.lo, stop.hi⟩ := by
  obtain ⟨slice, -, hcovers, inside, rfl⟩ := covers_of_mem h.mem
  obtain ⟨slice', -, hcovers', blanks, -, rfl⟩ := covers_of_mem hstop
  obtain ⟨between, hwhole⟩ := hcovers.hull hcovers' hchildren.le
  obtain ⟨hinside, hascending⟩ := attributes_of_mapM h.mem h.attributes
  obtain rfl := h.name_eq
  refine ⟨⟨inside ++ ['>'] ++ between ++ ['<', '/'] ++ found.toList ++ blanks, ?_⟩,
    ⟨start, h.mem, rfl, rfl, hinside, fun child hchild => (hchildren.within child hchild).1⟩,
    .inr ⟨found, stop, hstop, hsame, rfl, fun child hchild => (hchildren.within child hchild).2⟩,
    hascending⟩
  simpa [Token.span] using hwhole

/-- From a mustache that opens a block to the one that closes it the block stands. -/
theorem isBetweenMustaches {m closing : Mustache} {path : String}
    (hm : .mustache m ∈ templateTokens source) (hopens : m.Opens path)
    (hclosing : .mustache closing ∈ templateTokens source) (hcloses : closing.Closes path)
    {nodes : List Node} (hnodes : Ascends source m.span.hi nodes closing.span.lo) :
    IsBetweenMustaches source path nodes ⟨m.span.lo, closing.span.hi⟩ := by
  obtain ⟨slice, -, hcovers, before, after, rfl⟩ := covers_of_mem hm
  obtain ⟨slice', -, hcovers', before', after', rfl⟩ := covers_of_mem hclosing
  obtain ⟨between, hwhole⟩ := hcovers.hull hcovers' hnodes.le
  refine ⟨⟨before ++ m.content.toList ++ after ++ ['}', '}'] ++ between ++ ['{', '{'] ++ before' ++
      closing.content.toList ++ after', ?_⟩,
    ⟨m, hm, hopens, rfl, fun node hnode => (hnodes.within node hnode).1⟩,
    ⟨closing, hclosing, hcloses, rfl, fun node hnode => (hnodes.within node hnode).2⟩⟩
  simpa [Token.span] using hwhole

end Tokens

/-- What is open was opened by a token, and its content begins behind that token or behind
`else`. -/
inductive Opening.OpensAt (source : String) : Opening → Nat → Prop where
  | element {tag : ElementTag} {start : StartTag}
    (h : start.Begins source tag.name tag.attributes) :
    OpensAt source (.element tag start.span) start.span.hi
  | component {tag : ComponentTag} {start : StartTag}
    (h : start.Begins source tag.name tag.attributes) :
    OpensAt source (.component tag start.span) start.span.hi
  | block {call : Call} {blockParams : List String} {m : Mustache}
    (hm : .mustache m ∈ templateTokens source) (hopens : m.Opens call.path) :
    OpensAt source (.block call blockParams none m.span.lo) m.span.hi
  | inverse {call : Call} {blockParams : List String} {body : Template} {m otherwise : Mustache}
    (hm : .mustache m ∈ templateTokens source) (hopens : m.Opens call.path)
    (helse : .mustache otherwise ∈ templateTokens source)
    (hbody : Ascends source m.span.hi body.children otherwise.span.lo) :
    OpensAt source (.block call blockParams (some body) m.span.lo) otherwise.span.hi

/-- What is open stands one inside the other, and the content of the innermost begins at a
position. -/
inductive Surrounds (source : String) : List Frame → Nat → Prop where
  | nil : Surrounds source [] 0
  | cons {frame : Frame} {frames : List Frame} {lo inside : Nat}
    (hframes : Surrounds source frames lo)
    (hbefore : Ascends source lo frame.before.reverse frame.opening.lo)
    (hopening : frame.opening.OpensAt source inside) : Surrounds source (frame :: frames) inside

namespace Construction

/-- The nodes of a template under construction ascend up to a position, inside what is open. -/
def StandsAt (source : String) (s : Construction) (hi : Nat) : Prop :=
  ∃ lo, Surrounds source s.frames lo ∧ Ascends source lo s.children hi

variable {options : TemplateOptions} {source : String} {s s' : Construction} {lo hi : Nat}

theorem children_push (s : Construction) (node : Node) :
    (s.push node).children = s.children ++ [node] := List.reverse_cons

theorem StandsAt.mono (h : s.StandsAt source lo) (hle : lo ≤ hi) : s.StandsAt source hi := by
  obtain ⟨inside, hframes, hnodes⟩ := h
  exact ⟨inside, hframes, hnodes.mono hle⟩

theorem StandsAt.push {node : Node} (h : s.StandsAt source node.span.lo)
    (hnode : node.Nests source) : (s.push node).StandsAt source node.span.hi := by
  obtain ⟨inside, hframes, hnodes⟩ := h
  exact ⟨inside, hframes, children_push s node ▸ hnodes.concat le_rfl hnode⟩

/-- A text goes on from where the text before it begins. -/
theorem StandsAt.pushText {text : String} {span : Span} (h : s.StandsAt source span.lo)
    (hspan : span.IsPart source.toList) : (s.pushText text span).StandsAt source span.hi := by
  have hnests : ∀ text {span : Span}, span.IsPart source.toList →
      (Node.text text span).Nests source :=
    fun _ _ hpart => Node.nests_of_isPart rfl hpart trivial
  rw [Construction.pushText]
  split
  · next before lo hi nodes hnodes =>
    obtain ⟨inside, hframes, hascends⟩ := h
    have hchildren : s.children = nodes.reverse ++ [.text before ⟨lo, hi⟩] := by
      rw [children, hnodes, List.reverse_cons]
    have hlast : Node.text before ⟨lo, hi⟩ ∈ s.children := by simp [hchildren]
    have hbefore : (⟨lo, hi⟩ : Span).IsPart source.toList := (hascends.nests _ hlast _ .refl).isPart
    have hle : hi ≤ span.lo := (hascends.within _ hlast).2
    rw [hchildren] at hascends
    refine ⟨inside, hframes, ?_⟩
    rw [children, List.reverse_cons]
    exact hascends.init.concat le_rfl (hnests (before ++ text) (hbefore.hull hspan hle))
  · exact h.push (hnests text hspan)

theorem StandsAt.enter {opening : Opening} {ns : Namespace} (h : s.StandsAt source opening.lo)
    (hopening : opening.OpensAt source hi) : (s.enter opening ns).StandsAt source hi := by
  obtain ⟨inside, hframes, hnodes⟩ := h
  exact ⟨hi, .cons hframes hnodes hopening, .nil le_rfl⟩

/-- Where something is open, its content stands behind what opened it, and that behind the nodes
before it. -/
theorem StandsAt.innermost {frame : Frame} {frames : List Frame} (h : s.StandsAt source hi)
    (hframes : s.frames = frame :: frames) :
    ∃ lo inside, Surrounds source frames lo ∧
      Ascends source lo frame.before.reverse frame.opening.lo ∧
      frame.opening.OpensAt source inside ∧ Ascends source inside s.children hi := by
  obtain ⟨inside, hsurrounds, hnodes⟩ := h
  rw [hframes] at hsurrounds
  cases hsurrounds with
  | cons hsurrounds hbefore hopening => exact ⟨_, inside, hsurrounds, hbefore, hopening, hnodes⟩

/-- What is closed takes its place behind the nodes before it. -/
theorem standsAt_leave {frame : Frame} {frames : List Frame} {node : Node}
    (hframes : Surrounds source frames lo)
    (hbefore : Ascends source lo frame.before.reverse node.span.lo) (hnode : node.Nests source) :
    (leave frame frames node).StandsAt source node.span.hi := by
  refine ⟨lo, hframes, ?_⟩
  rw [children, leave, List.reverse_cons]
  exact hbefore.concat le_rfl hnode

/-- A token adds what it makes behind all that was read before it. -/
theorem Steps.standsAt {token : Token} (h : Steps options s token s')
    (htoken : token ∈ templateTokens source) (hs : s.StandsAt source token.span.lo) :
    s'.StandsAt source token.span.hi := by
  have hpart := isPart_of_mem htoken
  cases h with
  | text text span => exact hs.pushText hpart
  | comment text span =>
    split
    · have hnode : (Node.comment text span).Nests source := Node.nests_of_isPart rfl hpart trivial
      exact hs.push hnode
    · exact hs.mono hpart.lo_lt_hi.le
  | @component tag attributes hcomponent hattributes hmodifiers hsingle =>
    have hbegins : tag.Begins source tag.name attributes := ⟨htoken, rfl, hattributes⟩
    have hnode : (Node.component ⟨tag.name, attributes⟩ {} tag.span).Nests source :=
      Node.nests_of_isPart rfl hpart hbegins.isTagged_single
    exact hs.push hnode
  | openComponent hcomponent hattributes =>
    exact hs.enter (.component ⟨htoken, rfl, hattributes⟩)
  | @element tag attributes modifiers hcomponent hattributes hmodifiers hsingle =>
    have hbegins : tag.Begins source tag.name attributes := ⟨htoken, rfl, hattributes⟩
    have hnode : (Node.element (tag.element s.ns attributes modifiers) [] tag.span).Nests source :=
      Node.nests_of_isPart rfl hpart hbegins.isTagged_single
    exact hs.push hnode
  | openElement hcomponent hattributes =>
    exact hs.enter (.element ⟨htoken, rfl, hattributes⟩)
  | @closeElement tag start before ns frames name span hvoid hframes hsame =>
    obtain ⟨lo, inside, hsurrounds, hbefore, hopening, hnodes⟩ := hs.innermost hframes
    cases hopening with
    | element hbegins =>
      refine standsAt_leave hsurrounds hbefore (Ascends.nests_of_between hnodes rfl
        (isPart_of_mem hbegins.mem) hpart ?_)
      exact hbegins.isTagged htoken hsame hnodes
  | @closeComponent tag start before ns frames name span hvoid hframes hsame =>
    obtain ⟨lo, inside, hsurrounds, hbefore, hopening, hnodes⟩ := hs.innermost hframes
    cases hopening with
    | component hbegins =>
      refine standsAt_leave hsurrounds hbefore (Ascends.nests_of_between hnodes rfl
        (isPart_of_mem hbegins.mem) hpart ?_)
      exact hbegins.isTagged htoken hsame hnodes
  | ignore hkind => exact hs.mono hpart.lo_lt_hi.le
  | @insertion m i hkind hi =>
    have hspan : (Node.insertion i).span = (Token.mustache m).span := by
      obtain ⟨call, -, hi⟩ := exists_of_bind_eq_ok hi
      cases hi
      rfl
    rw [← hspan] at hs hpart ⊢
    exact hs.push (Node.nests_of_isPart rfl hpart trivial)
  | openBlock hkind he => exact hs.enter (.block htoken ⟨hkind, _, he, rfl⟩)
  | @otherwise m call blockParams lo before ns frames hkind hframes hbare =>
    obtain ⟨lo, inside, hsurrounds, hbefore, hopening, hnodes⟩ := hs.innermost hframes
    cases hopening with
    | block hm hopens =>
      exact ⟨_, .cons hsurrounds hbefore (.inverse hm hopens htoken hnodes), .nil le_rfl⟩
  | @closeBlock m call blockParams body lo before ns frames hkind hframes hpath =>
    obtain ⟨lo, inside, hsurrounds, hbefore, hopening, hnodes⟩ := hs.innermost hframes
    cases hopening with
    | block hm hopens =>
      have hall := hnodes
      rw [← List.append_nil s.children] at hall
      refine standsAt_leave hsurrounds hbefore (Ascends.nests_of_between hall rfl
        (isPart_of_mem hm) hpart ?_)
      exact isBetweenMustaches hm hopens htoken ⟨hkind, trimString_eq_iff.1 hpath.symm⟩ hall
    -- The body and what stands behind `else` go on behind each other.
    | inverse hm hopens helse hbody =>
      have hall := hbody.append (isPart_of_mem helse).lo_lt_hi.le hnodes
      refine standsAt_leave hsurrounds hbefore (Ascends.nests_of_between hall rfl
        (isPart_of_mem hm) hpart ?_)
      exact isBetweenMustaches hm hopens htoken ⟨hkind, trimString_eq_iff.1 hpath.symm⟩ hall

/-- Tokens that stand one behind the other add what they make in this order. -/
theorem standsAt_run {read : List Token} (hread : ∀ token ∈ read, token ∈ templateTokens source)
    (htiles : Tiles lo read hi) (h : run options read s = .ok s') (hs : s.StandsAt source lo) :
    s'.StandsAt source hi := by
  induction read generalizing s lo with
  | nil =>
    cases h
    exact htiles ▸ hs
  | cons token read ih =>
    obtain ⟨s₁, hstep, h⟩ := exists_of_run_cons h
    rw [List.forall_mem_cons] at hread
    obtain ⟨rfl, htiles⟩ := htiles
    exact ih hread.2 htiles h (hstep.standsAt hread.1 hs)

theorem standsAt_start (source : String) : ({} : Construction).StandsAt source 0 :=
  ⟨0, .nil, .nil le_rfl⟩

end Construction

/-- The nodes of a template ascend through its source, and so do the nodes inside each of them. -/
theorem Template.ascends_ofSource {options : TemplateOptions} {source : String} {t : Template}
    (h : Template.ofSource options source = .ok t) :
    Ascends source 0 t.children (byteLength source.toList) := by
  have htokens := Template.tokens?_of_ofSource h
  obtain ⟨s, hrun, hframes, rfl⟩ := (Template.ofSource_eq_ok_iff htokens).1 h
  obtain ⟨hi, htiles, hstops⟩ := (isTiling_template source).tiles
  have herror : (Reading.ofSource .template source).error? = none := by
    rw [tokens?] at htokens
    split at htokens
    · next herror => exact herror
    · cases htokens
  have hstop : hi = byteLength source.toList := by rwa [Reading.StopsAt, herror] at hstops
  obtain ⟨inside, hsurrounds, hnodes⟩ :=
    Construction.standsAt_run (fun _ hmem => hmem) htiles hrun (Construction.standsAt_start source)
  rw [hframes] at hsurrounds
  cases hsurrounds
  exact hstop ▸ hnodes

end LiveTemplate
