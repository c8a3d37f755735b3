import LiveTemplate.Proofs.Render.Agreement
import LiveTemplate.Proofs.Template.Literals

/-!
# LiveTemplate.Proofs.Render.Literals

Literals as the callees of mustaches and as params.

1. As content a literal is shown as the text it has as a callee, unless that is the name of a
   helper, which comes first.  Of the numbers `IsPositional` says when this text is that of
   the value.
2. As the value of an attribute, with quotes or without, and as a param a literal is its value.

What the site of such a mustache does depends neither on the scope nor on what is registered
(`Hooks.ShowsText`, `Hooks.SetsText`), so that a source with it is rendered as it would be in the
empty scope (`writes_literal`).
-/

namespace LiveTemplate

/-! ## numbers -/

/-- A number that is written alike as a callee and as a value: it is finite and not the negative
zero, and as a value it has no exponent. -/
def IsPositional (x : Float) : Prop :=
  let bits := x.toBits.toNat
  let magnitude := bits % signBit
  magnitude < infinityBits ∧
    if magnitude = 0 then bits < signBit
    else NumberStyle.value.positional (Binary.ofBits magnitude).shortest.leadingExponent = true

theorem IsPositional.write_eq {x : Float} (h : IsPositional x) :
    NumberStyle.callee.write x = NumberStyle.value.write x := by
  obtain ⟨hfinite, h⟩ := h
  simp only [NumberStyle.write, if_neg (Nat.lt_asymm hfinite), if_neg (Nat.ne_of_lt hfinite)]
  split
  · next hzero =>
    rw [if_pos hzero] at h
    rw [if_neg (Nat.not_le.2 h)]
    rfl
  · next hne =>
    rw [if_neg hne] at h
    rw [h]
    rfl

/-- The characters of a number without exponent. -/
theorem Decimal.forall_mem_positionalText (d : Decimal) :
    ∀ c ∈ d.positionalText, c.isDigit = true ∨ c = '.' := by
  have hfigures : ∀ c ∈ d.figures, c.isDigit = true :=
    fun c hc => Nat.isDigit_of_mem_toDigits (by decide) (by decide) hc
  intro c hc
  rw [positionalText] at hc
  simp only at hc
  split at hc
  · rcases List.mem_append.1 hc with hc | hc
    · exact .inl (hfigures c hc)
    · rw [List.eq_of_mem_replicate hc]
      exact .inl rfl
  · split at hc
    · rcases List.mem_append.1 hc with hc | hc
      · exact .inl (hfigures c (List.mem_of_mem_take hc))
      · rcases List.mem_cons.1 hc with rfl | hc
        · exact .inr rfl
        · exact .inl (hfigures c (List.mem_of_mem_drop hc))
    · simp only [List.cons_append, List.mem_cons, List.mem_append] at hc
      rcases hc with rfl | rfl | hc | hc
      · exact .inl rfl
      · exact .inr rfl
      · rw [List.eq_of_mem_replicate hc]
        exact .inl rfl
      · exact .inl (hfigures c hc)

/-- The characters of a number without exponent. -/
theorem IsPositional.forall_mem_write {x : Float} (h : IsPositional x) :
    ∀ c ∈ (NumberStyle.callee.write x).toList, c.isDigit = true ∨ c = '.' ∨ c = '-' := by
  obtain ⟨hfinite, h⟩ := h
  intro c hc
  have hsign : ∀ b : Bool, c ∈ (if b then ['-'] else []) → c = '-' := by simp
  simp only [NumberStyle.write, if_neg (Nat.lt_asymm hfinite), if_neg (Nat.ne_of_lt hfinite)] at hc
  split at hc
  · next hzero =>
    rw [if_pos hzero] at h
    rw [if_neg (Nat.not_le.2 h)] at hc
    obtain rfl : c = '0' := by simpa [NumberStyle.callee] using hc
    exact .inl rfl
  · rw [String.toList_ofList] at hc
    rcases List.mem_append.1 hc with hc | hc
    · split at hc
      · exact .inr (.inr (List.mem_singleton.1 hc))
      · cases hc
    · rcases Decimal.forall_mem_positionalText _ c hc with hdigit | hpoint
      · exact .inl hdigit
      · exact .inr (.inl hpoint)

/-- No helper is called like a number. -/
theorem IsPositional.ofName?_write {x : Float} (h : IsPositional x) :
    Builtin.ofName? (NumberStyle.callee.write x) = none := by
  cases hname : Builtin.ofName? (NumberStyle.callee.write x) with
  | none => rfl
  | some b =>
    have hb : b.name = NumberStyle.callee.write x := by
      simpa using List.find?_some hname
    have hletter : 'a' ∈ b.name.toList := by cases b <;> decide
    rw [hb] at hletter
    rcases h.forall_mem_write 'a' hletter with h | h | h <;> exact absurd h (by decide)

/-- A literal which as a callee has the text of its value and is not the name of a helper. -/
def Param.KeepsText : Param → Prop
  | .string s => Builtin.ofName? s = none
  | .number x => IsPositional x
  | .boolean _ => True
  | .id _ | .call _ => False

theorem Param.KeepsText.text_eq {p : Param} (h : p.KeepsText) : p.text = p.literalValue.text := by
  cases p with
  | string s => rfl
  | number x => exact IsPositional.write_eq h
  | boolean b => cases b <;> rfl
  | id path => exact h.elim
  | call c => exact h.elim

theorem Param.KeepsText.ofName?_text {p : Param} (h : p.KeepsText) :
    Builtin.ofName? p.text = none := by
  cases p with
  | string s => exact h
  | number x => exact IsPositional.ofName?_write h
  | boolean b => cases b <;> decide
  | id path => exact h.elim
  | call c => exact h.elim

/-! ## sites -/

section Sites

variable {σ : Type}

/-- A site shows a text wherever it is: its morph is new and gets the text as its value. -/
def Hooks.ShowsText (hooks : Hooks σ) (scope : Scope) (call : Call) (text : String) : Prop :=
  ∀ (p : Program) (escaped : Bool) (target : Target) (w : World σ),
    p.renderSite hooks scope (.content call escaped) target w =
      some (some ⟨w.morphs.size⟩,
        (w.addMorph (.create target.node escaped target.context)).2.updateMorph ⟨w.morphs.size⟩
          (.string text))

/-- A mustache sets every attribute that it is the value of to a text, with quotes or without. -/
def Hooks.SetsText (hooks : Hooks σ) (scope : Scope) (call : Call) (text : String) : Prop :=
  ∀ (p : Program) (name : String) (quoted : Bool) (target : Target) (w : World σ),
    p.renderSite hooks scope (.attr name quoted [.call call]) target w =
      some (none, { w with dom := w.dom.setAttribute target.node name text })

variable {env : Environment σ} {self : Hooks σ} (scope : Scope)

/-- Hooks that know the builtin helpers only. -/
def Hooks.KnowsBuiltins (hooks : Hooks σ) : Prop :=
  ∀ name scope w, hooks.lookupHelper name scope w =
    some ((Builtin.ofName? name).map .builtin, w)

/-- Where no helper is registered the site of a literal shows its text. -/
theorem showsText_literal (hself : self.KnowsBuiltins) {literal : Param} {text : String}
    (htext : Builtin.ofName? text = none) :
    (Hooks.defaults env self).ShowsText scope { path := text, literal := some literal } text := by
  intro p escaped target w
  have harguments : ∀ w, evaluateArguments (.defaults env self) scope
      { path := text, literal := some literal } w = some (([], .ofPairs []), w) := fun _ => rfl
  refine Program.renderSite_content_of (harguments _) ?_
  have hlookup := hself text scope (w.addMorph (.create target.node escaped target.context)).2
  rw [htext] at hlookup
  exact (Render.bind_of_eq hlookup).trans rfl

/-- A literal is evaluated to its value. -/
theorem evaluateParam_literal {literal : Param} (h : literal.type.isLiteral = true)
    (hooks : Hooks σ) (w : World σ) :
    evaluateParam hooks scope literal w = some (literal.literalValue, w) := by
  cases literal with
  | id path => cases h
  | call c => cases h
  | _ => rfl

/-- A call of the joining helper shows the texts of its params, joined, whether it is called by its
name or by a literal. -/
theorem showsText_concat (hself : self.KnowsBuiltins) {call : Call} {values : List Value}
    {hash : Hash} (hcall : call.path = Builtin.concat.name)
    (harguments : ∀ w, evaluateArguments (.defaults env self) scope call w =
      some ((values, hash), w)) :
    (Hooks.defaults env self).ShowsText scope call (joinedText values) := by
  intro p escaped target w
  refine Program.renderSite_content_of (harguments _) ?_
  have hlookup := hself call.path scope
    (w.addMorph (.create target.node escaped target.context)).2
  rw [hcall, Builtin.ofName?_name] at hlookup
  rw [hcall]
  exact (Render.bind_of_eq hlookup).trans rfl

theorem joinedText_singleton (value : Value) : joinedText [value] = value.text :=
  String.empty_append

theorem evaluateArguments_literal {literal : Param} (h : literal.type.isLiteral = true)
    {hooks : Hooks σ} {path : String} (w : World σ) :
    evaluateArguments hooks scope { path, params := [literal] } w =
      some (([literal.literalValue], .ofPairs []), w) := by
  rw [evaluateArguments, Render.bind_apply, evaluateParams, Render.bind_apply,
    evaluateParam_literal scope h hooks w]
  rfl

/-- Hooks that join a value that is no path as its text. -/
def Hooks.JoinsValues (hooks : Hooks σ) : Prop :=
  ∀ scope value (invocation : Invocation) w, invocation.paramTypes = [.call] →
    hooks.concat scope [value] invocation w = some (.string value.text, w)

theorem joinsValues_defaults : (Hooks.defaults env self).JoinsValues := by
  intro scope value invocation w h
  show (Hooks.partTexts self scope [value] invocation.paramTypes >>= _) w = _
  rw [h]
  show some (Value.string ("" ++ value.text), w) = _
  rw [String.empty_append]

/-- An attribute whose value is a literal is set to the text of its value, with quotes or
without. -/
theorem setsText_literal (hself : self.JoinsValues) {path : String} {literal : Param}
    (h : literal.type.isLiteral = true) :
    (Hooks.defaults env self).SetsText scope { path, literal := some literal }
      literal.literalValue.text := by
  intro p name quoted target w
  let invocation : Invocation := { element := some target.node, paramTypes := [.call], scope }
  have hvalue : ∃ value : Value, Hooks.attributeValue self quoted scope [literal.literalValue]
      invocation w = some (value, w) ∧ value.isNullish = false ∧
        value.text = literal.literalValue.text := by
    cases quoted with
    | true => exact ⟨_, hself scope literal.literalValue invocation w rfl, rfl, rfl⟩
    | false =>
      refine ⟨literal.literalValue, rfl, ?_, rfl⟩
      cases literal <;> rfl
  obtain ⟨value, hvalue, hnullish, htext⟩ := hvalue
  refine (Render.bind_of_eq (show _ = some ([literal.literalValue], w) from rfl)).trans ?_
  refine (Render.bind_of_eq ((Render.bind_of_eq hvalue).trans rfl)).trans ?_
  rw [hnullish, htext]
  rfl

end Sites

/-! ## renders -/

section Renders

variable {σ : Type}

/-- Sites that are rendered alike make renders alike. -/
theorem Program.render_congr {p : Program} {hooks hooks' : Hooks σ} {scope scope' : Scope}
    (h : ∀ site ∈ p.sites, ∀ target, p.renderSite hooks scope site.action target =
      p.renderSite hooks' scope' site.action target) (context : Option NodeId) :
    p.render hooks scope context = p.render hooks' scope' context := by
  have hrun : ∀ sites : List (Action × Target), (∀ s ∈ sites, ∀ target,
      p.renderSite hooks scope s.1 target = p.renderSite hooks' scope' s.1 target) →
        p.run hooks scope sites = p.run hooks' scope' sites := by
    intro sites hsites
    induction sites with
    | nil => rfl
    | cons s sites ih =>
      obtain ⟨action, target⟩ := s
      rw [List.forall_mem_cons] at hsites
      rw [run, run, List.mapM_cons, List.mapM_cons]
      show (p.renderSite hooks scope action target >>= fun result =>
        p.run hooks scope sites >>= _) = _
      rw [hsites.1 target, ih hsites.2]
      rfl
  funext w
  rw [render_eq, render_eq, renderSites_eq, renderSites_eq, hrun]
  intro s hs
  obtain ⟨site, hsite, rfl⟩ := List.mem_map.1 hs
  exact h site hsite

/-- In the empty scope nothing is a node. -/
theorem Scope.nodeFree_empty (heap : Heap) : Scope.NodeFree {} heap :=
  nodeFree_of_closed (P := (· = .undefined)) (by rintro value rfl; rfl) rfl
    (by rintro value segment rfl; rfl) rfl (by simp)

/-- A template whose sites do not depend on the scope and on what is registered is rendered as
evaluation prints it in the empty scope. -/
theorem exists_render_of_alike (depth : Nat) (t : Template) (hplain : ArePlain t.children)
    {hooks : Hooks σ} {scope : Scope}
    (h : ∀ site ∈ t.compile.sites, ∀ target, t.compile.renderSite hooks scope site.action target =
      t.compile.renderSite (({} : Environment σ).hooks (depth + 3)) {} site.action target)
    (context : Option NodeId) (w : World σ)
    (hcontext : ∀ id, context = some id → id.index < w.dom.size) :
    ∃ rendered w', t.compile.render hooks scope context w = some (rendered, w') ∧
      w'.dom.html rendered.root.node =
        String.ofList (evaluateNodes {} w.heap (w.dom.nsBelow context) t.children) := by
  obtain ⟨morphs, w', ts, F, hsites, hstage, hhtml⟩ :=
    renderSites_compileBody (Environment.plain_hooks (depth + 1)) (Environment.joining_hooks depth)
      t hplain {} context w (Scope.nodeFree_empty w.heap) hcontext
  obtain ⟨root, hroot, hloose, hwritten⟩ := hstage.loose_unwrap
  rw [Program.render_congr h]
  refine ⟨_, _, Program.render_of_eq hsites, ?_⟩
  show (w'.dom.unwrap ((compileBody t).plant w.dom context).1).2.html
    (w'.dom.unwrap ((compileBody t).plant w.dom context).1).1.node = _
  rw [hroot, Dom.html_of_holds hloose.holds hloose.nodup, hwritten, hhtml]

end Renders

/-! ## sources -/

section Sources

variable {σ : Type}

/-- What a source holds is rendered with a result that is written as `html`. -/
def Environment.Writes (env : Environment σ) (depth : Nat) (options : TemplateOptions)
    (scope : Scope) (context : Option NodeId) (w : World σ) (source html : List Char) : Prop :=
  ∃ p rendered w', Program.ofSource options (String.ofList source) = .ok p ∧
    p.render (env.hooks depth) scope context w = some (rendered, w') ∧
    w'.dom.html rendered.root.node = String.ofList html

variable {env : Environment σ} {depth : Nat} {options : TemplateOptions} {scope : Scope}
  {context : Option NodeId} {w : World σ}

/-- There is one way to write what a source holds. -/
theorem Environment.Writes.eq {source html html' : List Char}
    (h : env.Writes depth options scope context w source html)
    (h' : env.Writes depth options scope context w source html') : html = html' := by
  obtain ⟨p, rendered, w₁, hp, hrender, hhtml⟩ := h
  obtain ⟨p', rendered', w₂, hp', hrender', hhtml'⟩ := h'
  rw [hp] at hp'
  cases hp'
  rw [hrender] at hrender'
  cases hrender'
  exact String.ofList_injective (hhtml.symm.trans hhtml')

/-- The template of a mustache writes the text that its site shows, whatever the scope. -/
theorem writes_of_showsText {source : List Char} {call : Call} {text : String} {span whole : Span}
    (hsource : Template.ofSource options (String.ofList source) =
      .ok { children := [.insertion ⟨call, true, span⟩], span := whole })
    (hshows : (env.hooks depth).ShowsText scope call text)
    (hempty : (({} : Environment σ).hooks 3).ShowsText {} call text)
    (hvalue : (Insertion.mk call true span).value {} w.heap = .string text)
    (hcontext : ∀ id, context = some id → id.index < w.dom.size) :
    env.Writes depth options scope context w source (escape .content text.toList) := by
  let t : Template := { children := [.insertion ⟨call, true, span⟩], span := whole }
  have halike : ∀ site ∈ t.compile.sites, ∀ target,
      t.compile.renderSite (env.hooks depth) scope site.action target =
        t.compile.renderSite (({} : Environment σ).hooks 3) {} site.action target := by
    have hsites : t.compile.sites = [⟨[0], .content call true⟩] := sites_compileBody t
    intro site hsite target
    rw [hsites, List.mem_singleton] at hsite
    subst hsite
    exact funext fun w => (hshows _ true target w).trans (hempty _ true target w).symm
  obtain ⟨rendered, w', hrender, hhtml⟩ :=
    exists_render_of_alike 0 t ⟨trivial, trivial⟩ halike context w hcontext
  refine ⟨t.compile, rendered, w', by rw [Program.ofSource, hsource]; rfl, hrender, ?_⟩
  rw [hhtml]
  show String.ofList (Insertion.evaluate {} w.heap _ ⟨call, true, span⟩ ++ []) = _
  rw [Insertion.evaluate, hvalue, List.append_nil]
  rfl

/-! ### titles -/

/-- The attribute of a paragraph whose title is one mustache. -/
theorem action?_title {call : Call} (hcall : call.isSimplePath = false) (quoted : Bool)
    (span titleSpan : Span) :
    (Attribute.mk "title" (.ofParts quoted [.insertion ⟨call, true, span⟩]) titleSpan).action? =
      some (.attr "title" quoted [.call call]) := by
  have hparam : (Insertion.mk call true span).param = .call call := by
    rw [Insertion.param, if_neg (by simp [hcall])]
  rw [← hparam]
  cases quoted <;> rfl

/-- The title is all the attributes there are. -/
theorem evaluate_titledTag {call : Call} (hcall : call.isSimplePath = false) {heap : Heap}
    (hnullish : (call.value scope heap).isNullish = false) (quoted : Bool) (span titleSpan : Span) :
    (titledTag (.ofParts quoted [.insertion ⟨call, true, span⟩]) titleSpan).evaluate scope heap =
      ({} : Dict String).set "title" (call.value scope heap).text := by
  have hvalue : (Insertion.mk call true span).attributeValue scope heap =
      call.value scope heap := by
    rw [Insertion.attributeValue, if_neg (by simp [hcall])]
  cases quoted with
  | false =>
    show (if ((Insertion.mk call true span).attributeValue scope heap).isNullish then _ else _) = _
    rw [hvalue, hnullish]
    rfl
  | true =>
    show ({} : Dict String).set "title"
      ("" ++ ((Insertion.mk call true span).attributeValue scope heap).text) = _
    rw [hvalue, String.empty_append]

/-- A paragraph with a title and nothing in it, as it is printed. -/
theorem evaluateNodes_titled {tag : AttributeValue} {titleSpan : Span} {heap : Heap} {text : String}
    (h : (titledTag tag titleSpan).evaluate scope heap = ({} : Dict String).set "title" text)
    (inside : Span) (ns : Namespace) :
    evaluateNodes scope heap ns [.element (titledTag tag titleSpan) [] inside] =
      "<p title=\"".toList ++ escape .value text.toList ++ "\"></p>".toList := by
  have hvoid : ¬(Namespace.ofElement "p" ns = .xhtml ∧ isVoidTag "p") :=
    fun h => absurd h.2 (by decide)
  show (if Namespace.ofElement "p" ns = .xhtml ∧ isVoidTag "p" then _ else
    startTagHtml "p" ((titledTag tag titleSpan).evaluate scope heap) ++ [] ++ "</".toList ++
      "p".toList ++ ">".toList) ++ [] = _
  rw [if_neg hvoid, h]
  simp [startTagHtml, attributeHtml, Dict.set, Dict.setEntry]

/-- The template of a paragraph with a title writes the text that its site sets, whatever the
scope. -/
theorem writes_of_setsText {source : List Char} {call : Call} {text : String}
    {span titleSpan inside whole : Span} {quoted : Bool}
    (hsource : Template.ofSource options (String.ofList source) =
      .ok
        { children := [.element
            (titledTag (.ofParts quoted [.insertion ⟨call, true, span⟩]) titleSpan) [] inside]
          span := whole })
    (hcall : call.isSimplePath = false)
    (hsets : (env.hooks depth).SetsText scope call text)
    (hempty : (({} : Environment σ).hooks 3).SetsText {} call text)
    (hvalue : (call.value {} w.heap).isNullish = false ∧ (call.value {} w.heap).text = text)
    (hcontext : ∀ id, context = some id → id.index < w.dom.size) :
    env.Writes depth options scope context w source
      ("<p title=\"".toList ++ escape .value text.toList ++ "\"></p>".toList) := by
  let title : Attribute := ⟨"title", .ofParts quoted [.insertion ⟨call, true, span⟩], titleSpan⟩
  let t : Template :=
    { children := [.element (titledTag title.value titleSpan) [] inside], span := whole }
  have hsites : t.compile.sites = [⟨[0], .attr "title" quoted [.call call]⟩] := by
    let paragraph : Node := .element (titledTag title.value titleSpan) [] inside
    have h : t.compile.sites = ([title].filterMap Attribute.action?).map (Site.mk [0]) := by
      refine (sites_compileBody t).trans ?_
      show (paragraph.actions 0).map (Site.mk [0]) ++ [] = _
      rw [List.append_nil, actions_element]
      rfl
    rw [h, List.filterMap_cons_some (action?_title hcall quoted span titleSpan)]
    rfl
  have halike : ∀ site ∈ t.compile.sites, ∀ target,
      t.compile.renderSite (env.hooks depth) scope site.action target =
        t.compile.renderSite (({} : Environment σ).hooks 3) {} site.action target := by
    intro site hsite target
    rw [hsites, List.mem_singleton] at hsite
    subst hsite
    exact funext fun w => (hsets _ "title" quoted target w).trans
      (hempty _ "title" quoted target w).symm
  have hplain : ArePlain t.children :=
    ⟨⟨rfl, show isIntegrationPoint "p" = false by decide, trivial⟩, trivial⟩
  obtain ⟨rendered, w', hrender, hhtml⟩ :=
    exists_render_of_alike 0 t hplain halike context w hcontext
  have hattributes := evaluate_titledTag hcall hvalue.1 quoted span titleSpan
  rw [hvalue.2] at hattributes
  refine ⟨t.compile, rendered, w', by rw [Program.ofSource, hsource]; rfl, hrender, ?_⟩
  rw [hhtml]
  exact congrArg String.ofList (evaluateNodes_titled hattributes inside _)

/-! ### literals -/

section Literals

variable {a : WrittenAtom} (hliteral : a.param.type.isLiteral = true) (partials : Dict Program)
  (depth : Nat) (options : TemplateOptions) (scope : Scope)

theorem knowsBuiltins_hooks :
    (({ partials } : Environment σ).hooks (depth + 1)).KnowsBuiltins :=
  fun _ _ _ => rfl

include hliteral

theorem isPlainContent_alone : IsPlainContent a.alone.text := by
  rw [a.text_alone]
  exact WrittenAtom.isPlainContent_literal hliteral

/-- As content a literal is the text of its value, if it keeps its text. -/
theorem writes_alone (hkeeps : a.param.KeepsText)
    (hcontext : ∀ id, context = some id → id.index < w.dom.size) :
    (({ partials } : Environment σ).hooks (depth + 3)).ShowsText scope
        { path := a.param.text, literal := some a.param } a.param.literalValue.text ∧
      ({ partials } : Environment σ).Writes (depth + 3) options scope context w a.alone.braced
        (escape .content a.param.literalValue.text.toList) := by
  have hshows : ∀ (partials : Dict Program) depth scope,
      (({ partials } : Environment σ).hooks (depth + 3)).ShowsText scope
        { path := a.param.text, literal := some a.param } a.param.literalValue.text := by
    intro partials depth scope
    rw [← hkeeps.text_eq]
    exact showsText_literal scope (knowsBuiltins_hooks partials (depth + 1)) hkeeps.ofName?_text
  obtain ⟨span, whole, hsource⟩ :=
    a.alone.ofSource_braced (isPlainContent_alone hliteral) rfl options
  rw [WrittenAtom.call_alone hliteral] at hsource
  refine ⟨hshows partials depth scope, writes_of_showsText hsource (hshows partials depth scope)
    (hshows {} 0 {}) ?_ hcontext⟩
  rw [Insertion.value, if_pos ⟨rfl, hkeeps.ofName?_text⟩, ← hkeeps.text_eq]

/-- As the value of an attribute a literal is the text of its value. -/
theorem writes_titled (hcontext : ∀ id, context = some id → id.index < w.dom.size) :
    (({ partials } : Environment σ).hooks (depth + 3)).SetsText scope
        { path := a.param.text, literal := some a.param } a.param.literalValue.text ∧
      ∀ quoted, ({ partials } : Environment σ).Writes (depth + 3) options scope context w
        (a.alone.attributed "p" "title" quoted)
        ("<p title=\"".toList ++ escape .value a.param.literalValue.text.toList ++
          "\"></p>".toList) := by
  have hsets : ∀ (partials : Dict Program) depth scope,
      (({ partials } : Environment σ).hooks (depth + 3)).SetsText scope
        { path := a.param.text, literal := some a.param } a.param.literalValue.text :=
    fun _ _ scope => setsText_literal scope joinsValues_defaults hliteral
  refine ⟨hsets partials depth scope, fun quoted => ?_⟩
  obtain ⟨span, titleSpan, inside, whole, hsource⟩ :=
    a.alone.ofSource_titled (isPlainContent_alone hliteral) rfl quoted options
  rw [WrittenAtom.call_alone hliteral] at hsource
  refine writes_of_setsText hsource rfl (hsets partials depth scope) (hsets {} 0 {}) ?_ hcontext
  refine ⟨?_, rfl⟩
  show a.param.literalValue.isNullish = false
  cases a.param <;> rfl

/-- As a param of the joining helper a literal is the text of its value. -/
theorem writes_joined (hcontext : ∀ id, context = some id → id.index < w.dom.size) :
    (({ partials } : Environment σ).hooks (depth + 3)).ShowsText scope
        { path := Builtin.concat.name, params := [a.param] } a.param.literalValue.text ∧
      ({ partials } : Environment σ).Writes (depth + 3) options scope context w a.joined.braced
        (escape .content a.param.literalValue.text.toList) := by
  have hshows : ∀ (partials : Dict Program) depth scope,
      (({ partials } : Environment σ).hooks (depth + 3)).ShowsText scope
        { path := Builtin.concat.name, params := [a.param] } a.param.literalValue.text := by
    intro partials depth scope
    rw [← joinedText_singleton]
    exact showsText_concat scope (knowsBuiltins_hooks partials (depth + 1)) rfl
      (evaluateArguments_literal scope hliteral)
  obtain ⟨span, whole, hsource⟩ :=
    a.joined.ofSource_braced a.isPlainContent_joined rfl options
  rw [WrittenAtom.call_joined] at hsource
  refine ⟨hshows partials depth scope, writes_of_showsText hsource (hshows partials depth scope)
    (hshows {} 0 {}) ?_ hcontext⟩
  have hvalue : a.param.value {} w.heap = a.param.literalValue := by
    cases hparam : a.param with
    | id path => rw [hparam] at hliteral; cases hliteral
    | call c => rw [hparam] at hliteral; cases hliteral
    | _ => rfl
  rw [Insertion.value, if_neg (by simp), calledValue, Builtin.ofName?_name, paramValues, hvalue]
  exact congrArg Value.string (joinedText_singleton _)

/-- A literal shows the same text wherever it stands: as the value of an attribute, with quotes and
without, and as a param of the joining helper it is the text of its value, and so it is as content,
if the literal keeps its text there.  No scope and no partial makes a difference. -/
theorem writes_literal (hcontext : ∀ id, context = some id → id.index < w.dom.size) :
    let env : Environment σ := { partials }
    let hooks := env.hooks (depth + 3)
    let Writes := env.Writes (depth + 3) options scope context w
    let literal : Call := { path := a.param.text, literal := some a.param }
    let shown := a.param.literalValue.text
    (a.param.KeepsText →
      hooks.ShowsText scope literal shown ∧
      Writes a.alone.braced (escape .content shown.toList)) ∧
    (hooks.SetsText scope literal shown ∧
      ∀ quoted, Writes (a.alone.attributed "p" "title" quoted)
        ("<p title=\"".toList ++ escape .value shown.toList ++ "\"></p>".toList)) ∧
    (hooks.ShowsText scope { path := Builtin.concat.name, params := [a.param] } shown ∧
      Writes a.joined.braced (escape .content shown.toList)) :=
  ⟨fun hkeeps => writes_alone hliteral partials depth options scope hkeeps hcontext,
    writes_titled hliteral partials depth options scope hcontext,
    writes_joined hliteral partials depth options scope hcontext⟩

end Literals

/-- A number between braces. -/
theorem writes_literal_number :
    let a : WrittenAtom := .number ⟨false, ['1', '2'], ['5'], by decide,
      List.all_eq_true.1 (by decide), List.all_eq_true.1 (by decide)⟩
    a.param.type.isLiteral = true ∧ a.param.KeepsText ∧
      ({} : Environment Unit).Writes 3 {} {} none { notes := () } "\x7b\x7b12.5\x7d\x7d".toList
        "12.5".toList := by
  intro a
  have hkeeps : a.param.KeepsText := by
    show IsPositional _
    unfold IsPositional
    decide +kernel
  have hwrites : ({} : Environment Unit).Writes 3 {} {} none { notes := () } a.alone.braced
      (escape .content a.param.literalValue.text.toList) :=
    ((writes_literal rfl {} 0 {} {} (by simp)).1 hkeeps).2
  have hshown : escape .content a.param.literalValue.text.toList = "12.5".toList := by
    decide +kernel
  rw [hshown] at hwrites
  exact ⟨rfl, hkeeps, hwrites⟩

/-- A string that is the name of a helper calls the helper as content. -/
theorem not_writes_concat :
    let a : WrittenAtom := .string ⟨'"', Builtin.concat.name.toList, .inl rfl, by decide⟩
    a.param.type.isLiteral = true ∧
      a.alone.braced = "\x7b\x7b\"concat\"\x7d\x7d".toList ∧
      a.param.literalValue.text = "concat" ∧
      ¬({} : Environment Unit).Writes 3 {} {} none { notes := () } a.alone.braced
        (escape .content a.param.literalValue.text.toList) := by
  intro a
  have hplain : IsPlainContent a.alone.text := isPlainContent_alone rfl
  obtain ⟨span, whole, hsource⟩ := a.alone.ofSource_braced hplain rfl {}
  have harguments : ∀ w : World Unit, evaluateArguments (({} : Environment Unit).hooks 3) {}
      a.alone.expression.call w = some (([], .ofPairs []), w) := fun _ => rfl
  have hshows : (({} : Environment Unit).hooks 3).ShowsText {} a.alone.expression.call "" :=
    showsText_concat {} (knowsBuiltins_hooks {} 1) rfl harguments
  have hwrites : ({} : Environment Unit).Writes 3 {} {} none { notes := () } a.alone.braced [] :=
    writes_of_showsText hsource hshows hshows rfl (by simp)
  refine ⟨rfl, by decide, by decide, fun h => ?_⟩
  exact absurd (h.eq hwrites) (by decide)

end Sources

end LiveTemplate
