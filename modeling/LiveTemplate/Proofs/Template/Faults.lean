import LiveTemplate.Proofs.Template.Ranges

/-!
# LiveTemplate.Proofs.Template.Faults

Where a rejected template is at fault.

Most faults lie in one token: they concern the token itself or a mustache in it
(`ParseError.IsIn`).  What is not closed is found at the next token that closes something else, or
at the end of the source; such a fault begins where the token begins that opened it
(`ParseError.LeavesOpen`).
-/

namespace LiveTemplate

/-- Something was opened and not closed. -/
def ParseError.Cause.IsUnclosed : ParseError.Cause → Prop
  | .unclosedElement _ | .unclosedBlock _ => True
  | _ => False

theorem ParseError.Cause.IsLexical.not_isUnclosed {cause : ParseError.Cause} (h : cause.IsLexical) :
    ¬cause.IsUnclosed := by
  cases cause <;> simp_all [IsLexical, IsUnclosed]

/-- A fault of a mustache concerns the mustache as a whole. -/
structure ParseError.IsAt (e : ParseError) (m : Mustache) : Prop where
  span_eq : e.span = m.span
  closed : ¬e.cause.IsUnclosed

/-- The mustaches in a token. -/
def Token.mustaches : Token → List Mustache
  | .startTag tag =>
    tag.modifiers ++ tag.attributes.flatMap fun a =>
      a.value.chunks.filterMap fun | .mustache m => some m | .text _ => none
  | .mustache m => [m]
  | .endTag .. | .text .. | .comment .. => []

/-- A fault concerns a token, or a mustache in it. -/
structure ParseError.IsIn (e : ParseError) (token : Token) : Prop where
  span_eq : e.span = token.span ∨ ∃ m ∈ token.mustaches, e.span = m.span
  closed : ¬e.cause.IsUnclosed

theorem ParseError.IsAt.isIn {e : ParseError} {m : Mustache} {token : Token} (h : e.IsAt m)
    (hm : m ∈ token.mustaches) : e.IsIn token := ⟨.inr ⟨m, hm, h.span_eq⟩, h.closed⟩

/-! ## conversion -/

section Conversion

variable {m : Mustache} {e : ParseError}

/-- A fault that is put in other words is the wording of a fault. -/
theorem exists_of_mapError_eq_error {ε ε' α : Type} {x : Except ε α} {f : ε → ε'} {e : ε'}
    (h : x.mapError f = .error e) : ∃ fault, f fault = e := by
  cases x with
  | ok a => cases h
  | error fault =>
    cases h
    exact ⟨fault, rfl⟩

theorem isAt_of_ofContent (h : Expression.ofContent m.content m.span = .error e) : e.IsAt m := by
  obtain ⟨fault, rfl⟩ := exists_of_mapError_eq_error h
  exact ⟨rfl, id⟩

theorem isAt_of_call (h : m.call = .error e) : e.IsAt m := by
  rcases of_bind_eq_error h with h | ⟨expression, -, h⟩
  · exact isAt_of_ofContent h
  · split at h
    · cases h
    · cases h
      exact ⟨rfl, id⟩

theorem isAt_of_insertion (h : m.insertion = .error e) : e.IsAt m := by
  rcases of_bind_eq_error h with h | ⟨call, -, h⟩
  · exact isAt_of_call h
  · cases h

theorem isAt_of_modifier (h : m.modifier = .error e) : e.IsAt m := by
  rw [Mustache.modifier] at h
  split at h
  · exact isAt_of_call h
  · cases h
    exact ⟨rfl, id⟩

theorem exists_isAt_of_ofChunks {name : String} {chunks : List Chunk}
    (h : AttributePart.ofChunks name chunks = .error e) :
    ∃ m, .mustache m ∈ chunks ∧ e.IsAt m := by
  induction chunks with
  | nil => cases h
  | cons chunk chunks ih =>
    have hrest : AttributePart.ofChunks name chunks = .error e →
        ∃ m, .mustache m ∈ chunk :: chunks ∧ e.IsAt m := by
      intro h
      obtain ⟨m, hm, hat⟩ := ih h
      exact ⟨m, List.mem_cons_of_mem _ hm, hat⟩
    have hinsertion : ∀ {m}, chunk = .mustache m → (do
        let i ← m.insertion
        let parts ← AttributePart.ofChunks name chunks
        .ok (.insertion i :: parts)) = Except.error e →
        ∃ m, .mustache m ∈ chunk :: chunks ∧ e.IsAt m := by
      intro m hchunk h
      rcases of_bind_eq_error h with h | ⟨i, -, h⟩
      · exact ⟨m, by simp [hchunk], isAt_of_insertion h⟩
      · rcases of_bind_eq_error h with h | ⟨parts, -, h⟩
        · exact hrest h
        · cases h
    cases chunk with
    | text s =>
      rcases of_bind_eq_error h with h | ⟨parts, -, h⟩
      · exact hrest h
      · cases h
    | mustache m =>
      rw [AttributePart.ofChunks] at h
      split at h
      · exact hrest h
      · exact hinsertion rfl h
      · exact hinsertion rfl h
      · cases h
        exact ⟨m, by simp, rfl, id⟩
      · cases h
        exact ⟨m, by simp, rfl, id⟩
      · cases h
        exact ⟨m, by simp, rfl, id⟩

/-- Conversion fails at one of the items. -/
theorem exists_of_mapM_eq_error {α β ε : Type} {f : α → Except ε β} {e : ε} {xs : List α}
    (h : xs.mapM f = .error e) : ∃ x ∈ xs, f x = .error e := by
  induction xs with
  | nil => cases h
  | cons x xs ih =>
    rw [List.mapM_cons] at h
    rcases of_bind_eq_error h with hx | ⟨y, -, h⟩
    · exact ⟨x, by simp, hx⟩
    · rcases of_bind_eq_error h with hxs | ⟨ys, -, h⟩
      · obtain ⟨x', hx', heq⟩ := ih hxs
        exact ⟨x', List.mem_cons_of_mem _ hx', heq⟩
      · cases h

theorem isIn_of_mapM_ofRaw {tag : StartTag}
    (h : tag.attributes.mapM Attribute.ofRaw = .error e) : e.IsIn (.startTag tag) := by
  obtain ⟨raw, hraw, h⟩ := exists_of_mapM_eq_error h
  rcases of_bind_eq_error h with h | ⟨parts, -, h⟩
  · obtain ⟨m, hm, hat⟩ := exists_isAt_of_ofChunks h
    refine hat.isIn (List.mem_append_right _ (List.mem_flatMap.2 ⟨raw, hraw, ?_⟩))
    exact List.mem_filterMap.2 ⟨_, hm, rfl⟩
  · cases h

theorem isIn_of_mem_withoutComments {tag : StartTag} (hm : m ∈ withoutComments tag.modifiers)
    (h : e.IsAt m) : e.IsIn (.startTag tag) :=
  h.isIn (List.mem_append_left _ (mem_withoutComments.1 hm).1)

end Conversion

/-! ## steps -/

/-- Whether a token closes a block. -/
def Token.ClosesBlock : Token → Prop
  | .mustache m => m.kind = .closing
  | _ => False

/-- Whether a token closes an element or a component. -/
def Token.ClosesTag : Token → Prop
  | .endTag .. => True
  | _ => False

/-- Whether a token closes something else than what is open: a block around a tag, or the other
way round. -/
def Opening.IsCutBy : Opening → Token → Prop
  | .element .. | .component .. => Token.ClosesBlock
  | .block .. => Token.ClosesTag

/-- The fault of a frame that is cut at `hi`. -/
def Frame.fault (frame : Frame) (hi : Nat) : ParseError :=
  ⟨frame.opening.unclosed, ⟨frame.opening.lo, hi⟩⟩

namespace Construction

variable {options : TemplateOptions} {s s' : Construction} {e : ParseError}

theorem isIn_of_startTag {tag : StartTag} (h : s.startTag options tag = .error e) :
    e.IsIn (.startTag tag) := by
  rcases of_bind_eq_error h with h | ⟨attributes, -, h⟩
  · exact isIn_of_mapM_ofRaw h
  · split at h
    · rw [startComponent] at h
      split at h
      · next m ms hm =>
        cases h
        exact isIn_of_mem_withoutComments (hm ▸ List.mem_cons_self) ⟨rfl, id⟩
      · cases h
    · rcases of_bind_eq_error h with h | ⟨modifiers, -, h⟩
      · obtain ⟨m, hm, h⟩ := exists_of_mapM_eq_error h
        exact isIn_of_mem_withoutComments hm (isAt_of_modifier h)
      · cases h

/-- A fault is that of the innermost frame, which a token cuts. -/
def IsCut (s : Construction) (token : Token) (e : ParseError) : Prop :=
  ∃ frame frames, s.frames = frame :: frames ∧ frame.opening.IsCutBy token ∧
    e = frame.fault token.span.hi

theorem fault_of_endTag {name : String} {span : Span} (h : s.endTag name span = .error e) :
    e.IsIn (.endTag name span) ∨ s.IsCut (.endTag name span) e := by
  rw [endTag] at h
  split at h
  · cases h
    exact .inl ⟨.inl rfl, id⟩
  · split at h
    · cases h
      exact .inl ⟨.inl rfl, id⟩
    · next frame frames hframes =>
      obtain ⟨opening, before, ns⟩ := frame
      cases opening with
      | element tag start =>
        simp only at h
        split at h <;> cases h
        exact .inl ⟨.inl rfl, id⟩
      | component tag start =>
        simp only at h
        split at h <;> cases h
        exact .inl ⟨.inl rfl, id⟩
      | block call blockParams body lo =>
        cases h
        exact .inr ⟨_, frames, hframes, trivial, rfl⟩

theorem isAt_of_otherwise {m : Mustache} (h : s.otherwise m = .error e) : e.IsAt m := by
  rw [Construction.otherwise] at h
  split at h
  · simp only at h
    split at h <;> cases h
    exact ⟨rfl, id⟩
  · cases h
    exact ⟨rfl, id⟩

theorem fault_of_closeBlock {m : Mustache} (hkind : m.kind = .closing)
    (h : s.closeBlock m = .error e) : e.IsAt m ∨ s.IsCut (.mustache m) e := by
  rw [closeBlock] at h
  split at h
  · cases h
    exact .inl ⟨rfl, id⟩
  · next frame frames hframes =>
    obtain ⟨opening, before, ns⟩ := frame
    cases opening with
    | block call blockParams body lo =>
      simp only at h
      split at h <;> cases h
      exact .inl ⟨rfl, id⟩
    | element tag start =>
      cases h
      exact .inr ⟨_, frames, hframes, hkind, rfl⟩
    | component tag start =>
      cases h
      exact .inr ⟨_, frames, hframes, hkind, rfl⟩

/-- A token is at fault itself, or it closes something else than what is open. -/
theorem fault_of_step {token : Token} (h : s.step options token = .error e) :
    e.IsIn token ∨ s.IsCut token e := by
  cases token with
  | text text span => cases h
  | comment text span => cases h
  | startTag tag => exact .inl (isIn_of_startTag h)
  | endTag name span => exact fault_of_endTag h
  | mustache m =>
    have hm : ∀ {e : ParseError}, e.IsAt m → e.IsIn (.mustache m) := fun hat => hat.isIn (by
      simp [Token.mustaches])
    have hinsert : s.insert m = .error e → e.IsIn (.mustache m) := fun h => by
      rcases of_bind_eq_error h with h | ⟨i, -, h⟩
      · exact hm (isAt_of_insertion h)
      · cases h
    rw [step] at h
    split at h
    · cases h
    · exact .inl (hinsert h)
    · exact .inl (hinsert h)
    · rcases of_bind_eq_error h with h | ⟨expression, -, h⟩
      · exact .inl (hm (isAt_of_ofContent h))
      · cases h
    · exact .inl (hm (isAt_of_otherwise h))
    · next hkind => exact (fault_of_closeBlock hkind h).imp_left hm

/-- Reading stops at the first token that cannot be added. -/
theorem exists_of_run_eq_error {tokens : List Token} (h : run options tokens s = .error e) :
    ∃ read token rest s', tokens = read ++ token :: rest ∧ run options read s = .ok s' ∧
      s'.step options token = .error e := by
  induction tokens generalizing s with
  | nil => cases h
  | cons token tokens ih =>
    rw [run, List.foldlM_cons] at h
    rcases of_bind_eq_error h with hstep | ⟨s₁, hstep, hrun⟩
    · exact ⟨[], token, tokens, s, rfl, rfl, hstep⟩
    · obtain ⟨read, token', rest, s', rfl, hread, hfault⟩ := ih hrun
      exact ⟨token :: read, token', rest, s', rfl, run_cons (step_eq_ok_iff.1 hstep) hread, hfault⟩

end Construction

/-! ## sources -/

/-- A fault ends with the token in front of which tokens were cut off, or with the source. -/
def ParseError.EndsWith (e : ParseError) (source : String) (cuts : Token → Prop) :
    List Token → Prop
  | [] => e.span.hi = byteLength source.toList
  | token :: _ => cuts token ∧ e.span.hi = token.span.hi

/-- A fault begins where a token begins that opened something; what stands behind that token is
well-nested, up to one that closes something else or to the end of the source. -/
inductive ParseError.LeavesOpen (e : ParseError) (source : String) : Prop where
  | tag {tag : StartTag} {before inside rest : List Token}
    (htokens : templateTokens source = before ++ .startTag tag :: inside ++ rest)
    (hopen : ¬tag.IsSingle) (hinside : Content inside)
    (hcause : e.cause = .unclosedElement tag.name) (hlo : e.span.lo = tag.span.lo)
    (hrest : e.EndsWith source Token.ClosesBlock rest)
  | block {m : Mustache} {path : String} {before inside rest : List Token}
    (htokens : templateTokens source = before ++ .mustache m :: inside ++ rest)
    (hopens : m.Opens path) (hinside : Content inside) (hcause : e.cause = .unclosedBlock path)
    (hlo : e.span.lo = m.span.lo) (hrest : e.EndsWith source Token.ClosesTag rest)
  | inverse {m otherwise : Mustache} {path : String} {before inside behind rest : List Token}
    (htokens : templateTokens source =
      before ++ .mustache m :: inside ++ .mustache otherwise :: behind ++ rest)
    (hopens : m.Opens path) (helse : otherwise.IsBareElse) (hinside : Content inside)
    (hbehind : Content behind) (hcause : e.cause = .unclosedBlock path)
    (hlo : e.span.lo = m.span.lo) (hrest : e.EndsWith source Token.ClosesTag rest)

section Sources

variable {source : String}

/-- The frame that is cut is the one of the last token that is still open. -/
theorem Pending.leavesOpen {frame : Frame} {frames : List Frame} {read rest : List Token} {hi : Nat}
    (h : Pending (frame :: frames) read) (htokens : templateTokens source = read ++ rest)
    (hrest : (frame.fault hi).EndsWith source frame.opening.IsCutBy rest) :
    (frame.fault hi).LeavesOpen source := by
  cases h with
  | @tag opening before ns frames tag tokens inside hname hlo hopen hbefore hinside =>
    cases opening with
    | element element start =>
      have hcause := congrArg ParseError.Cause.unclosedElement (Option.some.inj hname)
      exact .tag htokens hopen hinside hcause hlo hrest
    | component component start =>
      have hcause := congrArg ParseError.Cause.unclosedElement (Option.some.inj hname)
      exact .tag htokens hopen hinside hcause hlo hrest
    | block call blockParams body lo => cases hname
  | block hopens hlo hbefore hinside => exact .block htokens hopens hinside rfl hlo hrest
  | inverse hopens hlo helse hbefore hinside hbehind =>
    exact .inverse htokens hopens helse hinside hbehind rfl hlo hrest

/-- What is open was opened in front of its content. -/
theorem Opening.OpensAt.exists_isPart {opening : Opening} {inside : Nat}
    (h : opening.OpensAt source inside) :
    ∃ span : Span, span.IsPart source.toList ∧ span.lo = opening.lo ∧ span.hi ≤ inside := by
  cases h with
  | element hbegins => exact ⟨_, isPart_of_mem hbegins.mem, rfl, le_rfl⟩
  | component hbegins => exact ⟨_, isPart_of_mem hbegins.mem, rfl, le_rfl⟩
  | block hm => exact ⟨_, isPart_of_mem hm, rfl, le_rfl⟩
  | inverse hm hopens helse hbody =>
    exact ⟨_, isPart_of_mem hm, rfl, hbody.le.trans (isPart_of_mem helse).lo_lt_hi.le⟩

theorem isPart_of_mem_mustaches {token : Token} (h : token ∈ templateTokens source) {m : Mustache}
    (hm : m ∈ token.mustaches) : m.span.IsPart source.toList := by
  have hread : ∀ {slice}, m.span.Covers source.toList slice ∧ m.IsReadFrom slice →
      m.span.IsPart source.toList := fun h => ⟨_, h.2.ne_nil, h.1⟩
  cases token with
  | startTag tag =>
    have hlaid := (isTiling_template source).isLaidOut tag h
    rcases List.mem_append.1 hm with hm | hm
    · obtain ⟨-, slice, hslice⟩ := hlaid.modifierInside m hm
      exact hread hslice
    · obtain ⟨a, ha, hm⟩ := List.mem_flatMap.1 hm
      obtain ⟨chunk, hchunk, heq⟩ := List.mem_filterMap.1 hm
      cases chunk with
      | text s => cases heq
      | mustache m' =>
        cases heq
        obtain ⟨-, slice, hslice⟩ := hlaid.valueInside a ha m hchunk
        exact hread hslice
  | mustache m' =>
    obtain rfl := List.mem_singleton.1 hm
    exact isPart_of_mem h
  | endTag | text | comment => cases hm

theorem Tiles.of_append {lo hi : Nat} {read rest : List Token} (h : Tiles lo (read ++ rest) hi) :
    ∃ mid, Tiles lo read mid ∧ Tiles mid rest hi := by
  induction read generalizing lo with
  | nil => exact ⟨lo, rfl, h⟩
  | cons token read ih =>
    obtain ⟨hlo, h⟩ := h
    obtain ⟨mid, hread, hrest⟩ := ih h
    exact ⟨mid, ⟨hlo, hread⟩, hrest⟩

/-- A fault covers something of the source, and what was not closed was opened where it begins. -/
structure ParseError.IsLocated (e : ParseError) (source : String) : Prop where
  isPart : e.span.IsPart source.toList
  leavesOpen : e.cause.IsUnclosed → e.LeavesOpen source

variable {options : TemplateOptions} {e : ParseError}

theorem ParseError.IsIn.isLocated {token : Token} (h : e.IsIn token)
    (htoken : token ∈ templateTokens source) : e.IsLocated source := by
  refine ⟨?_, fun hunclosed => absurd hunclosed h.closed⟩
  rcases h.span_eq with hspan | ⟨m, hm, hspan⟩
  · exact hspan ▸ isPart_of_mem htoken
  · exact hspan ▸ isPart_of_mem_mustaches htoken hm

theorem Construction.isLocated_of_run
    (h : Construction.run options (templateTokens source) {} = .error e) : e.IsLocated source := by
  obtain ⟨read, token, rest, s, htokens, hrun, hfault⟩ := Construction.exists_of_run_eq_error h
  have hmem : ∀ other ∈ read ++ token :: rest, other ∈ templateTokens source :=
    fun other hother => htokens ▸ hother
  have htoken := hmem token (by simp)
  rcases Construction.fault_of_step hfault with hin | ⟨frame, frames, hframes, hcut, rfl⟩
  · exact hin.isLocated htoken
  · obtain ⟨hi, htiles, -⟩ := (isTiling_template source).tiles
    rw [← templateTokens, htokens] at htiles
    obtain ⟨mid, hread, rfl, -⟩ := htiles.of_append
    obtain ⟨inside, hsurrounds, hnodes⟩ := Construction.standsAt_run
      (fun other hother => hmem other (List.mem_append_left _ hother)) hread hrun
      (Construction.standsAt_start source)
    obtain ⟨-, hpending⟩ := Construction.pending_of_run hrun (.nil .nil)
    rw [hframes] at hpending hsurrounds
    refine ⟨?_, fun _ => hpending.leavesOpen htokens ⟨hcut, rfl⟩⟩
    cases hsurrounds with
    | cons _ _ hopening =>
      obtain ⟨span, hpart, hlo, hhi⟩ := hopening.exists_isPart
      rw [Frame.fault, ← hlo]
      exact hpart.hull (isPart_of_mem htoken) (hhi.trans hnodes.le)

/-- What is open in the end is not closed. -/
theorem Construction.isLocated_of_finish {s : Construction}
    (hrun : Construction.run options (templateTokens source) {} = .ok s)
    (h : s.finish (byteLength source.toList) = .error e) : e.IsLocated source := by
  rw [Construction.finish] at h
  split at h
  · cases h
  · next frame frames hframes =>
    obtain rfl : frame.fault (byteLength source.toList) = e := Except.error.inj h
    obtain ⟨hi, htiles, -⟩ := (isTiling_template source).tiles
    obtain ⟨inside, hsurrounds, hnodes⟩ := Construction.standsAt_run (fun _ hmem => hmem) htiles
      hrun (Construction.standsAt_start source)
    obtain ⟨-, hpending⟩ := Construction.pending_of_run hrun (.nil .nil)
    rw [hframes] at hpending hsurrounds
    refine ⟨?_, fun _ => hpending.leavesOpen (List.append_nil _).symm rfl⟩
    cases hsurrounds with
    | cons _ _ hopening =>
      obtain ⟨span, hpart, hlo, -⟩ := hopening.exists_isPart
      rw [Frame.fault, ← hlo]
      exact hpart.toStop

/-- The nodes of a template that is accepted nest: they ascend through the source, and those inside
each of them ascend within it, between the tokens that open and close it.  The fault of one that is
rejected covers something of the source, and what was not closed was opened where it begins. -/
theorem Template.nests_ofSource (options : TemplateOptions) (source : String) :
    match Template.ofSource options source with
    | .ok t => (t.children.Pairwise fun a b => a.span.Before b.span) ∧
        ∀ top ∈ t.children, ∀ node, top.Encloses node → node.IsPlaced source
    | .error e => e.IsLocated source := by
  cases h : Template.ofSource options source with
  | ok t =>
    have hascends := Template.ascends_ofSource h
    exact ⟨hascends.ascending, hascends.nests⟩
  | error e =>
    rcases of_bind_eq_error h with hrun | ⟨s, hrun, hfinish⟩
    · exact Construction.isLocated_of_run hrun
    · split at hfinish
      · next e' herror =>
        cases hfinish
        obtain ⟨hi, -, hstops⟩ := (isTiling_template source).tiles
        rw [Reading.StopsAt, herror] at hstops
        exact ⟨hstops.2.2, fun hunclosed => absurd hunclosed hstops.1.not_isUnclosed⟩
      · exact Construction.isLocated_of_finish hrun hfinish

end Sources

end LiveTemplate
