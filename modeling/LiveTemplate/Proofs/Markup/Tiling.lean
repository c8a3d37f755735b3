import LiveTemplate.Proofs.Markup.Positions
import Mathlib.Data.List.TakeWhile

/-!
# LiveTemplate.Proofs.Markup.Tiling

Tokens cover their source.

Each token goes from one cursor to a later one, and says of the text between the two what was
read there (`Token.IsReadBetween`).  The next token begins where it ends, so the tokens of a
source cover it from its first byte on: up to its end, or up to a fault
(`Reading.IsTiling`).
-/

namespace LiveTemplate

/-! ## tokens -/

/-- What a token says of the text it was read from. -/
def Token.IsReadFrom (slice : List Char) : Token → Prop
  | .startTag tag => ∃ inside, slice = ['<'] ++ tag.name.toList ++ inside ++ ['>']
  | .endTag name _ => ∃ blanks, (∀ x ∈ blanks, isBlank x = true) ∧
      slice = ['<', '/'] ++ name.toList ++ blanks ++ ['>']
  | .text s _ => s = String.ofList (decodeReferences slice)
  | .comment s _ => slice = ['<', '!', '-', '-'] ++ s.toList ++ ['-', '-', '>']
  | .mustache m => m.IsReadFrom slice

/-- What a token says of the text between two cursors. -/
structure Token.IsReadBetween (c d : Cursor) (token : Token) : Prop where
  span_eq : token.span = c.spanTo d
  reads : ∃ slice, c.Reads slice d ∧ token.IsReadFrom slice
  tag : ∀ tag, token = .startTag tag → tag.IsReadBetween c d

section Readers

variable {mode : Mode} {c d : Cursor} {e : ParseError}

theorem StartTag.IsReadBetween.reads {tag : StartTag} (h : tag.IsReadBetween c d) :
    ∃ slice, c.Reads slice d ∧ (Token.startTag tag).IsReadFrom slice := by
  obtain ⟨-, inside, g, parts, slash, hname, hparts, hslash, -, -⟩ := h
  obtain ⟨between, hbetween⟩ := hparts.reaches
  exact ⟨_, (hname.trans hbetween).trans hslash, between ++ slash, by simp⟩

theorem reads_readEndTag? {name : List Char} (h : readEndTag? c = some (name, d)) :
    ∃ blanks, (∀ x ∈ blanks, isBlank x = true) ∧
      c.Reads (['<', '/'] ++ name ++ blanks ++ ['>']) d := by
  obtain ⟨opened, hskip, h⟩ := Option.bind_eq_some_iff.1 h
  obtain ⟨⟨name', named⟩, hname, h⟩ := Option.bind_eq_some_iff.1 h
  obtain ⟨closed, hclose, h⟩ := Option.bind_eq_some_iff.1 h
  cases h
  refine ⟨named.rest.takeWhile isBlank, fun x hx => List.mem_takeWhile_imp hx, ?_⟩
  exact (((Cursor.reads_skip? hskip).trans (reads_readTagName? hname)).trans
    (Cursor.reads_skipWhile isBlank named)).trans (Cursor.reads_skip? hclose)

/-- A token covers the text it was read from. -/
theorem isReadBetween_of_readToken {token : Token} (h : readToken mode c = .ok (token, d)) :
    token.IsReadBetween c d := by
  cases readsToken_of_readToken h with
  | comment hopen hread =>
    have hreads := (Cursor.reads_skip? hopen).trans (Cursor.reads_readTo? hread)
    exact ⟨rfl, ⟨_, hreads, by simp [Token.IsReadFrom]⟩, by simp⟩
  | endTag hread =>
    obtain ⟨blanks, hblanks, hreads⟩ := reads_readEndTag? hread
    exact ⟨rfl, ⟨_, hreads, blanks, hblanks, by simp⟩, by simp⟩
  | startTag hread =>
    have htag := isReadBetween_of_readStartTag hread
    refine ⟨htag.1, htag.reads, fun tag heq => ?_⟩
    cases heq
    exact htag
  | mustache hread =>
    obtain ⟨hspan, slice, hreads, hm⟩ := Mode.reads_of_mustache? hread
    exact ⟨hspan, ⟨slice, hreads, hm⟩, by simp⟩
  | text => exact ⟨rfl, ⟨_, reads_readText, rfl⟩, by simp⟩

/-- A fault of a token covers something of what was left to read. -/
theorem faults_of_readToken (hne : c.rest ≠ []) (h : readToken mode c = .error e) :
    c.Faults e := by
  rw [readToken] at h
  split at h
  · rw [readComment] at h
    split at h <;> cases h
    exact Cursor.faults_spanToStop trivial hne
  · split at h
    · split at h <;> cases h
      exact Cursor.faults_spanToStop trivial hne
    · split at h
      · exact faults_of_readStartTag hne (of_map_eq_error h)
      · split at h
        · next read hread =>
          rw [of_map_eq_error h] at hread
          exact Mode.faults_of_mustache? hread
        · cases h

end Readers

/-! ## sources -/

/-- Tokens stand one behind the other, from `lo` to `hi`. -/
def Tiles : Nat → List Token → Nat → Prop
  | lo, [], hi => lo = hi
  | lo, token :: tokens, hi => token.span.lo = lo ∧ Tiles token.span.hi tokens hi

/-- A reading stops at `hi`: where its source ends, or in front of a fault of a token, which covers
something of the source. -/
def Reading.StopsAt (r : Reading) (source : List Char) (hi : Nat) : Prop :=
  match r.error? with
  | none => hi = byteLength source
  | some e => e.cause.IsLexical ∧ hi ≤ e.span.lo ∧ e.span.IsPart source

/-- A reading covers a source from `lo` on. -/
structure Reading.IsTiling (r : Reading) (source : List Char) (lo : Nat) : Prop where
  covers : ∀ token ∈ r.tokens,
    ∃ slice, slice ≠ [] ∧ token.span.Covers source slice ∧ token.IsReadFrom slice
  isLaidOut : ∀ tag, .startTag tag ∈ r.tokens → tag.IsLaidOut source
  tiles : ∃ hi, Tiles lo r.tokens hi ∧ r.StopsAt source hi

/-- What is left of a source is covered by what is read of it. -/
theorem isTiling_readTokens (mode : Mode) {source : List Char} {c : Cursor}
    (hc : (Cursor.ofSource source).Reaches c) :
    (readTokens mode c).IsTiling source c.offset := by
  fun_induction readTokens mode c with
  | case1 c hnil =>
    have hstop : c.offset = byteLength source := by
      have hstop := hc.stop_eq
      rw [Cursor.stop, hnil] at hstop
      simpa [byteLength, Cursor.stop, Cursor.ofSource] using hstop
    exact ⟨by simp, by simp, c.offset, rfl, hstop⟩
  | case2 c hne e hread =>
    obtain ⟨hlexical, d, slice, hslice, hholds⟩ := faults_of_readToken hne hread
    exact ⟨by simp, by simp, c.offset, rfl, hlexical, hholds.le_lo, slice, hslice,
      hholds.covers hc⟩
  | case3 c hne token d hread ih =>
    have hpasses := passes_readToken hne hread
    have htoken := isReadBetween_of_readToken hread
    obtain ⟨slice, hreads, hslice⟩ := htoken.reads
    have hrest := ih (hc.trans hpasses.reaches)
    have hne' : slice ≠ [] := by
      rintro rfl
      exact Nat.lt_irrefl _ (hreads.1 ▸ hpasses.length_lt)
    have hcovers : token.span.Covers source slice := htoken.span_eq ▸ hreads.holds.covers hc
    obtain ⟨hi, htiles, hstops⟩ := hrest.tiles
    refine ⟨List.forall_mem_cons.2 ⟨⟨slice, hne', hcovers, hslice⟩, hrest.covers⟩,
      fun tag htag => ?_, hi, ⟨by rw [htoken.span_eq]; rfl, ?_⟩, hstops⟩
    · rcases List.mem_cons.1 htag with heq | htag
      · exact (htoken.tag tag heq.symm).isLaidOut hc
      · exact hrest.isLaidOut tag htag
    · rw [htoken.span_eq]
      exact htiles

/-- The tokens of a source cover it without a gap, up to its end or in front of a fault, and no two
texts stand next to each other. -/
theorem Reading.isTiling_ofSource (mode : Mode) (source : String) :
    (Reading.ofSource mode source).IsTiling source.toList 0 ∧
      (Reading.ofSource mode source).tokens.IsChain fun a b => a.isText = true → b.isText = false :=
  ⟨isTiling_readTokens mode (.refl _), isChain_readTokens mode _⟩

end LiveTemplate
