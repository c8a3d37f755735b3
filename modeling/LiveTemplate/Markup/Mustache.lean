import LiveTemplate.ParseError
import LiveTemplate.Text.Cursor
import LiveTemplate.Text.Space

/-!
# LiveTemplate.Markup.Mustache

Mustaches as they stand in a source, between double or triple braces.

1. Three braces give an unescaped mustache, `!` a comment, `!--` a comment that
   ends at `--` and two braces; all others are told apart by their content.
2. Closing braces inside a quoted string do not end a mustache.  In a comment
   quotes have no meaning.
3. The content of a block opening is what follows `#`, the content of a block
   closing the trimmed rest after `/`, that of `else` the trimmed rest after it.
-/

namespace LiveTemplate

/-- What a mustache does. -/
inductive Mustache.Kind where
  | escaped
  | unescaped
  | opening
  | otherwise
  | closing
  | comment
deriving DecidableEq, Repr

/-- A mustache without its braces and its `#`, `/` or `else`. -/
structure Mustache where
  kind : Mustache.Kind
  content : String
  span : Span
deriving DecidableEq, Repr

/-- Splits a text at the first occurrence of `mark` outside quoted strings.  `quote` is the
quote of the string that is open at the start. -/
def cutOutsideQuotes? (mark : List Char) : Option Char → List Char → Option (List Char × List Char)
  | _, [] => none
  | some q, c :: cs =>
    (cutOutsideQuotes? mark (if c = q then none else some q) cs).map fun (before, after) =>
      (c :: before, after)
  | none, c :: cs =>
    if c = '"' ∨ c = '\'' then
      (cutOutsideQuotes? mark (some c) cs).map fun (before, after) => (c :: before, after)
    else
      match dropMark? mark (c :: cs) with
      | some after => some ([], after)
      | none =>
        (cutOutsideQuotes? mark none cs).map fun (before, after) => (c :: before, after)

/-- Cutting outside quotes loses nothing. -/
theorem eq_append_of_cutOutsideQuotes? {mark s before after : List Char} {quote : Option Char}
    (h : cutOutsideQuotes? mark quote s = some (before, after)) : s = before ++ mark ++ after := by
  induction s generalizing before quote with
  | nil => simp [cutOutsideQuotes?] at h
  | cons c cs ih =>
    have step : ∀ {q}, (cutOutsideQuotes? mark q cs).map (fun (b, a) => (c :: b, a)) =
        some (before, after) → c :: cs = before ++ mark ++ after := by
      intro q hq
      obtain ⟨⟨b, a⟩, hcut, heq⟩ := Option.map_eq_some_iff.1 hq
      simp only [Prod.mk.injEq] at heq
      obtain ⟨rfl, rfl⟩ := heq
      rw [ih hcut]; simp
    cases quote with
    | some q => exact step (by simpa only [cutOutsideQuotes?] using h)
    | none =>
      simp only [cutOutsideQuotes?] at h
      split at h
      · exact step h
      · split at h
        · next hm => simp_all [dropMark?_eq_some_iff.1 hm]
        · exact step h

namespace Mustache

/-- The braces around a mustache, and whether its content may hold quoted strings. -/
structure Form where
  opening : List Char
  closing : List Char
  kind : Kind

/-- The four forms, each before those whose opening braces begin it. -/
def forms : List Form :=
  [⟨['{', '{', '{'], ['}', '}', '}'], .unescaped⟩,
    ⟨['{', '{', '!', '-', '-'], ['-', '-', '}', '}'], .comment⟩,
    ⟨['{', '{', '!'], ['}', '}'], .comment⟩,
    ⟨['{', '{'], ['}', '}'], .escaped⟩]

/-- Whether a mustache stands at the start of a text. -/
def standsAt : List Char → Bool
  | '{' :: '{' :: _ => true
  | _ => false

/-- What a mustache with two braces does, and its content without the mark that says so. -/
def classify (content : List Char) : Kind × List Char :=
  match trim content with
  | '#' :: opened => (.opening, opened)
  | '/' :: closed => (.closing, trim closed)
  | ['e', 'l', 's', 'e'] => (.otherwise, [])
  | 'e' :: 'l' :: 's' :: 'e' :: ' ' :: chained => (.otherwise, trim chained)
  | _ => (.escaped, content)

/-- The content of a mustache of a given form, from behind its opening braces. -/
def Form.cut? (form : Form) (s : List Char) : Option (List Char × List Char) :=
  match form.kind with
  | .comment => LiveTemplate.cut? form.closing s
  | _ => cutOutsideQuotes? form.closing none s

theorem Form.eq_append_of_cut? {form : Form} {s before after : List Char}
    (h : form.cut? s = some (before, after)) : s = before ++ form.closing ++ after := by
  unfold Form.cut? at h
  split at h
  · exact LiveTemplate.eq_append_of_cut? h
  · exact eq_append_of_cutOutsideQuotes? h

/-- Reads a mustache of a given form from behind its opening braces; `start` is the cursor
before them. -/
def Form.read (form : Form) (start inside : Cursor) : Except ParseError (Mustache × Cursor) :=
  match form.cut? inside.rest with
  | none => .error ⟨.unterminatedMustache, start.spanToStop⟩
  | some (before, after) =>
    let stop := inside.past (before ++ form.closing) after
    let (kind, content) := match form.kind with
      | .escaped => classify before
      | kind => (kind, before)
    .ok (⟨kind, String.ofList content, start.spanTo stop⟩, stop)

/-- Reads the mustache at the cursor, if one stands there. -/
def read? (c : Cursor) : Option (Except ParseError (Mustache × Cursor)) :=
  forms.findSome? fun form => (c.skip? form.opening).map (form.read c)

theorem passes_read? {c d : Cursor} {m : Mustache} (h : read? c = some (.ok (m, d))) :
    c.Passes d := by
  obtain ⟨form, hmem, hform⟩ := List.exists_of_findSome?_eq_some h
  obtain ⟨inside, hskip, hread⟩ := Option.map_eq_some_iff.1 hform
  unfold Form.read at hread
  split at hread
  · simp at hread
  · next before after hcut =>
    have hne : form.opening ≠ [] := by
      simp only [forms, List.mem_cons, List.not_mem_nil, or_false] at hmem
      rcases hmem with rfl | rfl | rfl | rfl <;> simp
    simp only [Except.ok.injEq, Prod.mk.injEq] at hread
    have hd := hread.2
    subst hd
    exact ⟨_, by simp [hne], (Cursor.reads_skip? hskip).trans
      (Cursor.reads_past (Form.eq_append_of_cut? hcut))⟩

end Mustache

end LiveTemplate
