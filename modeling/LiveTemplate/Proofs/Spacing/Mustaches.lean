import LiveTemplate.Proofs.Spacing.Texts

/-!
# LiveTemplate.Proofs.Spacing.Mustaches

Mustaches with even blanks.

The content of a comment is no expression and stays as it is.  Of all other mustaches the content
is made even, which changes neither where they end nor what they do.  To that end the blank behind
an `else` that begins the content becomes a space only if it was one, and a tab if not: `else` and
a space begin what is chained to `else`, whereas `else` and another blank begin a call of `else`.
-/

namespace LiveTemplate

/-! ## the blank behind `else` -/

/-- Whether the content of a mustache begins with `else` and a blank that is not a space. -/
def beginsTabbedElse (content : List Char) : Bool :=
  match trim content with
  | 'e' :: 'l' :: 's' :: 'e' :: c :: _ => isBlank c && c != ' '
  | _ => false

/-- Writes a tab for the space behind an `else` that begins a content. -/
def tabElse : List Char → List Char
  | 'e' :: 'l' :: 's' :: 'e' :: ' ' :: s => 'e' :: 'l' :: 's' :: 'e' :: '\t' :: s
  | c :: s => if isWhiteSpace c then c :: tabElse s else c :: s
  | [] => []

theorem evenText_tabElse (s : List Char) : evenText none (tabElse s) = evenText none s := by
  fun_induction tabElse s with
  | case1 s => rfl
  | case2 c s _ hspace ih =>
    rw [evenText, evenText, quoteBehind_of_isWhiteSpace hspace, ih]
  | case3 | case4 => rfl

/-- The tab is written behind the white space that begins a content. -/
theorem dropWhile_tabElse {s rest : List Char}
    (h : s.dropWhile isWhiteSpace = ['e', 'l', 's', 'e', ' '] ++ rest) :
    (tabElse s).dropWhile isWhiteSpace = ['e', 'l', 's', 'e', '\t'] ++ rest := by
  fun_induction tabElse s with
  | case1 s =>
    have hsame : ['e', 'l', 's', 'e', ' '] ++ s = ['e', 'l', 's', 'e', ' '] ++ rest := h
    rw [← List.append_cancel_left hsame]
    rfl
  | case2 c s _ hspace ih =>
    rw [List.dropWhile_cons_of_pos hspace] at h ⊢
    exact ih h
  | case3 c s hnone hspace =>
    rw [List.dropWhile_cons_of_neg hspace] at h
    obtain ⟨rfl, rfl⟩ := List.cons.inj h
    exact absurd rfl (hnone rest rfl)
  | case4 => cases h

/-- The tab is no white space at the end, for what follows it is none. -/
theorem trim_tabElse {s rest : List Char} (h : trim s = ['e', 'l', 's', 'e', ' '] ++ rest) :
    trim (tabElse s) = ['e', 'l', 's', 'e', '\t'] ++ rest := by
  have hprefix : trim s <+: s.dropWhile isWhiteSpace := by
    rw [trim, ← List.reverse_suffix, List.reverse_reverse]
    exact List.dropWhile_suffix isWhiteSpace
  obtain ⟨after, hafter⟩ := hprefix
  rw [h, List.append_assoc] at hafter
  rw [trim, ← hafter] at h
  rw [trim, dropWhile_tabElse hafter.symm]
  rw [List.reverse_append, List.dropWhile_append] at h ⊢
  split at h
  · cases h
  · next hne =>
    rw [if_neg hne]
    rw [List.reverse_append, List.reverse_reverse] at h ⊢
    rw [List.append_cancel_left h]

/-- An even text begins with no other blank behind `else` than a space. -/
theorem beginsTabbedElse_evenText (content : List Char) :
    beginsTabbedElse (evenText none content) = false := by
  have helse : isPlainWord ['e', 'l', 's', 'e'] = true := rfl
  rw [beginsTabbedElse, trim_evenText]
  split
  · next c rest h =>
    obtain ⟨u, -, hu⟩ := exists_of_evenText_eq_append (t := c :: rest) helse h
    cases u with
    | nil => cases hu
    | cons d u =>
      obtain ⟨rfl, -⟩ := List.cons.inj hu
      have hkept := evenCharacter_evenCharacter none d
      cases hblank : isBlank (evenCharacter none d) with
      | false => rfl
      | true =>
        rw [evenCharacter, hblank] at hkept
        rw [← hkept]
        rfl
  · rfl

theorem beginsTabbedElse_tabElse {content : List Char} (h : beginsTabbedElse content = true) :
    beginsTabbedElse (tabElse (evenText none content)) = true := by
  rw [beginsTabbedElse] at h
  split at h
  · next c rest hcontent =>
    obtain ⟨hblank, -⟩ := Bool.and_eq_true_iff.1 h
    have heven : trim (evenText none content) =
        ['e', 'l', 's', 'e', ' '] ++ evenText none rest := by
      rw [trim_evenText, hcontent]
      rcases eq_of_isBlank hblank with rfl | rfl | rfl | rfl <;> rfl
    rw [beginsTabbedElse, trim_tabElse heven]
    rfl
  · cases h

namespace Mustache

/-- The content of a mustache, made even. -/
def evenContent (kind : Kind) (content : List Char) : List Char :=
  match kind with
  | .comment => content
  | .escaped =>
    if beginsTabbedElse content then tabElse (evenText none content) else evenText none content
  | .unescaped | .opening | .otherwise | .closing => evenText none content

/-- A mustache with its content made even. -/
def even (m : Mustache) : Mustache :=
  { m with content := String.ofList (evenContent m.kind m.content.toList) }

theorem evenText_evenContent (kind : Kind) (content : List Char) :
    evenText none (evenContent kind content) = evenText none content := by
  rw [evenContent.eq_def]
  split
  · rfl
  · split
    · rw [evenText_tabElse, evenText_evenText]
    · exact evenText_evenText none content
  all_goals exact evenText_evenText none content

/-- What is even stays as it is. -/
theorem evenContent_evenContent (kind : Kind) (content : List Char) :
    evenContent kind (evenContent kind content) = evenContent kind content := by
  cases kind with
  | comment => rfl
  | escaped =>
    cases htabbed : beginsTabbedElse content with
    | true =>
      have heven := evenText_evenContent .escaped content
      simp only [evenContent, htabbed, if_true] at heven ⊢
      rw [if_pos (beginsTabbedElse_tabElse htabbed), heven]
    | false => simp [evenContent, htabbed, beginsTabbedElse_evenText, evenText_evenText]
  | unescaped | opening | otherwise | closing => exact evenText_evenText none content

theorem alike_evenContent (kind : Kind) (content : List Char) :
    Alike (evenContent kind content) content :=
  alike_of_evenText_eq (evenText_evenContent kind content)

/-! ## where mustaches end -/

theorem isBlank_of_mem_forms {form : Form} (hform : form ∈ forms) :
    form.opening.any isBlank = false ∧ form.closing.any isBlank = false ∧
      form.opening ≠ [] ∧ form.closing ≠ [] := by
  simp only [forms, List.mem_cons, List.not_mem_nil, or_false] at hform
  rcases hform with rfl | rfl | rfl | rfl <;> exact ⟨rfl, rfl, by simp, by simp⟩

/-- A mustache with even content ends where it did, whatever follows it. -/
theorem Form.cut?_even {form : Form} (hform : form ∈ forms) {s before after : List Char}
    (h : form.cut? s = some (before, after)) (rest : List Char) :
    form.cut? (evenContent form.kind before ++ form.closing ++ rest) =
      some (evenContent form.kind before, rest) := by
  obtain ⟨-, hclosing, -, hne⟩ := isBlank_of_mem_forms hform
  rw [Form.cut?.eq_def] at h ⊢
  split at h
  · next hkind =>
    simp only [hkind]
    exact cut?_replace hclosing hne h rest
  · next hkind =>
    exact cutOutsideQuotes?_replace hclosing hne h (evenText_evenContent form.kind before) rest

/-! ## what mustaches do -/

/-- What begins with `else` and a tab, or another blank that is no space, is an expression. -/
theorem classify_of_beginsTabbedElse {content : List Char}
    (h : beginsTabbedElse content = true) : classify content = (.escaped, content) := by
  rw [beginsTabbedElse] at h
  rw [classify]
  split at h
  · next c rest hcontent =>
    rw [hcontent]
    have hc : c ≠ ' ' := by simpa using (Bool.and_eq_true_iff.1 h).2
    split <;> simp_all
  · cases h

/-- Making the content even changes neither what a mustache does nor, otherwise, its content. -/
theorem classify_evenContent (content : List Char) :
    classify (evenContent .escaped content) =
      ((classify content).1, evenContent (classify content).1 (classify content).2) := by
  by_cases htabbed : beginsTabbedElse content = true
  · have heven : evenContent .escaped content = tabElse (evenText none content) := by
      simp [evenContent, htabbed]
    rw [classify_of_beginsTabbedElse htabbed, heven,
      classify_of_beginsTabbedElse (beginsTabbedElse_tabElse htabbed)]
  · have heven : evenContent .escaped content = evenText none content := by
      simp [evenContent, htabbed]
    have helse : isPlainWord ['e', 'l', 's', 'e'] = true := rfl
    rw [beginsTabbedElse] at htabbed
    rw [heven, classify, trim_evenText, classify]
    split
    · next opened h =>
      obtain ⟨u, hu, rfl⟩ := exists_of_evenText_eq_cons rfl h
      rw [hu]
      rfl
    · next closed h =>
      obtain ⟨u, hu, rfl⟩ := exists_of_evenText_eq_cons rfl h
      rw [hu]
      show (Kind.closing, trim (evenText none u)) = (Kind.closing, evenText none (trim u))
      rw [trim_evenText]
    · next h =>
      obtain ⟨u, hu, hnil⟩ := exists_of_evenText_eq_append (t := []) helse h
      obtain rfl := evenText_eq_nil.1 hnil.symm
      rw [hu]
      rfl
    · next chained h =>
      obtain ⟨u, hu, hrest⟩ := exists_of_evenText_eq_append (t := ' ' :: chained) helse h
      cases u with
      | nil => cases hrest
      | cons c u =>
        obtain ⟨hc, rfl⟩ := List.cons.inj hrest
        -- Any other blank behind the `else` would have made the content a tabbed one.
        have hblank : isBlank c = true := by
          rw [← isBlank_evenCharacter none c, ← hc]
          rfl
        obtain rfl : c = ' ' := by
          by_contra hne
          exact htabbed (by rw [hu]; simp [hblank, hne])
        rw [hu]
        show (Kind.otherwise, trim (evenText none u)) = (Kind.otherwise, evenText none (trim u))
        rw [trim_evenText]
    · next hopening hclosing hotherwise hchained =>
      have hkept : classify content = (.escaped, content) := by
        rw [classify]
        split
        · next h => exact absurd (by rw [h]; rfl) (hopening _)
        · next h => exact absurd (by rw [h]; rfl) (hclosing _)
        · next h => exact absurd (by rw [h]; rfl) hotherwise
        · next h => exact absurd (by rw [h]; rfl) (hchained _)
        · rfl
      rw [classify] at hkept
      rw [hkept, heven]

end Mustache

end LiveTemplate
