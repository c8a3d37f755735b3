/-!
# LiveTemplate.Text.Space

The three sets of blank characters a template distinguishes.

* Inside tags, HTML's *space characters* separate attributes (`isSpace`).
* Inside mustaches, *blanks* separate the parts of a call (`isBlank`);
  form feeds are not among them.
* The content of a mustache is trimmed of all *white space* in the sense of
  Unicode (`isWhiteSpace`).
-/

namespace LiveTemplate

/-- HTML's space characters: space, tab, line feed, form feed and carriage return. -/
def isSpace (c : Char) : Bool :=
  c == ' ' || c == '\t' || c == '\n' || c == '\r' || c == '\x0c'

/-- The blanks of an expression: space, tab, line feed and carriage return. -/
def isBlank (c : Char) : Bool :=
  c == ' ' || c == '\t' || c == '\n' || c == '\r'

/-- The characters with the Unicode property `White_Space`. -/
def isWhiteSpace (c : Char) : Bool :=
  let n := c.toNat
  (9 ≤ n && n ≤ 13) || n == 0x20 || n == 0x85 || n == 0xA0 || n == 0x1680 ||
    (0x2000 ≤ n && n ≤ 0x200A) || n == 0x2028 || n == 0x2029 || n == 0x202F ||
    n == 0x205F || n == 0x3000

/-- A space character is a blank or a form feed. -/
theorem isSpace_iff {c : Char} : isSpace c = true ↔ isBlank c = true ∨ c = '\x0c' := by
  simp [isSpace, isBlank]

/-- Every blank is a space character. -/
theorem isSpace_of_isBlank {c : Char} (h : isBlank c) : isSpace c := isSpace_iff.2 (.inl h)

/-- Every space character is white space. -/
theorem isWhiteSpace_of_isSpace {c : Char} (h : isSpace c) : isWhiteSpace c := by
  simp only [isSpace, Bool.or_eq_true, beq_iff_eq] at h
  rcases h with (((rfl | rfl) | rfl) | rfl) | rfl <;> rfl

/-- The text without the white space at its two ends. -/
def trim (s : List Char) : List Char :=
  ((s.dropWhile isWhiteSpace).reverse.dropWhile isWhiteSpace).reverse

/-- The text of a string without the white space at its two ends. -/
def trimString (s : String) : String := String.ofList (trim s.toList)

end LiveTemplate
