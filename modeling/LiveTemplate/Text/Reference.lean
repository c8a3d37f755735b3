import LiveTemplate.Text.Cut
import LiveTemplate.Text.Numeral

/-!
# LiveTemplate.Text.Reference

Character references such as `&lt;`, `&#39;` and `&#x41;`, and the escaping that
protects a text from being read as markup.

A reference is an ampersand, a body of one to ten bytes without a semicolon, and
a semicolon.  The body is one of six names, or `#` and a decimal number, or `#x`
and a hexadecimal one.  All that is not a reference to a character stands for
itself, and a decoded character is never read again.
-/

namespace LiveTemplate

/-! ## decoding -/

/-- The character of a code point that is a Unicode scalar value. -/
def scalar? (n : Nat) : Option Char :=
  if n.isValidChar then some (Char.ofNat n) else none

/-- The characters with a name. -/
def namedCharacter? (name : List Char) : Option Char :=
  match name with
  | ['l', 't'] => some '<'
  | ['g', 't'] => some '>'
  | ['a', 'm', 'p'] => some '&'
  | ['q', 'u', 'o', 't'] => some '"'
  | ['a', 'p', 'o', 's'] => some '\''
  | ['n', 'b', 's', 'p'] => some '\u00A0'
  | _ => none

/-- The character a reference with this body stands for. -/
def referencedCharacter? (body : List Char) : Option Char :=
  match body with
  | '#' :: 'x' :: digits => (readNumeral? 16 digits).bind scalar?
  | '#' :: 'X' :: digits => (readNumeral? 16 digits).bind scalar?
  | '#' :: digits => (readNumeral? 10 digits).bind scalar?
  | name => namedCharacter? name

/-- The longest body of a reference, in bytes. -/
def maxReferenceLength : Nat := 10

/-- The character of the reference whose ampersand has just been read, and what
follows its semicolon. -/
def readReference? (s : List Char) : Option (Char × List Char) :=
  (cut? [';'] s).bind fun (body, after) =>
    if body ≠ [] ∧ byteLength body ≤ maxReferenceLength then
      (referencedCharacter? body).map fun c => (c, after)
    else none

theorem length_readReference? {s after : List Char} {c : Char}
    (h : readReference? s = some (c, after)) : after.length < s.length := by
  obtain ⟨⟨body, rest⟩, hcut, h⟩ := Option.bind_eq_some_iff.1 h
  simp only at h
  split at h
  · obtain ⟨d, -, heq⟩ := Option.map_eq_some_iff.1 h
    simp only [Prod.mk.injEq] at heq
    rw [eq_append_of_cut? hcut, ← heq.2]; simp; omega
  · simp at h

/-- Replaces the references of a text by their characters. -/
def decodeReferences : List Char → List Char
  | [] => []
  | c :: cs =>
    if c = '&' then
      match _h : readReference? cs with
      | some (d, after) => d :: decodeReferences after
      | none => c :: decodeReferences cs
    else c :: decodeReferences cs
termination_by s => s.length
decreasing_by
  · have := length_readReference? _h; simp only [List.length_cons]; omega
  · simp
  · simp

/-! ## escaping -/

/-- Where a text is written: between tags, or between the double quotes of an
attribute value. -/
inductive Place where
  | content
  | value
deriving DecidableEq, Repr

/-- The form of a character at a place.  Angle brackets are escaped in content, the
double quote in attribute values, the ampersand and U+00A0 at both. -/
def escapeCharacter (place : Place) (c : Char) : List Char :=
  match c, place with
  | '&', _ => ['&', 'a', 'm', 'p', ';']
  | '\u00A0', _ => ['&', 'n', 'b', 's', 'p', ';']
  | '<', .content => ['&', 'l', 't', ';']
  | '>', .content => ['&', 'g', 't', ';']
  | '"', .value => ['&', 'q', 'u', 'o', 't', ';']
  | c, _ => [c]

/-- Escapes a text for a place. -/
def escape (place : Place) (s : List Char) : List Char :=
  s.flatMap (escapeCharacter place)

/-- Escapes the text of a string. -/
def escapeString (place : Place) (s : String) : String :=
  String.ofList (escape place s.toList)

/-- Decodes the text of a string. -/
def decodeString (s : String) : String := String.ofList (decodeReferences s.toList)

theorem escape_append (place : Place) (s t : List Char) :
    escape place (s ++ t) = escape place s ++ escape place t := by
  simp [escape]

end LiveTemplate
