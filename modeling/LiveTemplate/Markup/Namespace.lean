/-!
# LiveTemplate.Markup.Namespace

Element names: the namespace an element belongs to, and what is known of a tag by
its name.

The tags `svg` and `math` put themselves into a namespace; every other element is
in the namespace its parent hands down.  Most elements hand down their own.  Some
foreign elements, the *integration points*, hold HTML again.
-/

namespace LiveTemplate

/-- The namespace of an element. -/
inductive Namespace where
  | xhtml
  | svg
  | mathml
deriving DecidableEq, Repr, Inhabited

namespace Namespace

def uri : Namespace → String
  | xhtml => "http://www.w3.org/1999/xhtml"
  | svg => "http://www.w3.org/2000/svg"
  | mathml => "http://www.w3.org/1998/Math/MathML"

/-- The namespace a tag fixes for itself, whatever its parent. -/
def fixedBy? (tag : String) : Option Namespace :=
  if tag = "svg" then some svg
  else if tag = "math" then some mathml
  else none

/-- The namespace of an element below a parent which hands down `inherited`. -/
def ofElement (tag : String) (inherited : Namespace) : Namespace :=
  (fixedBy? tag).getD inherited

end Namespace

/-- The SVG elements whose content is HTML. -/
def isSvgIntegrationPoint (tag : String) : Bool :=
  ["foreignObject", "desc", "title"].contains tag

/-- The MathML elements whose content is HTML. -/
def isMathmlIntegrationPoint (tag : String) : Bool :=
  tag == "annotation-xml"

/-- Whether a tag is an integration point in one of the foreign namespaces. -/
def isIntegrationPoint (tag : String) : Bool :=
  isSvgIntegrationPoint tag || isMathmlIntegrationPoint tag

/-- The namespace an element of namespace `own` hands down to its children. -/
def Namespace.below (tag : String) (own : Namespace) : Namespace :=
  match own with
  | .svg => if isSvgIntegrationPoint tag then .xhtml else .svg
  | .mathml => if isMathmlIntegrationPoint tag then .xhtml else .mathml
  | .xhtml => .xhtml

/-! ## tags -/

/-- The tags of elements without content, in small letters. -/
def voidTags : List String :=
  ["area", "base", "br", "col", "command", "embed", "hr", "img", "input", "keygen", "link",
    "meta", "param", "source", "track", "wbr"]

/-- A name with its ASCII letters made small. -/
def asciiLowercase (name : String) : String :=
  String.ofList (name.toList.map Char.toLower)

/-- Whether a tag names an element without content, in letters of either case. -/
def isVoidTag (tag : String) : Bool :=
  voidTags.contains (asciiLowercase tag)

/-- The tags with a dash that SVG and MathML have claimed. -/
def reservedDashedTags : List String :=
  ["annotation-xml", "color-profile", "font-face", "font-face-src", "font-face-uri",
    "font-face-format", "font-face-name", "missing-glyph"]

/-- Whether a tag may name a component: it has a dash and is not reserved. -/
def isComponentTag (tag : String) : Bool :=
  tag.toList.contains '-' && !reservedDashedTags.contains tag

/-- Whether two tags are the same up to the case of ASCII letters. -/
def sameTag (a b : String) : Bool :=
  asciiLowercase a == asciiLowercase b

/-- The elements that hand down XHTML are those of XHTML and the integration points, each in its own
namespace. -/
theorem Namespace.below_eq_xhtml_iff {tag : String} {own : Namespace} :
    own.below tag = .xhtml ↔
      own = .xhtml ∨ own = .svg ∧ tag ∈ ["foreignObject", "desc", "title"] ∨
        own = .mathml ∧ tag = "annotation-xml" := by
  have hpoint : isSvgIntegrationPoint tag = true ↔ tag ∈ ["foreignObject", "desc", "title"] :=
    List.contains_iff_mem
  cases own with
  | xhtml => simp [below]
  | svg => simp [below, ← hpoint]
  | mathml => simp [below, isMathmlIntegrationPoint]

/-- Outside the foreign namespaces no element changes what its children inherit. -/
theorem Namespace.below_xhtml (tag : String) : Namespace.below tag .xhtml = .xhtml :=
  below_eq_xhtml_iff.2 (.inl rfl)

/-- A foreign element that is no integration point hands down its own namespace. -/
theorem Namespace.below_of_not_isIntegrationPoint {tag : String} (own : Namespace)
    (h : isIntegrationPoint tag = false) : own.below tag = own := by
  simp only [isIntegrationPoint, Bool.or_eq_false_iff] at h
  cases own <;> simp [Namespace.below, h]

end LiveTemplate
