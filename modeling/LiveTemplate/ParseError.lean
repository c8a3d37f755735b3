import LiveTemplate.Text.Cut

/-!
# LiveTemplate.ParseError

What can be wrong with a template, and how it is said.

A malformed template is rejected as a whole: the first fault in document order is
reported, with the range of the source it concerns.
-/

namespace LiveTemplate

/-- Why the content of a mustache is no expression. -/
inductive ExpressionFault where
  | empty
  | unexpected (rest : String)
  | positionalAfterHash
  | noOperand
  | blockParamsOutsideBlock
  | chainedElse
deriving DecidableEq, Repr

/-- Why something inside a tag is not allowed there. -/
inductive AttributeFault where
  | unexpectedCharacter
  | modifierOnComponent
  | notACall
  | blockInValue
deriving DecidableEq, Repr

/-- The faults of a template. -/
inductive ParseError.Cause where
  | unterminatedComment
  | unterminatedMustache
  | unterminatedTag
  | mismatchedEndTag (expected found : String)
  | unexpectedEndTag (found : String)
  | voidEndTag (found : String)
  | unclosedElement (tag : String)
  | mismatchedBlockClose (expected found : String)
  | unexpectedBlockClose (found : String)
  | unclosedBlock (name : String)
  | unexpectedElse
  | invalidExpression (expression : String) (fault : ExpressionFault)
  | invalidAttribute (name : String) (fault : AttributeFault)
deriving DecidableEq, Repr

/-- A fault and the range of the source it concerns. -/
structure ParseError where
  cause : ParseError.Cause
  span : Span
deriving DecidableEq, Repr

/-! ## wording -/

/-- A piece of the template inside a message. -/
def quoted (s : String) : String := "`" ++ s ++ "`"

def ExpressionFault.message : ExpressionFault → String
  | empty => "empty expression"
  | unexpected rest => "unexpected " ++ quoted rest
  | positionalAfterHash => "positional params must come before hash pairs"
  | noOperand => "expected a path, a literal or a sub-expression"
  | blockParamsOutsideBlock => "block params are only allowed on block helpers"
  | chainedElse => "chained `else` blocks are not supported"

def AttributeFault.message : AttributeFault → String
  | unexpectedCharacter => "unexpected character in tag"
  | modifierOnComponent => "components do not support element modifiers"
  | notACall => "only helper calls `\x7b\x7bhelper ...\x7d\x7d` are allowed inside a tag"
  | blockInValue => "blocks are not allowed inside attribute values"

def ParseError.Cause.message : ParseError.Cause → String
  | unterminatedComment => "Unterminated comment, expected `-->`"
  | unterminatedMustache => "Unterminated mustache, expected `\x7d\x7d`"
  | unterminatedTag => "Unterminated tag, expected `>`"
  | mismatchedEndTag expected found =>
    "Closing tag " ++ quoted found ++ " did not match last open tag " ++ quoted expected
  | unexpectedEndTag found => "Closing tag " ++ quoted found ++ " without an open tag"
  | voidEndTag found =>
    "Invalid end tag " ++ quoted found ++ " (void elements cannot have end tags)"
  | unclosedElement tag => "Unclosed element " ++ quoted tag
  | mismatchedBlockClose expected found => quoted expected ++ " doesn't match " ++ quoted found
  | unexpectedBlockClose found => "Closing block " ++ quoted found ++ " without an open block"
  | unclosedBlock name => "Unclosed block " ++ quoted name
  | unexpectedElse => "`\x7b\x7belse\x7d\x7d` outside of a block"
  | invalidExpression expression fault =>
    "Invalid expression " ++ quoted expression ++ ": " ++ fault.message
  | invalidAttribute name fault => "Invalid attribute " ++ quoted name ++ ": " ++ fault.message

/-- The whole message, with the position where the fault begins. -/
def ParseError.message (e : ParseError) : String :=
  "Syntax error at " ++ toString e.span.lo ++ ": " ++ e.cause.message

/-! ## results -/

/-- A sequence succeeds only when both of its steps do. -/
theorem exists_of_bind_eq_ok {ε α β : Type} {x : Except ε α} {f : α → Except ε β} {b : β}
    (h : x >>= f = .ok b) : ∃ a, x = .ok a ∧ f a = .ok b := by
  cases x with
  | error e => simp [bind, Except.bind] at h
  | ok a => exact ⟨a, rfl, h⟩

/-- A mapped result succeeds only when the result does. -/
theorem exists_of_map_eq_ok {ε α β : Type} {x : Except ε α} {f : α → β} {b : β}
    (h : x.map f = .ok b) : ∃ a, x = .ok a ∧ f a = b := by
  cases x with
  | error e => simp [Except.map] at h
  | ok a => exact ⟨a, rfl, by simpa [Except.map] using h⟩

end LiveTemplate
