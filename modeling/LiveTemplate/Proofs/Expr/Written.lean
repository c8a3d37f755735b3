import LiveTemplate.Expr.Parser

/-!
# LiveTemplate.Proofs.Expr.Written

Expressions as they are written.

What is written knows more than what it means: the quotes of a string, the digits of a number.
Words carry what makes them words, so every written expression can be read
(`LiveTemplate.Proofs.Expr.RoundTrip`).
-/

namespace LiveTemplate

/-! ## words -/

/-- A number as written: digits, possibly behind a minus sign, and possibly in front of a point
with more digits. -/
structure Numeral where
  negative : Bool
  whole : List Char
  /-- The digits behind the point; without any there is no point. -/
  places : List Char
  whole_ne_nil : whole ≠ []
  isDigit_whole : ∀ c ∈ whole, c.isDigit = true
  isDigit_places : ∀ c ∈ places, c.isDigit = true

namespace Numeral

def sign (n : Numeral) : List Char := if n.negative then ['-'] else []

def fractionText (n : Numeral) : List Char := if n.places = [] then [] else '.' :: n.places

def text (n : Numeral) : List Char := n.sign ++ n.whole ++ n.fractionText

/-- The number that is written. -/
def value (n : Numeral) : Float :=
  let magnitude := decimalValue n.whole n.places
  if n.negative then -magnitude else magnitude

end Numeral

/-- The text of a boolean. -/
def booleanText : Bool → List Char
  | true => ['t', 'r', 'u', 'e']
  | false => ['f', 'a', 'l', 's', 'e']

/-- A path as written: it could not be taken for a number or a boolean. -/
structure PathWord where
  text : List Char
  ne_nil : text ≠ []
  isPathCharacter : ∀ c ∈ text, isPathCharacter c = true
  ne_numeral : ∀ n : Numeral, text ≠ n.text
  ne_boolean : ∀ b, text ≠ booleanText b

/-- The name of a pair or of a block param. -/
structure KeyWord where
  text : List Char
  ne_nil : text ≠ []
  isKeyCharacter : ∀ c ∈ text, isKeyCharacter c = true

def KeyWord.name (k : KeyWord) : String := String.ofList k.text

/-- A string between quotes that do not occur in it. -/
structure QuotedWord where
  quote : Char
  content : List Char
  isQuote : quote = '"' ∨ quote = '\''
  not_mem : quote ∉ content

def QuotedWord.text (q : QuotedWord) : List Char := q.quote :: q.content ++ [q.quote]

/-! ## calls -/

/-- A param that is no call. -/
inductive WrittenAtom where
  | path (path : PathWord)
  | string (string : QuotedWord)
  | number (number : Numeral)
  | boolean (value : Bool)

namespace WrittenAtom

def text : WrittenAtom → List Char
  | path p => p.text
  | string q => q.text
  | number n => n.text
  | boolean b => booleanText b

def param : WrittenAtom → Param
  | path p => .id (String.ofList p.text)
  | string q => .string (String.ofList q.content)
  | number n => .number n.value
  | boolean b => .boolean b

/-- The call of a path, or of a literal, without arguments.  The path of a string is what stands
between its quotes, and that of a number is the number written anew. -/
def callee : WrittenAtom → Call
  | path p => { path := String.ofList p.text }
  | string q =>
    { path := String.ofList q.content, literal := some (.string (String.ofList q.content)) }
  | number n => { path := NumberStyle.callee.write n.value, literal := some (.number n.value) }
  | boolean b => { path := String.ofList (booleanText b), literal := some (.boolean b) }

/-- A literal calls its own text. -/
theorem callee_of_isLiteral {a : WrittenAtom} (h : a.param.type.isLiteral = true) :
    a.callee = { path := a.param.text, literal := some a.param } := by
  cases a with
  | path p => cases h
  | string q => rfl
  | number n => rfl
  | boolean b => cases b <;> rfl

end WrittenAtom

mutual

/-- A param as written; calls stand in parentheses. -/
inductive WrittenParam where
  | atom (atom : WrittenAtom)
  | call (call : WrittenCall)

/-- A call as written: what is called, the params, and behind them the pairs. -/
inductive WrittenCall where
  | mk (callee : WrittenAtom) (params : List WrittenParam) (hash : List (KeyWord × WrittenParam))

end

mutual

/-- A param is written with parentheses around a call. -/
def WrittenParam.text : WrittenParam → List Char
  | .atom a => a.text
  | .call c => '(' :: c.text ++ [')']

/-- A call is written with one space before each param and each pair. -/
def WrittenCall.text : WrittenCall → List Char
  | .mk callee params hash => callee.text ++ paramsText params ++ hashText hash

def paramsText : List WrittenParam → List Char
  | [] => []
  | p :: ps => ' ' :: p.text ++ paramsText ps

def hashText : List (KeyWord × WrittenParam) → List Char
  | [] => []
  | (key, value) :: pairs => ' ' :: key.text ++ '=' :: value.text ++ hashText pairs

end

mutual

/-- The param that is written. -/
def WrittenParam.param : WrittenParam → Param
  | .atom a => a.param
  | .call c => .call c.call

/-- The call that is written. -/
def WrittenCall.call : WrittenCall → Call
  | .mk callee params hash =>
    { callee.callee with params := writtenParams params, hash := writtenHash hash }

def writtenParams : List WrittenParam → List Param
  | [] => []
  | p :: ps => p.param :: writtenParams ps

def writtenHash : List (KeyWord × WrittenParam) → List (String × Param)
  | [] => []
  | (key, value) :: pairs => (key.name, value.param) :: writtenHash pairs

end

/-! ## expressions -/

/-- An expression as written: a call and the names of block params. -/
structure WrittenExpression where
  call : WrittenCall
  blockParams : List KeyWord

/-- Block params are written between bars; without any there are no bars. -/
def blockParamsText : List KeyWord → List Char
  | [] => []
  | names => [' ', 'a', 's', ' ', '|'] ++ [' '].intercalate (names.map KeyWord.text) ++ ['|']

namespace WrittenExpression

def text (e : WrittenExpression) : List Char := e.call.text ++ blockParamsText e.blockParams

/-- The expression that is written. -/
def expression (e : WrittenExpression) : Expression where
  call := e.call.call
  blockParams := e.blockParams.map KeyWord.name

end WrittenExpression

end LiveTemplate
