import LiveTemplate.Expr.Basic
import LiveTemplate.ParseError
import LiveTemplate.Text.Alphanumeric
import LiveTemplate.Text.Numeral
import LiveTemplate.Text.Space

/-!
# LiveTemplate.Expr.Parser

Reading the content of a mustache: `path param* key=value* [as |name*|]`.

1. Blanks separate params and pairs.  They may stand around `=`, inside the
   parentheses of a call, and inside the bars of the block params.
2. A param is read as a call in parentheses, a string in quotes, a number, `true`
   or `false`, or a path, whichever comes first.  Numbers and booleans are not
   followed by a character of a path.
3. A pair is tried before a param.  A param behind a pair ends all reading.
4. What cannot be read as a further param ends the call; what then remains is
   reported.
-/

namespace LiveTemplate

/-- What reading a part of an expression comes to.  After `positionalAfterHash` no other way
to read the text is tried. -/
inductive Outcome (α : Type) where
  | ok (value : α) (rest : List Char)
  | noMatch
  | positionalAfterHash
deriving DecidableEq, Repr

/-! ## words -/

/-- The characters of a path. -/
def isPathCharacter (c : Char) : Bool :=
  isAlphanumeric c || ['.', '_', '-', '@', '$', '/'].contains c

/-- The characters of a hash key and of a block param. -/
def isKeyCharacter (c : Char) : Bool :=
  isAlphanumeric c || ['_', '-', '@', '$'].contains c

/-- What follows one or more blanks. -/
def skipBlanks? : List Char → Option (List Char)
  | c :: cs => if isBlank c then some (cs.dropWhile isBlank) else none
  | [] => none

/-- What follows any number of blanks. -/
def skipBlanks (s : List Char) : List Char := s.dropWhile isBlank

/-- One or more characters of a class, and what follows them. -/
def word? (p : Char → Bool) (s : List Char) : Option (String × List Char) :=
  match s.takeWhile p with
  | [] => none
  | name => some (String.ofList name, s.dropWhile p)

/-- The pieces of a text between its blanks. -/
def blankSeparated : List Char → List (List Char)
  | [] => []
  | c :: cs =>
    if isBlank c then blankSeparated cs
    else
      match cs, blankSeparated cs with
      | d :: _, piece :: pieces => if isBlank d then [c] :: piece :: pieces else (c :: piece) :: pieces
      | _, pieces => [c] :: pieces

/-- Whether a literal may end where a text begins. -/
def endsLiteral : List Char → Bool
  | c :: _ => !isPathCharacter c
  | [] => true

/-! ## literals -/

/-- A text between two quotes of the same kind. -/
def stringLiteral? : List Char → Option (String × List Char)
  | '"' :: s => (cut? ['"'] s).map fun (text, rest) => (String.ofList text, rest)
  | '\'' :: s => (cut? ['\''] s).map fun (text, rest) => (String.ofList text, rest)
  | _ => none

/-- Digits behind a point, if there are any. -/
def fraction : List Char → List Char × List Char
  | '.' :: s =>
    match s.takeWhile Char.isDigit with
    | [] => ([], '.' :: s)
    | digits => (digits, s.dropWhile Char.isDigit)
  | s => ([], s)

/-- The number written by `whole`, a point and `places`. -/
def decimalValue (whole places : List Char) : Float :=
  Float.ofScientific ((readDigits? 10 0 (whole ++ places)).getD 0) true places.length

/-- Digits and possibly a fraction. -/
def unsignedLiteral? (s : List Char) : Option (Float × List Char) :=
  match s.takeWhile Char.isDigit with
  | [] => none
  | whole =>
    let (places, rest) := fraction (s.dropWhile Char.isDigit)
    if endsLiteral rest then some (decimalValue whole places, rest) else none

/-- A number, possibly with a minus sign. -/
def numberLiteral? : List Char → Option (Float × List Char)
  | '-' :: s => (unsignedLiteral? s).map fun (x, rest) => (-x, rest)
  | s => unsignedLiteral? s

/-- `true` or `false`. -/
def booleanLiteral? (s : List Char) : Option (Bool × List Char) :=
  match s with
  | 't' :: 'r' :: 'u' :: 'e' :: rest => if endsLiteral rest then some (true, rest) else none
  | 'f' :: 'a' :: 'l' :: 's' :: 'e' :: rest => if endsLiteral rest then some (false, rest) else none
  | _ => none

/-- A param that is no call. -/
def simpleParam? (s : List Char) : Option (Param × List Char) :=
  (stringLiteral? s).map (fun (text, rest) => (.string text, rest)) <|>
  (numberLiteral? s).map (fun (x, rest) => (.number x, rest)) <|>
  (booleanLiteral? s).map (fun (b, rest) => (.boolean b, rest)) <|>
  (word? isPathCharacter s).map (fun (path, rest) => (.id path, rest))

/-! ## block params -/

/-- The names between bars: `as |first second|`. -/
def blockParams? : List Char → Option (List String × List Char)
  | 'a' :: 's' :: s =>
    match skipBlanks? s with
    | some ('|' :: inside) =>
      match cut? ['|'] inside with
      | some (names, rest) =>
        let pieces := blankSeparated names
        if !pieces.isEmpty && names.all (fun c => isKeyCharacter c || isBlank c) then
          some (pieces.map String.ofList, rest)
        else none
      | none => none
    | _ => none
  | _ => none

/-! ## calls -/

/-- A pair `key=value`; `param` reads the value. -/
def hashPair? (param : List Char → Outcome Param) (s : List Char) :
    Option ((String × Param) × List Char) :=
  match word? isKeyCharacter s with
  | none => none
  | some (key, rest) =>
    match skipBlanks rest with
    | '=' :: after =>
      match param (skipBlanks after) with
      | .ok value rest => some ((key, value), rest)
      | _ => none
    | _ => none

/-- Reads the params and pairs of a call; `param` reads a param.  Each begins with a blank, so
the length of the text bounds their number. -/
def readArguments (param : List Char → Outcome Param) : Nat → Call → List Char → Outcome Call
  | 0, call, s => .ok call s
  | fuel + 1, call, s =>
    match skipBlanks? s with
    | none => .ok call s
    | some after =>
      if (blockParams? after).isSome then .ok call s
      else
        match hashPair? param after with
        | some (pair, rest) =>
          readArguments param fuel { call with hash := call.hash ++ [pair] } rest
        | none =>
          match param after with
          | .noMatch => .ok call s
          | .positionalAfterHash => .positionalAfterHash
          | .ok value rest =>
            if call.hash.isEmpty then
              readArguments param fuel { call with params := call.params ++ [value] } rest
            else .positionalAfterHash

/-- Reads a call; `param` reads its callee and its arguments.  A call cannot be called. -/
def readCall (param : List Char → Outcome Param) (s : List Char) : Outcome Call :=
  match param s with
  | .noMatch => .noMatch
  | .positionalAfterHash => .positionalAfterHash
  | .ok (.call _) _ => .noMatch
  | .ok (.id path) rest => readArguments param rest.length { path } rest
  | .ok literal rest =>
    readArguments param rest.length { path := literal.text, literal := some literal } rest

/-- Reads a param with calls nested at most `depth` deep. -/
def readParam : Nat → List Char → Outcome Param
  | 0, _ => .noMatch
  | depth + 1, '(' :: inside =>
    match readCall (readParam depth) (skipBlanks inside) with
    | .noMatch => .noMatch
    | .positionalAfterHash => .positionalAfterHash
    | .ok call rest =>
      match skipBlanks rest with
      | ')' :: after => .ok (.call call) after
      | _ => .noMatch
  | _ + 1, s =>
    match simpleParam? s with
    | some (param, rest) => .ok param rest
    | none => .noMatch

/-! ## expressions -/

/-- Reads a trimmed expression.  It is at least as long as its calls are nested deep. -/
def readExpression (s : List Char) : Except ExpressionFault Expression :=
  match readCall (readParam (s.length + 1)) s with
  | .noMatch => .error .noOperand
  | .positionalAfterHash => .error .positionalAfterHash
  | .ok call rest =>
    let (blockParams, rest) := ((skipBlanks? rest).bind blockParams?).getD ([], rest)
    match skipBlanks rest with
    | [] => .ok { call, blockParams }
    | rest => .error (.unexpected (String.ofList rest))

/-- The expression a mustache holds; `span` is the range of the mustache. -/
def Expression.ofContent (content : String) (span : Span) : Except ParseError Expression :=
  let expression := trim content.toList
  let result := if expression.isEmpty then .error .empty else readExpression expression
  result.mapError fun fault => ⟨.invalidExpression (String.ofList expression) fault, span⟩

end LiveTemplate
