import LiveTemplate.Decimal.Style

/-!
# LiveTemplate.Expr.Basic

Expressions inside mustaches: a call is a callee with positional params and hash
pairs, `path param* key=value*`.

A param is a path, a literal or a call in parentheses.  A call whose callee is a
literal keeps it in `literal` and has the literal's text as its path.
-/

namespace LiveTemplate

/-- What a param is in the source. -/
inductive ParamType where
  | id
  | string
  | number
  | boolean
  | call
deriving DecidableEq, Repr, Inhabited

namespace ParamType

def name : ParamType → String
  | id => "id"
  | string => "string"
  | number => "number"
  | boolean => "boolean"
  | call => "sexpr"

def all : List ParamType := [id, string, number, boolean, call]

/-- The type with a given name. -/
def ofName? (name : String) : Option ParamType := all.find? (·.name == name)

/-- Literals are handed to helpers as they are. -/
def isLiteral : ParamType → Bool
  | string | number | boolean => true
  | id | call => false

/-- The names tell the types apart. -/
theorem ofName?_name (t : ParamType) : ofName? t.name = some t := by
  cases t <;> decide

end ParamType

mutual

/-- A param, as written. -/
inductive Param where
  | id (path : String)
  | string (text : String)
  | number (value : Float)
  | boolean (value : Bool)
  | call (call : Call)

/-- A call of a helper, or of nothing but a path. -/
structure Call where
  path : String
  literal : Option Param := none
  params : List Param := []
  hash : List (String × Param) := []

end

instance : Inhabited Param := ⟨.id ""⟩

instance : Inhabited Call := ⟨{ path := "" }⟩

def Param.type : Param → ParamType
  | id _ => .id
  | string _ => .string
  | number _ => .number
  | boolean _ => .boolean
  | call _ => .call

/-- The text of a literal, which stands for its path when it is called. -/
def Param.text : Param → String
  | id path => path
  | string text => text
  | number value => NumberStyle.callee.write value
  | boolean true => "true"
  | boolean false => "false"
  | call c => c.path

namespace Call

/-- A bare path: no literal, no params, no hash. -/
def isSimplePath (c : Call) : Bool :=
  c.literal.isNone && c.params.isEmpty && c.hash.isEmpty

def paramTypes (c : Call) : List ParamType := c.params.map Param.type

/-- The types of hash values, in the order of the pairs. -/
def hashTypes (c : Call) : List (String × ParamType) :=
  c.hash.map fun (key, value) => (key, value.type)

end Call

/-- The content of a mustache: a call, and the names a block binds for its body. -/
structure Expression where
  call : Call
  blockParams : List String := []
deriving Inhabited

end LiveTemplate
