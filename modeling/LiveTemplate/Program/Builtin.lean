/-!
# LiveTemplate.Program.Builtin

The helpers that are there without being registered.
-/

namespace LiveTemplate

/-- The helpers every environment has. -/
inductive Builtin where
  /-- Sets an attribute of the element it is used on: `attribute "name" value*`. -/
  | setAttribute
  /-- Renders the partial with a given name. -/
  | renderPartial
  /-- Joins the texts of its params. -/
  | concat
deriving DecidableEq, Repr

namespace Builtin

def name : Builtin → String
  | setAttribute => "attribute"
  | renderPartial => "partial"
  | concat => "concat"

def all : List Builtin := [setAttribute, renderPartial, concat]

/-- The builtin helper with a given name. -/
def ofName? (name : String) : Option Builtin := all.find? (·.name == name)

/-- The names tell the helpers apart. -/
theorem ofName?_name (b : Builtin) : ofName? b.name = some b := by
  cases b <;> decide

end Builtin

end LiveTemplate
