import LiveTemplate.Decimal.Style
import LiveTemplate.Dom.Arena
import LiveTemplate.Text.Numeral

/-!
# LiveTemplate.Value.Basic

The values that templates show: `undefined`, `null`, booleans, numbers, strings,
lists, objects and nodes.

Objects are shared and can change: a value holds the number of an object, whose
entries are in a `Heap`.  Two objects are equal only if they are the same one.
-/

namespace LiveTemplate

/-- The number of an object. -/
structure ObjectId where
  index : Nat
deriving DecidableEq, Repr, Inhabited

/-- A value. -/
inductive Value where
  | undefined
  | null
  | bool (b : Bool)
  | number (x : Float)
  | string (s : String)
  | list (items : List Value)
  | object (id : ObjectId)
  | node (id : NodeId)

instance : Inhabited Value := ⟨.undefined⟩

/-! ## properties -/

namespace Value

/-- Whether there is nothing to show. -/
def isNullish : Value → Bool
  | undefined | null => true
  | _ => false

/-- Truth, as blocks see it: empty strings and lists, zero and not-a-number are false. -/
def isTruthy : Value → Bool
  | undefined | null => false
  | bool b => b
  | number x => x != 0 && !x.isNaN
  | string s => !s.isEmpty
  | list items => !items.isEmpty
  | object _ | node _ => true

def isNode : Value → Bool
  | node _ => true
  | _ => false

mutual

/-- Equality: numbers as numbers are compared, so that not-a-number differs from itself;
lists item by item; objects and nodes by identity. -/
def same : Value → Value → Bool
  | undefined, undefined => true
  | null, null => true
  | bool a, bool b => a == b
  | number x, number y => x == y
  | string s, string t => s == t
  | list xs, list ys => sameList xs ys
  | object a, object b => a == b
  | node a, node b => a == b
  | _, _ => false

def sameList : List Value → List Value → Bool
  | [], [] => true
  | x :: xs, y :: ys => same x y && sameList xs ys
  | _, _ => false

end

mutual

/-- The text of a value.  The items of a list are joined by commas, nothing standing for a
nullish one. -/
def text : Value → String
  | undefined => "undefined"
  | null => "null"
  | bool true => "true"
  | bool false => "false"
  | number x => NumberStyle.value.write x
  | string s => s
  | list items => ",".intercalate (itemTexts items)
  | object _ => "[object Object]"
  | node _ => "[object Node]"

def itemTexts : List Value → List String
  | [] => []
  | .undefined :: items => "" :: itemTexts items
  | .null :: items => "" :: itemTexts items
  | item :: items => text item :: itemTexts items

end

end Value

/-! ## objects -/

/-- The entries of all objects. -/
structure Heap where
  objects : Array (Dict Value) := #[]

instance : Inhabited Heap := ⟨{}⟩

namespace Heap

/-- The entries of an object. -/
def entries (heap : Heap) (id : ObjectId) : Dict Value := (heap.objects[id.index]?).getD {}

/-- Creates an object. -/
def create (heap : Heap) (entries : Dict Value) : ObjectId × Heap :=
  (⟨heap.objects.size⟩, ⟨heap.objects.push entries⟩)

def modify (heap : Heap) (id : ObjectId) (f : Dict Value → Dict Value) : Heap :=
  ⟨heap.objects.modify id.index f⟩

/-- The value of an entry; a missing one is `undefined`. -/
def get (heap : Heap) (id : ObjectId) (key : String) : Value :=
  ((heap.entries id).get? key).getD .undefined

def set (heap : Heap) (id : ObjectId) (key : String) (value : Value) : Heap :=
  heap.modify id (·.set key value)

def erase (heap : Heap) (id : ObjectId) (key : String) : Heap := heap.modify id (·.erase key)

end Heap

/-! ## paths -/

/-- The number of UTF-16 units of a character. -/
def units16 (c : Char) : Nat := if c.toNat < 0x10000 then 1 else 2

/-- The length of a string in UTF-16 units. -/
def length16 (s : String) : Nat := s.toList.foldr (fun c n => units16 c + n) 0

/-- One step of a path: an entry of an object, an item of a list, or the length of a list or of
a string.  Elsewhere there is nothing. -/
def Value.get (heap : Heap) (value : Value) (segment : String) : Value :=
  match value with
  | .object id => heap.get id segment
  | .list items =>
    if segment = "length" then .number (Float.ofNat items.length)
    else ((readNumeral? 10 segment.toList).bind (items[·]?)).getD .undefined
  | .string s => if segment = "length" then .number (Float.ofNat (length16 s)) else .undefined
  | _ => .undefined

end LiveTemplate
