import LiveTemplate.Value.Basic

/-!
# LiveTemplate.Value.Datum

Values as they are written down, and as they are shown.

A `Datum` describes a value: its objects are described by their entries or called by
name.  Making the value creates the objects that are described.  An `Outline` shows
a value with no more of its objects than how many entries they have at the time.
-/

namespace LiveTemplate

/-- The description of a value. -/
inductive Datum where
  | undefined
  | null
  | bool (b : Bool)
  | number (x : Float)
  | string (s : String)
  | list (items : List Datum)
  | record (entries : List (String × Datum))
  | node (id : NodeId)
  | named (name : String)

instance : Inhabited Datum := ⟨.null⟩

/-- What is shown of a value. -/
inductive Outline where
  | undefined
  | null
  | bool (b : Bool)
  | number (x : Float)
  | string (s : String)
  | list (items : List Outline)
  | object (size : Nat)
  | node (id : NodeId)

instance : Inhabited Outline := ⟨.undefined⟩

mutual

/-- The value that is described; names without an object stand for `undefined`. -/
def Datum.make (names : Dict ObjectId) : Datum → Heap → Value × Heap
  | .undefined, heap => (.undefined, heap)
  | .null, heap => (.null, heap)
  | .bool b, heap => (.bool b, heap)
  | .number x, heap => (.number x, heap)
  | .string s, heap => (.string s, heap)
  | .list items, heap =>
    let (values, heap) := makeItems names items heap
    (.list values, heap)
  | .record entries, heap =>
    let (pairs, heap) := makeEntries names entries heap
    let (id, heap) := heap.create (.ofPairs pairs)
    (.object id, heap)
  | .node id, heap => (.node id, heap)
  | .named name, heap => (((names.get? name).map Value.object).getD .undefined, heap)

def makeItems (names : Dict ObjectId) : List Datum → Heap → List Value × Heap
  | [], heap => ([], heap)
  | item :: items, heap =>
    let (value, heap) := item.make names heap
    let (values, heap) := makeItems names items heap
    (value :: values, heap)

def makeEntries (names : Dict ObjectId) : List (String × Datum) → Heap →
    List (String × Value) × Heap
  | [], heap => ([], heap)
  | (key, datum) :: entries, heap =>
    let (value, heap) := datum.make names heap
    let (pairs, heap) := makeEntries names entries heap
    ((key, value) :: pairs, heap)

end

/-- Creates an object for each name, all of them before any is filled, so that their entries
may refer to them. -/
def Heap.createNamed (heap : Heap) (described : List (String × List (String × Datum))) :
    Dict ObjectId × Heap :=
  let (names, heap) := described.foldl
    (fun (names, heap) (name, _) =>
      let (id, heap) := Heap.create heap {}
      (names.set name id, heap))
    (({} : Dict ObjectId), heap)
  let heap := described.foldl
    (fun heap (name, entries) =>
      match names.get? name with
      | none => heap
      | some id =>
        let (pairs, heap) := makeEntries names entries heap
        pairs.foldl (fun heap (key, value) => heap.set id key value) heap)
    heap
  (names, heap)

mutual

/-- What is shown of a value. -/
def Value.outline (heap : Heap) : Value → Outline
  | .undefined => .undefined
  | .null => .null
  | .bool b => .bool b
  | .number x => .number x
  | .string s => .string s
  | .list items => .list (outlines heap items)
  | .object id => .object (heap.entries id).size
  | .node id => .node id

/-- What is shown of values. -/
def outlines (heap : Heap) : List Value → List Outline
  | [] => []
  | value :: values => value.outline heap :: outlines heap values

end

end LiveTemplate
