import LiveTemplate.Session.Recipe

/-!
# LiveTemplate.Session.Overrides

Hooks that are described by data.

A hook that is replaced writes its call into the journal and then does what the
default hook does, unless its description says otherwise.  The looking-up hooks write
it when they know the result.
-/

namespace LiveTemplate

/-- What the hook that looks up helpers does: some names have no helper, others a given one. -/
structure LookupOverride where
  hidden : List String := []
  aliases : Dict Recipe := {}

/-- The hooks that are replaced, and what is said of them. -/
structure Overrides where
  lookupHelper : Option LookupOverride := none
  /-- Paths with values of their own. -/
  simple : Option (Dict Datum) := none
  /-- How the morph is to show its value, if that is changed. -/
  content : Option (Option Bool) := none
  component : Bool := false
  /-- A value in place of the result. -/
  componentFallback : Option (Option Datum) := none
  element : Bool := false
  /-- A text in front of the attribute's name. -/
  attr : Option String := none
  /-- A value in place of the result. -/
  concat : Option (Option Datum) := none
  subexpr : Bool := false
  /-- A value in place of the result. -/
  renderPartial : Option (Option Datum) := none
  set : Bool := false

namespace Overrides

open Render

/-- The value that is given, or else the result of the default hook. -/
def constOr (names : Dict ObjectId) (const : Option Datum) (default : Render Journal Value) :
    Render Journal Value :=
  match const with
  | some datum => Recipe.value names datum
  | none => default

/-- Finds a helper as described. -/
def findHelper (names : Dict ObjectId) (o : LookupOverride) (self defaults : Hooks Journal)
    (name : String) (scope : Scope) : Render Journal (Option (Helper Journal)) :=
  if o.hidden.contains name then pure none
  else
    match o.aliases.get? name with
    | some recipe => pure (some (.custom (recipe.run names name self)))
    | none => defaults.lookupHelper name scope

/-- The builtin helper a helper is, if it is one. -/
def builtin? : Helper Journal → Option Builtin
  | .builtin b => some b
  | .custom _ => none

/-- The hooks with those replaced that are described. -/
def apply (names : Dict ObjectId) (o : Overrides) (self defaults : Hooks Journal) :
    Hooks Journal where
  lookupHelper := match o.lookupHelper with
    | none => defaults.lookupHelper
    | some l => fun name scope => do
      let found ← findHelper names l self defaults name scope
      record fun _ => .lookupHelper name (found.map builtin?)
      return found
  simple := match o.simple with
    | none => defaults.simple
    | some map => fun scope path => do
      let value ← match map.get? path with
        | some datum => Recipe.value names datum
        | none => defaults.simple scope path
      record fun w => .simple path (w.outline value)
      return value
  content := match o.content with
    | none => defaults.content
    | some escaping => fun morph path scope params hash i => do
      record fun w => .content path (w.arguments params hash) (w.invocation i)
      match escaping with
      | some escaped => modify fun w => w.modifyMorph morph fun m => { m with escaped }
      | none => pure ()
      defaults.content morph path scope params hash i
  component :=
    if o.component then fun morph tag scope hash i => do
      record fun w => .component tag hash (w.invocation i)
      defaults.component morph tag scope hash i
    else defaults.component
  componentFallback := match o.componentFallback with
    | none => defaults.componentFallback
    | some const => fun morph tag scope hash i => do
      record fun _ => .componentFallback tag hash
      constOr names const (defaults.componentFallback morph tag scope hash i)
  element :=
    if o.element then fun node path scope params hash i => do
      record fun w => .element node path (w.arguments params hash)
      defaults.element node path scope params hash i
    else defaults.element
  attr := match o.attr with
    | none => defaults.attr
    | some before => fun node name quoted scope parts i => do
      record fun w => .attr node name quoted (parts.map w.outline) (w.invocation i)
      defaults.attr node (before ++ name) quoted scope parts i
  concat := match o.concat with
    | none => defaults.concat
    | some const => fun scope parts i => do
      record fun w => .concat (parts.map w.outline)
      constOr names const (defaults.concat scope parts i)
  subexpr :=
    if o.subexpr then fun path scope params hash i => do
      record fun w => .subexpr path (w.arguments params hash) (w.invocation i)
      defaults.subexpr path scope params hash i
    else defaults.subexpr
  renderPartial := match o.renderPartial with
    | none => defaults.renderPartial
    | some const => fun scope params hash i => do
      record fun w => .renderPartial (w.arguments params hash)
      constOr names const (defaults.renderPartial scope params hash i)
  set :=
    if o.set then fun scope name value => do
      record fun w => .set name (w.outline value)
      defaults.set scope name value
    else defaults.set

end Overrides

end LiveTemplate
