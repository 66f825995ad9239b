import ChartLowering.ChannelDef
import ChartLowering.Predicate
import ChartLowering.Report
import ChartLowering.ValueRef.Basic

/-!
# Conditional entries and guides

A definition with conditions becomes a list of references that the renderer reads from top to
bottom: those with a test of their own, the one for invalid values, and the main one. Axes and
legends take the properties of their parts as such definitions, but never show invalid values.
-/

namespace ChartLowering.Encode

/-- The conditions of a definition, one or a list of them. -/
def conditions (v : Value) : Except Fault (List Value) := do
  if ChannelDef.isConditional v then pure (← v.require "condition").itemsOrSelf else pure []

/-- The reference for one condition. A condition on a parameter is dropped. -/
def ofCondition (drawn : String) (main : Value → Except Fault (Option ValueRef)) (c : Value) :
    Report (Option ValueRef) := do
  if ← c.mentions "param" then
    Report.warn .condition (.selectionCondition (.text drawn))
    pure none
  else
    let ref ← main c
    let test ← Predicate.text (← c.require "test")
    pure (some (Record.override [("test", .text test)] (ref.getD [])))

def isTested (ref : ValueRef) : Bool := (ref.value "test").truthy

/-- References as an entry: nothing at all, one that always holds by itself, or a list. -/
def entry (drawn : String) (refs : List ValueRef) : Record Value :=
  match refs with
  | [] => []
  | [ref] => [(drawn, if isTested ref then .list [.object ref] else .object ref)]
  | refs => [(drawn, .list (refs.map .object))]

/-- The entry for a definition with or without conditions. `main` gives the reference for the
definition and for each of its conditions. -/
def wrapped (drawn : String) (v : Value) (main : Value → Except Fault (Option ValueRef))
    (invalid : Option ValueRef := none) : Report (Record Value) := do
  let tested ← (← conditions v).mapM (ofCondition drawn main)
  let own ← main v
  pure (entry drawn (tested.filterMap id ++ invalid.toList ++ own.toList))

def literalRef (v : Value) : Except Fault (Option ValueRef) :=
  pure ((v.member? "value").map ValueRef.ofValue)

/-- The entries for the properties of a guide. -/
def guide (properties : Record Value) : Report (Record Value) := do
  let entries ← properties.mapM fun m ↦ wrapped m.1 m.2 literalRef
  pure (entries.foldl Record.override [])

end ChartLowering.Encode
