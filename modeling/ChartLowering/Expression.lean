import ChartLowering.FieldPath
import ChartLowering.Json.Write

/-!
# Expressions

Pieces of the expression language of the renderer, as text.
-/

namespace ChartLowering.Expression

/-- A number as the expression language writes it. A double that is whole loses its point. -/
def number (v : Value) : Except Fault String :=
  match v with
  | .bool _ => throw .wrongKind
  | .float x =>
      match x.toInt? with
      | some i => pure (toString i)
      | none => pure x.text
  | v => pure v.quoted

mutual

def literal : Value → Except Fault String
  | .int i => number (.int i)
  | .float x => number (.float x)
  | .list items => do pure ("[" ++ ", ".intercalate (← literals items) ++ "]")
  | v => if v.isPlain then pure (Json.write Json.spaced v) else throw .wrongKind
termination_by structural v => v

def literals : List Value → Except Fault (List String)
  | [] => pure []
  | v :: rest => do
      let v ← literal v
      let rest ← literals rest
      pure (v :: rest)
termination_by structural items => items

end

/-- Access to a column by its exact name. -/
def access (name : String) (row : String) : String :=
  row ++ "[" ++ Text.stringLiteral name ++ "]"

/-- Access to a column that holds computed values. -/
def datum (name : String) : String := access name "datum"

def field (path : String) (row : String) : Except Fault String := do
  pure (access (← FieldPath.flatten path) row)

/-- A test that holds of valid, finite numbers. -/
def isFinite (ref : String) : String := "isValid(" ++ ref ++ ") && isFinite(+" ++ ref ++ ")"

def isNotFinite (ref : String) : String := "!isValid(" ++ ref ++ ") || !isFinite(+" ++ ref ++ ")"

def validity (ref : String) (valid : Bool) : String :=
  if valid then isFinite ref else isNotFinite ref

end ChartLowering.Expression
