import ChartLowering.Fault
import ChartLowering.Text.Basic
import ChartLowering.Value.Access

/-!
# Field types
-/

namespace ChartLowering

inductive FieldType where
  | quantitative
  | temporal
  | ordinal
  | nominal
  deriving DecidableEq, Repr

namespace FieldType

def all : List FieldType := [quantitative, temporal, ordinal, nominal]

def name : FieldType → String
  | quantitative => "quantitative"
  | temporal => "temporal"
  | ordinal => "ordinal"
  | nominal => "nominal"

def ofName? (s : String) : Option FieldType := all.find? fun t ↦ t.name == s

/-- One-letter codes, in lower case. -/
def ofCode? : String → Option FieldType
  | "q" => some quantitative
  | "t" => some temporal
  | "o" => some ordinal
  | "n" => some nominal
  | _ => none

/-- A name or a code in any case, blanks around it allowed. -/
def ofToken? (s : String) : Option FieldType :=
  let token := Text.lower (Text.trimBlank s)
  (ofCode? token).or (ofName? token)

def mention : FieldType → String
  | quantitative => "<FieldType.QUANTITATIVE: 'quantitative'>"
  | temporal => "<FieldType.TEMPORAL: 'temporal'>"
  | ordinal => "<FieldType.ORDINAL: 'ordinal'>"
  | nominal => "<FieldType.NOMINAL: 'nominal'>"

@[simp] theorem ofToken?_name (t : FieldType) : ofToken? t.name = some t := by
  cases t <;> decide +kernel

/-- The type that a value names. A value that is not given names none. -/
def read (v : Value) : Except Fault FieldType :=
  match v with
  | .text s =>
      match ofToken? s with
      | some t => pure t
      | none => throw (.unknownType v)
  | v => if v.truthy then throw (v.unable "strip") else throw (.unknownType v)

theorem read_name (t : FieldType) : read (.text t.name) = .ok t := by
  simp only [read, ofToken?_name]
  rfl

end FieldType

end ChartLowering
