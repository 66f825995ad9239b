import ChartLowering.Settings.Read
import ChartLowering.Toml.Document

/-!
# Layers of settings

Settings from the environment stand above those from a file, and those above the defaults. A layer
is an object. Laid over another one, it replaces single values and leaves the rest.
-/

namespace ChartLowering

namespace Settings

mutual

/-- A value over the one that was there. Only an object over an object leaves anything of it. -/
def mergeValue (current : Option Value) : Value → Value
  | .object override =>
      match current with
      | some (.object base) => .object (deepMerge base override)
      | _ => .object override
  | v => v
termination_by structural v => v

/-- The members of an object over those of another, at every depth. -/
def deepMerge (base : Record Value) : List (String × Value) → Record Value
  | [] => base
  | (key, v) :: rest => deepMerge (base.put key (mergeValue (base.get? key) v)) rest
termination_by structural override => override

end

/-- Settings with a layer over them. Anything but an object with members changes nothing. -/
def apply (base : Settings) (layer : Value) : Except Fault Settings :=
  match layer with
  | .object [] => pure base
  | .object members =>
      match ofMembers (deepMerge base.members members) with
      | .error .invalidForm => throw .invalidSetting
      | settings => settings
  | _ => pure base

/-! ## The environment -/

/-- The small letters of a text. The sign for the kelvin is a letter, too. -/
def lowerToken (s : String) : String :=
  String.ofList ((Text.trimBlank s).toList.map fun c ↦
    if c = '\u212a' then 'k' else c.toLower)

def numberOrToken (s : String) : Value :=
  match Binary64.ofText? s with
  | some x => .float x
  | none => .text (lowerToken s)

def valueIn? (environment : Record String) (name : String) : Option String :=
  (environment.get? name).filter (· != "")

/-- The layer that the variables with a common first part of their names give. -/
def environmentLayer (environment : Record String) (start : String) : Record Value :=
  let boxplot := (valueIn? environment (start ++ "BOXPLOT_EXTENT")).map fun s ↦
    ("extent", numberOrToken s)
  let errorbar := (valueIn? environment (start ++ "ERRORBAR_EXTENT")).map fun s ↦
    ("extent", Value.text (lowerToken s))
  let invalid := (valueIn? environment (start ++ "MARK_INVALID")).map fun s ↦
    ("invalid", if lowerToken s = "null" then Value.null else .text (lowerToken s))
  let color := (valueIn? environment (start ++ "MARK_COLOR")).map fun s ↦
    ("color", Value.text (Text.trimBlank s))
  let blocks : Record (Record Value) :=
    [("boxplot", boxplot.toList), ("errorbar", errorbar.toList),
     ("mark", invalid.toList ++ color.toList)]
  (blocks.filter fun b ↦ !b.2.isEmpty).map fun b ↦ (b.1, .object b.2)

def ofEnvironment (environment : Record String) (start : String) (base : Settings) :
    Except Fault Settings :=
  base.apply (.object (environmentLayer environment start))

/-! ## Files -/

/-- The parts of a path, without those that lead nowhere. -/
def pathParts (path : String) : List String :=
  ((Text.splitAt '/' path.toList).map String.ofList).filter fun p ↦ p != "" && p != "."

/-- The text of a file, if there is one of that path. A folder cannot be read. -/
def fileText? (files : Record String) (path : String) : Except Fault (Option String) :=
  let parts := pathParts path
  match files.find? fun f ↦ pathParts f.1 == parts with
  | some (_, text) => pure (some text)
  | none =>
      if parts.isEmpty || files.any fun f ↦ parts.isPrefixOf (pathParts f.1) then throw .folder
      else pure none

/-- What a file says about this library: all of it, or a table of its own. In a project file only
that table of the tools counts. -/
def layerOf (path : String) (members : Record Value) : Value :=
  if (pathParts path).getLast? = some "pyproject.toml" then
    match members.get? "tool" with
    | some (.object tools) => Record.value tools "chartc"
    | _ => .null
  else
    match members.get? "chartc" with
    | some (.object own) => .object own
    | _ => .object members

/-- The layer of the first file that says anything, `null` if none does. -/
def firstLayer (files : Record String) : List String → Except Fault Value
  | [] => pure .null
  | path :: rest => do
      match ← fileText? files path with
      | none => firstLayer files rest
      | some text =>
          match Toml.read? text with
          | none => throw .invalidSetting
          | some members =>
              let layer := layerOf path members
              if layer.truthy then pure layer else firstLayer files rest

/-- The settings of a file, or of the first one found in the usual places. -/
def ofFiles (files : Record String) (path : Option String) : Except Fault Settings := do
  let paths := match path with
    | some path => [path]
    | none => ["chartc.toml", "pyproject.toml"]
  apply {} (← firstLayer files paths)

/-- Environment above files above defaults. -/
def load (files environment : Record String) (path : Option String) : Except Fault Settings := do
  ofEnvironment environment "CHARTC_" (← ofFiles files path)

end Settings

end ChartLowering
