import ChartLowering.Composite.Boxplot.Expand
import ChartLowering.Composite.Errorbar

/-!
# Composite marks

The marks that expand into others, with the parts they are drawn in. A specification of any other
mark stays as it is. Boxplots and error bars are expanded alike: from a specification and settings,
in parts that both of these can style.
-/

namespace ChartLowering

/-- A composite mark, for boxplots with the whiskers if these are asked for. -/
inductive Composite where
  | boxplot (whiskers : Option Whiskers)
  | errorbar

namespace Composite

def parts : Composite → List String
  | boxplot _ => Boxplot.parts
  | errorbar => Errorbar.parts

def expand : Composite → Record Value → Settings →
    (parse : Shorthand.Reader := Shorthand.members) → Report Expansion
  | boxplot whiskers, spec, settings, parse => Boxplot.expand spec settings whiskers parse
  | errorbar, spec, settings, parse => Errorbar.expand spec settings parse

/-- The settings of the composite mark itself, with those of its parts. -/
def members : Composite → Settings → Record Value
  | boxplot _, settings => Settings.openBlock settings.boxplot.members
  | errorbar, settings => Settings.openBlock settings.errorbar.members

end Composite

structure CompositeMark where
  parts : List String
  expand : Record Value → Settings → Report (Record Value)

/-- Composite marks by name, in the order in which they were added. -/
abbrev CompositeMarks := Record CompositeMark

namespace CompositeMarks

def boxplot : CompositeMark :=
  ⟨Boxplot.parts, fun spec settings ↦ do pure (← Boxplot.expand spec settings).toRecord⟩

def errorbar : CompositeMark :=
  ⟨Errorbar.parts, fun spec settings ↦ do pure (← Errorbar.expand spec settings).toRecord⟩

def standard : CompositeMarks := [(Boxplot.markName, boxplot), (Errorbar.markName, errorbar)]

/-- The names of the parts of a mark, none if it is not a composite one. -/
def partsOf (marks : CompositeMarks) (mark : String) : List String :=
  ((marks.get? mark).map CompositeMark.parts).getD []

def matches? (mark : String) (spec : Record Value) : Bool :=
  (spec.get? "mark").any fun m ↦ Mark.typeOf m == .text mark

/-- A specification with its mark expanded, if that is a composite one. -/
def expand (marks : CompositeMarks) (spec : Record Value) (settings : Settings := {}) :
    Report (Record Value) :=
  match marks.find? fun m ↦ matches? m.1 spec with
  | some (_, mark) => mark.expand spec settings
  | none => pure spec

/-- A specification of any shape. Only an object can have a mark that expands. Anything else stays
as it is, unless it mentions a mark, which cannot be read from it. -/
def expandAny (marks : CompositeMarks) (spec : Value) (settings : Settings := {}) :
    Report Value := do
  match spec with
  | .object members => pure (.object (← marks.expand members settings))
  | spec =>
      if marks.isEmpty then pure spec
      else if ← spec.mentions "mark" then throw .wrongKind
      else pure spec

end CompositeMarks

end ChartLowering
