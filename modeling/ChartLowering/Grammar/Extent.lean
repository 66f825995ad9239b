/-!
# Extents of composite marks
-/

namespace ChartLowering

inductive Whiskers where
  | tukey
  | minMax
  /-- To the quartiles and a multiple of their distance, in one aggregation. No extent that an
  author can write asks for it. -/
  | boundedIqr
  deriving DecidableEq, Repr

namespace Whiskers

def all : List Whiskers := [tukey, minMax, boundedIqr]

def name : Whiskers → String
  | tukey => "tukey"
  | minMax => "min-max"
  | boundedIqr => "k-iqr"

def ofName? (s : String) : Option Whiskers := all.find? fun w ↦ w.name == s

end Whiskers

/-- How far an error bar reaches on both sides of its center. -/
inductive ErrorbarExtent where
  | stderr
  | stdev
  | ci
  | iqr
  deriving DecidableEq, Repr

namespace ErrorbarExtent

def all : List ErrorbarExtent := [stderr, stdev, ci, iqr]

def name : ErrorbarExtent → String
  | stderr => "stderr"
  | stdev => "stdev"
  | ci => "ci"
  | iqr => "iqr"

def ofName? (s : String) : Option ErrorbarExtent := all.find? fun e ↦ e.name == s

@[simp] theorem ofName?_name (e : ErrorbarExtent) : ofName? e.name = some e := by
  cases e <;> decide +kernel

end ErrorbarExtent

end ChartLowering
