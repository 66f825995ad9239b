import ChartLowering.Number.Binary64

/-!
# Defaults
-/

namespace ChartLowering.Defaults

/-- How many times the interquartile range whiskers may reach, unless an extent says otherwise. -/
def tukeyMultiplier : Binary64 := .ofDecimal false 15 (-1)

def boxColor : String := "#4c78a8"

def boxplotSize : Nat := 14

/-- The number of bins that a bare request for binning stands for. -/
def maxBins : Nat := 10

/-- The same, on a channel that is not x or y. -/
def nonPositionMaxBins : Nat := 6

def countTitle : String := "Count of Records"

def countField : String := "__count"

end ChartLowering.Defaults
