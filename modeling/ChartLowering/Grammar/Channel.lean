/-!
# Channels, marks, scale types and aggregate operations

Specifications name all of these by text, and unknown names are allowed. The families below are
those that lowering treats in a way of their own.
-/

namespace ChartLowering

namespace Channel

def position : List String := ["x", "y", "xOffset", "yOffset", "theta", "radius"]

def nonPosition : List String :=
  ["color", "fill", "stroke", "opacity", "fillOpacity", "strokeOpacity", "strokeWidth",
   "strokeDash", "size", "angle", "shape"]

def scaled : List String := position ++ nonPosition

/-- The channels that end a range begun by another one. -/
def secondary : List String := ["x2", "y2", "theta2", "radius2"]

def isPosition (channel : String) : Bool := position.contains channel

def isNonPosition (channel : String) : Bool := nonPosition.contains channel

def isScaled (channel : String) : Bool := scaled.contains channel

def isXOrY (channel : String) : Bool := channel == "x" || channel == "y"

end Channel

namespace Mark

/-- The marks that draw one shape through many rows. -/
def paths : List String := ["line", "area", "trail"]

def isPath (mark : String) : Bool := paths.contains mark

end Mark

namespace Aggregate

/-- The operations that always give a number. -/
def counting : List String := ["count", "valid", "missing", "distinct"]

def isCounting (op : String) : Bool := counting.contains op

end Aggregate

namespace ScaleType

def continuous : List String :=
  ["linear", "log", "pow", "sqrt", "symlog", "time", "utc", "sequential"]

def discretizing : List String := ["quantile", "quantize", "threshold"]

def discrete : List String := ["ordinal", "band", "point", "bin-ordinal"]

def isContinuous (type : String) : Bool := continuous.contains type || discretizing.contains type

def isDiscrete (type : String) : Bool := discrete.contains type

end ScaleType

end ChartLowering
