import ChartLowering.Composite.Registry
import ChartLowering.Encode.Guide
import ChartLowering.Encode.Position
import ChartLowering.Grammar.Kebab
import ChartLowering.Json.Read
import ChartLowering.Pipeline.Node
import ChartLowering.Settings.Layered
import ChartLowering.Proofs.Boxplot.Guides
import ChartLowering.Proofs.Boxplot.Multiplier
import ChartLowering.Proofs.Boxplot.Names
import ChartLowering.Proofs.Boxplot.PlainTooltip
import ChartLowering.Proofs.Composite.Direction
import ChartLowering.Proofs.Composite.Independence
import ChartLowering.Proofs.Composite.Symmetry
import ChartLowering.Proofs.Encode.Checked
import ChartLowering.Proofs.Encode.FirstMatch
import ChartLowering.Proofs.Encode.SingleCondition
import ChartLowering.Proofs.Encoding.Survival
import ChartLowering.Proofs.Encoding.Naming
import ChartLowering.Proofs.Encoding.OneByOne
import ChartLowering.Proofs.Encoding.Replaced
import ChartLowering.Proofs.Errorbar.Columns
import ChartLowering.Proofs.FieldPath.Dotted
import ChartLowering.Proofs.InvalidData.Coverage
import ChartLowering.Proofs.InvalidData.Defects
import ChartLowering.Proofs.InvalidData.Digest
import ChartLowering.Proofs.InvalidData.Treatment
import ChartLowering.Proofs.Json.ReadBack
import ChartLowering.Proofs.Json.Unique
import ChartLowering.Proofs.Logic.Rendering
import ChartLowering.Proofs.Pipeline.Assignment
import ChartLowering.Proofs.Pipeline.Failures
import ChartLowering.Proofs.Pipeline.Ways
import ChartLowering.Proofs.Settings.Heeded
import ChartLowering.Proofs.Settings.Precedence
import ChartLowering.Proofs.Unit.Types
import ChartLowering.Proofs.ValueRef.Band
