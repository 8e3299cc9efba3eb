import TreeSketch.Main
import TreeSketch.Tree.Arena
import TreeSketch.Tree.LinkedArena
import TreeSketch.Tree.Expectation
import TreeSketch.Proofs.Diagram.RoundTrip
import TreeSketch.Proofs.Declarative.Depth
import TreeSketch.Proofs.Declarative.RoundTrip
import TreeSketch.Proofs.Declarative.Moves
import TreeSketch.Proofs.Declarative.Language
import TreeSketch.Proofs.Declarative.Script
import TreeSketch.Proofs.Diagram.Regular
import TreeSketch.Proofs.Diagram.Ruler
import TreeSketch.Proofs.Diagram.Layout
import TreeSketch.Proofs.Diagram.Rendering
import TreeSketch.Proofs.Path
import TreeSketch.Proofs.Text.Decimal
import TreeSketch.Proofs.Files.System
import TreeSketch.Proofs.Files.Making
import TreeSketch.Proofs.Files.Beside
import TreeSketch.Proofs.Creation.Containment
import TreeSketch.Proofs.Creation.Repetition
import TreeSketch.Proofs.Creation.Independence
import TreeSketch.Proofs.Files.Reaching
import TreeSketch.Proofs.Creation.Forecast
import TreeSketch.Proofs.Settings.Pins
import TreeSketch.Proofs.CommandLine.ReadOnly
import TreeSketch.Proofs.Diagram.Isolation
import TreeSketch.Proofs.Checked.Access
import TreeSketch.Proofs.Checked.Arena
import TreeSketch.Proofs.Checked.Blocks
import TreeSketch.Proofs.Checked.Builder
import TreeSketch.Proofs.Checked.Depth
import TreeSketch.Proofs.Checked.Forest
import TreeSketch.Proofs.Checked.Sources
import TreeSketch.Proofs.Fence
import TreeSketch.Proofs.Fence.Reading
import TreeSketch.Proofs.Declarative.Balance
import TreeSketch.Proofs.Declarative.Lexis
import TreeSketch.Proofs.Declarative.Labels
import TreeSketch.Proofs.Dialect
import TreeSketch.Proofs.Tree.History
import TreeSketch.Proofs.Tree.LinkedArena
import TreeSketch.Proofs.Tree.LinkedRuns
import TreeSketch.Proofs.CommandLine.Settings
import TreeSketch.Proofs.Declarative.Tiling
import TreeSketch.Proofs.Diagram.Coverage
import TreeSketch.Proofs.Diagram.Survival
import TreeSketch.Proofs.Diagram.Names
import TreeSketch.Proofs.Diagram.Comments
import TreeSketch.Proofs.Diagram.Connectors
import TreeSketch.Proofs.Diagram.FirstTree
import TreeSketch.Proofs.Declarative.Twins
import TreeSketch.Proofs.Declarative.Spacing
import TreeSketch.Proofs.Tree.Statistics
import TreeSketch.Proofs.Export.Json
import TreeSketch.Proofs.Tree.Traversal
import TreeSketch.Proofs.Text.Counting
