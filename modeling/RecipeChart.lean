import RecipeChart.FlowGraph.Rename
import RecipeChart.FlowGraph.Sketched
import RecipeChart.Main
import RecipeChart.Registry.Session
import RecipeChart.Value
import RecipeChart.Proofs.Recipe.Derivation
import RecipeChart.Proofs.Recipe.Interning
import RecipeChart.Proofs.Recipe.Printing
import RecipeChart.Proofs.Recipe.Rereading
import RecipeChart.Proofs.Recipe.RoundTrip
import RecipeChart.Proofs.StepTree.Fitting
import RecipeChart.Proofs.Table.Placement
import RecipeChart.Proofs.Table.Tiling
import RecipeChart.Proofs.Digraph.Loops
import RecipeChart.Proofs.Digraph.Order
import RecipeChart.Proofs.FlowGraph.Analysing
import RecipeChart.Proofs.FlowGraph.Findings
import RecipeChart.Proofs.FlowGraph.Soundness
import RecipeChart.Proofs.StepTree.Assembling
import RecipeChart.Proofs.StepTree.Meaning
import RecipeChart.Proofs.Outcome
import RecipeChart.Proofs.Recipe.Acceptance
import RecipeChart.Proofs.StepTree.Canonical
import RecipeChart.Proofs.FlowGraph.Redrawing
import RecipeChart.Proofs.RuleOrder
import RecipeChart.Proofs.Registry.Sessions
import RecipeChart.Proofs.Table.Reading
import RecipeChart.Proofs.StepTree.Gathering
import RecipeChart.Proofs.JoinInsertion
import RecipeChart.Proofs.StepTree.Conservation
import RecipeChart.Proofs.Table.Contents
import RecipeChart.Proofs.FlowGraph.Accounting
import RecipeChart.Proofs.Digraph.Reporting
import RecipeChart.Proofs.FlowGraph.LoopReports
import RecipeChart.Proofs.FlowGraph.Relabelling
import RecipeChart.Proofs.Relabelling
import RecipeChart.Proofs.Recipe.Sharing
import RecipeChart.Proofs.FlowGraph.JoinFindings
import RecipeChart.Proofs.FlowGraph.BuildOrder
import RecipeChart.Proofs.FlowGraph.Tables
import RecipeChart.Proofs.FlowGraph.Strays
import RecipeChart.Proofs.FlowGraph.Shorthand
import RecipeChart.Proofs.MergePoint
import RecipeChart.Proofs.FlowGraph.Growing
import RecipeChart.Proofs.StepTree.Filling
import RecipeChart.Proofs.Recipe.Layout
import RecipeChart.Proofs.StepTree.Checking
import RecipeChart.Proofs.Chart
import RecipeChart.Proofs.Table.Html
import RecipeChart.Proofs.Recipe.Offence
import RecipeChart.Proofs.Registry.Canonicals
import RecipeChart.Proofs.Recipe.Locating
import RecipeChart.Proofs.Origins
import RecipeChart.Proofs.GroupSpans
import RecipeChart.Proofs.Provenance
import RecipeChart.Proofs.FlowGraph.Renaming
import RecipeChart.Proofs.FlowGraph.Listing
import RecipeChart.Proofs.StepTree.Depth
import RecipeChart.Proofs.StepTree.Listing
import RecipeChart.Proofs.LayerCake
import RecipeChart.Proofs.Presentation
