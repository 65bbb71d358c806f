import FlowBasic.Builtin
import FlowBasic.Compile
import FlowBasic.Decimal
import FlowBasic.Decimal.Shortest
import FlowBasic.Document.Link
import FlowBasic.Document.Node
import FlowBasic.Document.Project
import FlowBasic.Document.Value
import FlowBasic.InPlace
import FlowBasic.Json.Numeral
import FlowBasic.Json.Parse
import FlowBasic.Json.Quoted
import FlowBasic.Json.Read
import FlowBasic.Json.Token
import FlowBasic.Json.Tree
import FlowBasic.Layout
import FlowBasic.Link
import FlowBasic.Link.Edit
import FlowBasic.Listing
import FlowBasic.Node
import FlowBasic.Node.Edit
import FlowBasic.Node.Map
import FlowBasic.Operation
import FlowBasic.Program
import FlowBasic.Project
import FlowBasic.Project.Edit
import FlowBasic.Reach
import FlowBasic.Report
import FlowBasic.Routine
import FlowBasic.RoutineName
import FlowBasic.Synthesis
import FlowBasic.Table
import FlowBasic.Traversal
import FlowBasic.Value
import FlowBasic.Proofs.BackEdges
import FlowBasic.Proofs.CalleeArity
import FlowBasic.Proofs.CarriedCalls
import FlowBasic.Proofs.CrowdedPorts
import FlowBasic.Proofs.DanglingCalls
import FlowBasic.Proofs.DocumentShapes
import FlowBasic.Proofs.Doubles
import FlowBasic.Proofs.DrawnTerms
import FlowBasic.Proofs.Emission
import FlowBasic.Proofs.EntryLine
import FlowBasic.Proofs.FallThrough
import FlowBasic.Proofs.Gating
import FlowBasic.Proofs.JumpLines
import FlowBasic.Proofs.LineBreaks
import FlowBasic.Proofs.LineZero
import FlowBasic.Proofs.LinkExclusivity
import FlowBasic.Proofs.LinkInsertion
import FlowBasic.Proofs.LinkOrder
import FlowBasic.Proofs.LiteralEdits
import FlowBasic.Proofs.LiteralTexts
import FlowBasic.Proofs.Mentions
import FlowBasic.Proofs.Merging
import FlowBasic.Proofs.NodeHistories
import FlowBasic.Proofs.NumeralTexts
import FlowBasic.Proofs.OnePass
import FlowBasic.Proofs.Outline
import FlowBasic.Proofs.Ports
import FlowBasic.Proofs.Presentation
import FlowBasic.Proofs.ProjectDocument
import FlowBasic.Proofs.ReachableNodes
import FlowBasic.Proofs.ReadBack
import FlowBasic.Proofs.RecursiveSearch
import FlowBasic.Proofs.RefusedEdits
import FlowBasic.Proofs.Relocation
import FlowBasic.Proofs.Renaming
import FlowBasic.Proofs.Respacing
import FlowBasic.Proofs.Restyling
import FlowBasic.Proofs.Spelling
import FlowBasic.Proofs.Standalone
import FlowBasic.Proofs.StraightLine
import FlowBasic.Proofs.StructuralEdits
import FlowBasic.Proofs.SuppliedInputs
import FlowBasic.Proofs.TreeText
import FlowBasic.Proofs.Unfolding
import FlowBasic.Proofs.UnlinkedPorts
import FlowBasic.Proofs.Validity
