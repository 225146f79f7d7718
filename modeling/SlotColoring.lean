import SlotColoring.BlockGraph.Basic
import SlotColoring.BlockGraph.Builder
import SlotColoring.BlockGraph.Drawing
import SlotColoring.BlockGraph.PendingJumps
import SlotColoring.BlockGraph.Printer
import SlotColoring.Command.Arguments
import SlotColoring.Command.Basic
import SlotColoring.Command.Folder
import SlotColoring.Command.Path
import SlotColoring.Compile
import SlotColoring.Digraph
import SlotColoring.FlowGraph.Basic
import SlotColoring.FlowGraph.Liveness
import SlotColoring.FlowGraph.Session
import SlotColoring.FreshLabel
import SlotColoring.Interference.Basic
import SlotColoring.Interference.Coloring
import SlotColoring.Journal
import SlotColoring.Listing.Basic
import SlotColoring.Listing.Parser
import SlotColoring.Main
import SlotColoring.OperandStack
import SlotColoring.Opcode
import SlotColoring.OrdSet
import SlotColoring.Program.Lowering
import SlotColoring.Program.Printer
import SlotColoring.Program.Syntax
import SlotColoring.Slot
import SlotColoring.Span
import SlotColoring.SumOf
import SlotColoring.SymbolTable
import SlotColoring.Text.Blank
import SlotColoring.Text.Delimited
import SlotColoring.Text.Numeral
import SlotColoring.Text.Quoted
import SlotColoring.Text.Words
import SlotColoring.Proofs.Layout
import SlotColoring.Proofs.Paths
import SlotColoring.Proofs.Wiring
import SlotColoring.Proofs.Purging
import SlotColoring.Proofs.FlowEdges
import SlotColoring.Proofs.LiveSets
import SlotColoring.Proofs.Conflicts
import SlotColoring.Proofs.Machine
import SlotColoring.Proofs.SweepOrder
import SlotColoring.Proofs.BlockEdges
import SlotColoring.Proofs.Bytecode
import SlotColoring.Proofs.LoweredCode
import SlotColoring.Proofs.StackDepth
import SlotColoring.Proofs.Meaning
import SlotColoring.Proofs.Stepping
import SlotColoring.Proofs.Translation
import SlotColoring.Proofs.BuilderSession
import SlotColoring.Proofs.TwoEnded
import SlotColoring.Proofs.IndexedBuilder
import SlotColoring.Proofs.Exposure
import SlotColoring.Proofs.BuildOutcome
import SlotColoring.Proofs.FreshLabels
import SlotColoring.Proofs.CompileOutcome
import SlotColoring.Proofs.LineWords
import SlotColoring.Proofs.PrintedEvents
import SlotColoring.Proofs.CoLiveness
import SlotColoring.Proofs.LabelNames
import SlotColoring.Proofs.NoDeadCode
import SlotColoring.Proofs.PrintedListing
import SlotColoring.Proofs.FirstFit
import SlotColoring.Proofs.VertexPositions
import SlotColoring.Proofs.RegisterCount
import SlotColoring.Proofs.SweepCount
import SlotColoring.Proofs.UndeclaredSlots
import SlotColoring.Proofs.SpareVariables
import SlotColoring.Proofs.FirstUndeclared
import SlotColoring.Proofs.Declarations
import SlotColoring.Proofs.PairedTable
import SlotColoring.Proofs.LineParts
import SlotColoring.Proofs.CheckedReading
import SlotColoring.Proofs.ListingSpans
import SlotColoring.Proofs.LabelErrors
import SlotColoring.Proofs.LineLayout
import SlotColoring.Proofs.MisplacedColons
import SlotColoring.Proofs.QuotedText
import SlotColoring.Proofs.GraphDrawing
import SlotColoring.Proofs.VertexCaptions
import SlotColoring.Proofs.UniqueReading
import SlotColoring.Proofs.LiveGrowth
import SlotColoring.Proofs.Worklist
import SlotColoring.Proofs.LabelUse
