import KernelGuard.Binary.Format
import KernelGuard.Binary.Ratio
import KernelGuard.Binary.Rounding
import KernelGuard.Binary.Shortest
import KernelGuard.Binary.Text
import KernelGuard.Blank
import KernelGuard.Command.Fields
import KernelGuard.Command.Host
import KernelGuard.Command.LogFilter
import KernelGuard.Command.Options
import KernelGuard.Command.Report
import KernelGuard.Command.Run
import KernelGuard.Command.World
import KernelGuard.Decimal.Basic
import KernelGuard.Decimal.Layout
import KernelGuard.Draft.Basic
import KernelGuard.Draft.Expectation
import KernelGuard.Draft.Grammar
import KernelGuard.Draft.Lexeme
import KernelGuard.Draft.Meaning
import KernelGuard.Draft.Position
import KernelGuard.Draft.Probe
import KernelGuard.Draft.Reader
import KernelGuard.Draft.Symbol
import KernelGuard.Fault
import KernelGuard.Flow.Block
import KernelGuard.Flow.DomTree
import KernelGuard.Flow.Edges
import KernelGuard.Flow.Func
import KernelGuard.Flow.Graph
import KernelGuard.Flow.NameSupply
import KernelGuard.Flow.Program
import KernelGuard.Flow.Region
import KernelGuard.Flow.Substitution
import KernelGuard.Guard.Analysis
import KernelGuard.Guard.Condition
import KernelGuard.Guard.Dimension
import KernelGuard.Guard.EarlyExit
import KernelGuard.IR.Instr
import KernelGuard.IR.Literal
import KernelGuard.IR.Module
import KernelGuard.IR.Operator
import KernelGuard.IR.Text
import KernelGuard.IR.Ty
import KernelGuard.IR.Typing
import KernelGuard.IR.Value
import KernelGuard.Journal
import KernelGuard.Main
import KernelGuard.Pass.Basic
import KernelGuard.Pass.FusedMultiplyAdd
import KernelGuard.Pass.Registry
import KernelGuard.Pattern.Basic
import KernelGuard.Pattern.Brackets
import KernelGuard.Pattern.CharSet
import KernelGuard.Pattern.Escape
import KernelGuard.Pattern.Fault
import KernelGuard.Pattern.Scan
import KernelGuard.Pattern.Syntax
import KernelGuard.Proofs.Execution
import KernelGuard.Proofs.DefinitionErasure
import KernelGuard.Proofs.Simulation
import KernelGuard.Proofs.SurveyContents
import KernelGuard.Proofs.ConditionMeaning
import KernelGuard.Proofs.BoundRemoval
import KernelGuard.Proofs.FreshNames
import KernelGuard.Proofs.NameLoop
import KernelGuard.Proofs.FusedLowering
import KernelGuard.Proofs.BinaryRounding
import KernelGuard.Proofs.Reading
import KernelGuard.Proofs.NumeralText
import KernelGuard.Proofs.Readable
import KernelGuard.Proofs.ReadBack
import KernelGuard.Proofs.InstrReadBack
import KernelGuard.Proofs.PrintParse
import KernelGuard.Proofs.LinkedFlow
import KernelGuard.Proofs.GuardLocation
import KernelGuard.Proofs.FactOrigins
import KernelGuard.Proofs.GuardPolarity
import KernelGuard.Proofs.RemovalSession
import KernelGuard.Proofs.GuardAgreement
import KernelGuard.Proofs.LoweredGuard
import KernelGuard.Proofs.EditReadBack
import KernelGuard.Proofs.LoweredReadBack
import KernelGuard.Proofs.FoldedReadBack
import KernelGuard.Proofs.NameHistory
import KernelGuard.Proofs.FirstFault
import KernelGuard.Proofs.AlikeTexts
import KernelGuard.Proofs.Layout
import KernelGuard.Proofs.Walks
import KernelGuard.Proofs.FittingTexts
import KernelGuard.Proofs.PrintedHead
import KernelGuard.Proofs.CommentedTexts
import KernelGuard.Proofs.ReportLines
import KernelGuard.Proofs.HostedRuns
import KernelGuard.Proofs.WrittenOutput
import KernelGuard.Proofs.ReportComments
import KernelGuard.Proofs.PassRuns
import KernelGuard.Proofs.ImmediateDominance
import KernelGuard.Proofs.BlockOrder
import KernelGuard.Proofs.ConditionTruth
import KernelGuard.Proofs.FailedReports
import KernelGuard.Proofs.FailedRuns
import KernelGuard.Proofs.MirroredEdges
import KernelGuard.Proofs.DominatorForest
import KernelGuard.Proofs.ExchangedCalls
import KernelGuard.Proofs.BinaryOverflow
import KernelGuard.Proofs.LiteralReadBack
import KernelGuard.Proofs.ParentsAndChildren
import KernelGuard.Proofs.NameRequests
import KernelGuard.Proofs.SubstitutedReads
import KernelGuard.Proofs.WrittenTypes
import KernelGuard.Proofs.SkippedBlocks
import KernelGuard.Proofs.InstrFrame
