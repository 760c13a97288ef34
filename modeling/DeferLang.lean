import DeferLang.Disk.Tree
import DeferLang.Main
import DeferLang.Ty.Table
import DeferLang.Proofs.Point
import DeferLang.Proofs.DeferOrder
import DeferLang.Proofs.Tracking
import DeferLang.Proofs.ScheduledPoints
import DeferLang.Proofs.NodeIds
import DeferLang.Proofs.Numbering
import DeferLang.Proofs.Declarations
import DeferLang.Proofs.ExitCleanup
import DeferLang.Proofs.Paths
import DeferLang.Proofs.Lifetimes
import DeferLang.Proofs.Deferrals
import DeferLang.Proofs.DeferredCalls
import DeferLang.Proofs.DeferredArguments
import DeferLang.Proofs.TypingRules
import DeferLang.Proofs.Typechecking
import DeferLang.Proofs.TypedProgram
import DeferLang.Proofs.KnownTypes
import DeferLang.Proofs.TypedCleanup
import DeferLang.Proofs.LoweringRules
import DeferLang.Proofs.LoweredCode
import DeferLang.Proofs.WellFormedCode
import DeferLang.Proofs.VerifiedCode
import DeferLang.Proofs.Execution
import DeferLang.Proofs.Machine
import DeferLang.Proofs.MeaningPreserved
import DeferLang.Proofs.LexicalScoping
import DeferLang.Proofs.Acceptance
import DeferLang.Proofs.PrintedExpr
import DeferLang.Proofs.StableFormat
import DeferLang.Proofs.ReadBack
import DeferLang.Proofs.Outcomes
import DeferLang.Proofs.ScannedBytes
import DeferLang.Proofs.Layout
import DeferLang.Proofs.LineScanning
import DeferLang.Proofs.NestedSpans
import DeferLang.Proofs.AnchoredDiagnostics
import DeferLang.Proofs.Rescheduling
import DeferLang.Proofs.ReportedExits
import DeferLang.Proofs.DeferErrors
import DeferLang.Proofs.BraceMatching
import DeferLang.Proofs.Lexemes
import DeferLang.Proofs.LoopProgress
import DeferLang.Proofs.AssignmentTargets
import DeferLang.Proofs.ReferenceSlots
import DeferLang.Proofs.LocalWarnings
import DeferLang.Proofs.LinePositions
import DeferLang.Proofs.SourceExcerpts
import DeferLang.Proofs.OrderHistory
import DeferLang.Proofs.InvalidBytes
import DeferLang.Proofs.PrintedTexts
import DeferLang.Proofs.NestingCounter
import DeferLang.Proofs.NumberedTypes
import DeferLang.Proofs.TextConstants
