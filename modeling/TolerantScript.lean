import TolerantScript.Proofs.FatalFault
import TolerantScript.Proofs.Interruption
import TolerantScript.Proofs.Provenance
import TolerantScript.Proofs.StaticFault
import TolerantScript.Proofs.StrictRun
import TolerantScript.Proofs.VariableList
import TolerantScript.Tree.Reader
import TolerantScript.Proofs.EventLog
import TolerantScript.Proofs.Agreement
import TolerantScript.Proofs.Independence
import TolerantScript.Proofs.Course
import TolerantScript.Proofs.StringSize
import TolerantScript.Proofs.JsonScalar
import TolerantScript.Proofs.JsonNesting
import TolerantScript.Proofs.TreeCodec
import TolerantScript.Proofs.TreeText
import TolerantScript.Proofs.Query
import TolerantScript.Proofs.Footprint
import TolerantScript.Proofs.Balance
import TolerantScript.Proofs.StringLimit
import TolerantScript.Proofs.StoreHistory
import TolerantScript.Proofs.Deeper
import TolerantScript.Proofs.Drivers
import TolerantScript.Proofs.Inlining
import TolerantScript.Proofs.JsonLayout
import TolerantScript.Proofs.TreeRewording
import TolerantScript.Proofs.TreeLayout
import TolerantScript.Proofs.NestingThreshold
import TolerantScript.Proofs.Answer
import TolerantScript.Proofs.ShortCircuit
import TolerantScript.Proofs.Loop
import TolerantScript.Proofs.Unrolling
import TolerantScript.Proofs.LoopEnd
import TolerantScript.Proofs.IntegerArithmetic
import TolerantScript.Proofs.DiagnosticOrder
import TolerantScript.Proofs.Parentheses
import TolerantScript.Proofs.DeclarationList
import TolerantScript.Proofs.ByteOrder
import TolerantScript.Proofs.StringBuilding
import TolerantScript.Proofs.Widening
import TolerantScript.Proofs.Comparison
import TolerantScript.Proofs.Truth
import TolerantScript.Proofs.IntegerLiteral
import TolerantScript.Proofs.Nearest
import TolerantScript.Proofs.FloatText
import TolerantScript.Proofs.Untraced
import TolerantScript.Proofs.Visit
import TolerantScript.Proofs.Tracing
