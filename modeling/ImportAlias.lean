import ImportAlias.Main
import ImportAlias.Pipeline.Host
import ImportAlias.ToolServer
import ImportAlias.Proofs.Capture
import ImportAlias.Proofs.FirstPair
import ImportAlias.Proofs.Places
import ImportAlias.Proofs.Lineage
import ImportAlias.Proofs.SharedFiles
import ImportAlias.Proofs.Inheritance
import ImportAlias.Proofs.Document
import ImportAlias.Proofs.Stripping
import ImportAlias.Proofs.DocumentReading
import ImportAlias.Proofs.ReadableTexts
import ImportAlias.Proofs.Passing
import ImportAlias.Proofs.Outcome
import ImportAlias.Proofs.Tracing
import ImportAlias.Proofs.Agreement
import ImportAlias.Proofs.CallDepth
import ImportAlias.Proofs.Completion
import ImportAlias.Proofs.Agenda
import ImportAlias.Proofs.Reporting
import ImportAlias.Proofs.SafeTexts
import ImportAlias.Proofs.Unstripping
import ImportAlias.Proofs.Chain
import ImportAlias.Proofs.Landing
import ImportAlias.Proofs.PackageSearch
import ImportAlias.Proofs.MissingFiles
import ImportAlias.Proofs.ProjectPaths
import ImportAlias.Proofs.Claiming
import ImportAlias.Proofs.NestedLogs
import ImportAlias.Proofs.Abreast
import ImportAlias.Proofs.Lockstep
import ImportAlias.Proofs.Context
import ImportAlias.Proofs.Unnoticed
import ImportAlias.Proofs.Joining
import ImportAlias.Proofs.RelativeRequests
import ImportAlias.Proofs.FinishCount
import ImportAlias.Proofs.RepeatedCalls
import ImportAlias.Proofs.LongestCapture
import ImportAlias.Proofs.Expansion
import ImportAlias.Proofs.CanonicalPaths
import ImportAlias.Proofs.BaseDirectory
import ImportAlias.Proofs.Anchoring
import ImportAlias.Proofs.BaseUrlOrigin
import ImportAlias.Proofs.FirstTargets
import ImportAlias.Proofs.Discovery
import ImportAlias.Proofs.LinePlaces
import ImportAlias.Text.Encoding
