import CommandTemplate.CommandLine.Run
import CommandTemplate.Main
import CommandTemplate.Proofs.Accounting
import CommandTemplate.Proofs.CallSegments
import CommandTemplate.Proofs.Documents
import CommandTemplate.Proofs.Invocation
import CommandTemplate.Proofs.PlainText
import CommandTemplate.Proofs.RelatedScans
import CommandTemplate.Proofs.ReportLayout
import CommandTemplate.Proofs.ReportedLocations
import CommandTemplate.Proofs.ScanLoopInvariant
import CommandTemplate.Proofs.UnfinishedRoundTrip
