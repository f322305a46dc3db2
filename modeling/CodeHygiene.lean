import CodeHygiene.Log
import CodeHygiene.Main
import CodeHygiene.Proofs.Delimiter
import CodeHygiene.Proofs.Secret
import CodeHygiene.Proofs.Severity
import CodeHygiene.Proofs.Totality
import CodeHygiene.Proofs.Table
import CodeHygiene.Proofs.Loading
import CodeHygiene.Proofs.Position
import CodeHygiene.Proofs.LineEndings
import CodeHygiene.Proofs.Insertions
import CodeHygiene.Proofs.Glob
import CodeHygiene.Proofs.Discovery
import CodeHygiene.Proofs.Thresholds
import CodeHygiene.Proofs.Commented
import CodeHygiene.Proofs.Documented
import CodeHygiene.Proofs.Uncommented
import CodeHygiene.Proofs.CommentLines
import CodeHygiene.Proofs.CodeLines
import CodeHygiene.Proofs.Listing
import CodeHygiene.Proofs.Notes
import CodeHygiene.Proofs.Evidence
import CodeHygiene.Proofs.Gaps
import CodeHygiene.Proofs.Signals
import CodeHygiene.Proofs.Literals
import CodeHygiene.Proofs.BlankRuns
import CodeHygiene.Proofs.Rendering
import CodeHygiene.Proofs.Summary
