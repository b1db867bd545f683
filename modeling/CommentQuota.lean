import CommentQuota.Main
import CommentQuota.Proofs.Rows
import CommentQuota.Proofs.Lexing
import CommentQuota.Proofs.Places
import CommentQuota.Proofs.Spans
import CommentQuota.Proofs.Traversal
import CommentQuota.Proofs.Innermost
import CommentQuota.Proofs.Counting
import CommentQuota.Proofs.Widening
import CommentQuota.Proofs.Enclosing
import CommentQuota.Proofs.Accounting
import CommentQuota.Proofs.Insertion
import CommentQuota.Proofs.Mending
import CommentQuota.Proofs.Shortfall
import CommentQuota.Proofs.RowAccounting
import CommentQuota.Proofs.Sessions
import CommentQuota.Proofs.Convergence
import CommentQuota.Proofs.ProgramKept
import CommentQuota.Proofs.PolicyAgreement
import CommentQuota.Proofs.SpanPartition
import CommentQuota.Proofs.Rounding
import CommentQuota.Proofs.ShortestDecimal
import CommentQuota.Proofs.WrittenNumber
import CommentQuota.Proofs.LeastCount
import CommentQuota.Proofs.ReportedRatio
import CommentQuota.Proofs.QuotaProgress
import CommentQuota.Proofs.Outcomes
import CommentQuota.Proofs.OwnRows
import CommentQuota.Proofs.CommentValues
import CommentQuota.Proofs.UnusableMinimum
import CommentQuota.Proofs.Bystanders
import CommentQuota.Proofs.Encoding
import CommentQuota.Proofs.Positions
import CommentQuota.Proofs.Splicing
import CommentQuota.Proofs.Batches
import CommentQuota.Proofs.EditedRows
import CommentQuota.Proofs.LineEndings
import CommentQuota.Proofs.Stores
import CommentQuota.Proofs.Saving
import CommentQuota.Proofs.DocumentEffect
import CommentQuota.Proofs.Backups
import CommentQuota.Proofs.OtherFiles
import CommentQuota.Proofs.Precedence
import CommentQuota.Proofs.Failures
import CommentQuota.Proofs.ExitCodes
import CommentQuota.Proofs.Resettling
import CommentQuota.Proofs.Alignment
import CommentQuota.Proofs.Hunks
import CommentQuota.Proofs.PatchReading
import CommentQuota.Proofs.UsablePatch
import CommentQuota.Proofs.RowViews
import CommentQuota.Proofs.StackWalk
