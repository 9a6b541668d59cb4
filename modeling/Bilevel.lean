import Bilevel.Bitmap
import Bilevel.Failure
import Bilevel.MQ
import Bilevel.Proofs.Bitmap.Checked
import Bilevel.Proofs.Bitmap.Layouts
import Bilevel.Proofs.Bitmap.Pixels
import Bilevel.Proofs.Bitmap.Raster
import Bilevel.Proofs.Bitmap.WellFormed
import Bilevel.Proofs.MQ.Checked
import Bilevel.Proofs.MQ.Encoder
import Bilevel.Proofs.MQ.Exhaustion
import Bilevel.Proofs.MQ.Invariant
import Bilevel.Proofs.MQ.Marker
import Bilevel.Proofs.MQ.Polarity
import Bilevel.Proofs.MQ.Reference
import Bilevel.Proofs.MQ.Refinement
import Bilevel.Proofs.MQ.RoundTrip
import Bilevel.Proofs.MQ.Runs
import Bilevel.Proofs.Region.BitCount
import Bilevel.Proofs.Region.Canvas
import Bilevel.Proofs.Region.Checked
import Bilevel.Proofs.Region.FinishedRow
import Bilevel.Proofs.Region.Footprint
import Bilevel.Proofs.Region.OneSource
import Bilevel.Proofs.Region.Outcome
import Bilevel.Proofs.Region.RoundTrip
import Bilevel.Proofs.Region.Rows
import Bilevel.Proofs.Region.Skipped
import Bilevel.Proofs.Region.TopRows
import Bilevel.Proofs.Region.WindowRow
import Bilevel.Proofs.Resumable.Batch
import Bilevel.Proofs.Resumable.Calls
import Bilevel.Proofs.Resumable.Checked
import Bilevel.Proofs.Resumable.Contexts
import Bilevel.Proofs.Resumable.Invariant
import Bilevel.Proofs.Resumable.Polls
import Bilevel.Proofs.Resumable.Refusals
import Bilevel.Proofs.Resumable.Restart
import Bilevel.Proofs.Resumable.Rows
import Bilevel.Proofs.Resumable.Updates
import Bilevel.Proofs.Resumable.Workload
import Bilevel.Proofs.Source.Dialogue
import Bilevel.Proofs.Source.Frame
import Bilevel.Proofs.Source.Session
import Bilevel.Proofs.Source.Transcript
import Bilevel.Proofs.Template.ContextNumber
import Bilevel.Proofs.Template.Positions
import Bilevel.Proofs.Template.Windows
import Bilevel.Region
import Bilevel.Resumable
import Bilevel.Source
import Bilevel.Template
