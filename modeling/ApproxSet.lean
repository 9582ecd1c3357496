import ApproxSet.Proofs.Checked.Blob
import ApproxSet.Proofs.Evict.Answers
import ApproxSet.Proofs.Evict.Budget
import ApproxSet.Proofs.Evict.Capacity
import ApproxSet.Proofs.Evict.Conserved
import ApproxSet.Proofs.Evict.Lockstep
import ApproxSet.Proofs.Evict.Slots
import ApproxSet.Proofs.Framing
import ApproxSet.Proofs.Peel.Lanes
import ApproxSet.Proofs.Peel.Narrow
import ApproxSet.Proofs.Peel.Seeds
import ApproxSet.Proofs.Ribbon.Isolation
import ApproxSet.Proofs.Ribbon.Precision
import ApproxSet.Proofs.Ribbon.Taken
import ApproxSet.Proofs.RoundTrip
import ApproxSet.Report.Trail
