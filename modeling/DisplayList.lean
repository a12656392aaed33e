import DisplayList.Crew
import DisplayList.Link
import DisplayList.PageStream
import DisplayList.Description
import DisplayList.Trace.Reading
import DisplayList.Json.Text
import DisplayList.CommandLine
import DisplayList.Listing
import DisplayList.Dump
import DisplayList.Main
import DisplayList.Proofs.Changes
import DisplayList.Proofs.Checked
import DisplayList.Proofs.Atlas
import DisplayList.Proofs.Queue
import DisplayList.Proofs.Run
import DisplayList.Proofs.Batching
import DisplayList.Proofs.Calls
import DisplayList.Proofs.Lockstep
import DisplayList.Proofs.Repeated
import DisplayList.Proofs.Outcome
import DisplayList.Proofs.Shutdown
import DisplayList.Proofs.Separators
import DisplayList.Proofs.Cancellation
import DisplayList.Proofs.Dependencies
import DisplayList.Proofs.Windows
import DisplayList.Proofs.Totals
import DisplayList.Proofs.Ownership
import DisplayList.Proofs.SharedPool
import DisplayList.Proofs.Consumers
import DisplayList.Proofs.Link
import DisplayList.Proofs.Scripts
import DisplayList.Proofs.Replay
import DisplayList.Proofs.PageOrder
import DisplayList.Proofs.Likeness
import DisplayList.Proofs.Ranges
import DisplayList.Proofs.Recognition
import DisplayList.Proofs.Schedule
import DisplayList.Proofs.Turns
import DisplayList.Proofs.Fates
import DisplayList.Proofs.Clearings
import DisplayList.Proofs.Leftovers
import DisplayList.Proofs.Collapsible
import DisplayList.Proofs.Pixels
import DisplayList.Proofs.Course
import DisplayList.Proofs.Splitting
import DisplayList.Proofs.Settled
import DisplayList.Proofs.Opaque
import DisplayList.Proofs.Gathered
import DisplayList.Proofs.AtlasWidth
import DisplayList.Proofs.Interning
import DisplayList.Proofs.Splicing
import DisplayList.Proofs.Appearances
import DisplayList.Proofs.Columns
import DisplayList.Proofs.Outstanding
import DisplayList.Proofs.Transfers
