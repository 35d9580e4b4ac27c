import TreeCensus.Cancellation.Script
import TreeCensus.Pool.Session
import TreeCensus.Survey
import TreeCensus.Tally.Store
import TreeCensus.Proofs.Glob.Language
import TreeCensus.Proofs.Glob.Naming
import TreeCensus.Proofs.Glob.Segment
import TreeCensus.Proofs.Glob.Expansion
import TreeCensus.Proofs.Glob.Matching
import TreeCensus.Proofs.Glob.Scanning
import TreeCensus.Proofs.Glob.Depth
import TreeCensus.Proofs.Glob.Downward
import TreeCensus.Proofs.Filter.Lines
import TreeCensus.Proofs.Filter.Below
import TreeCensus.Proofs.Pool.Books
import TreeCensus.Proofs.Pool.Ledger
import TreeCensus.Proofs.Cancellation.Links
import TreeCensus.Proofs.Pool.Trades
import TreeCensus.Proofs.Pool.Refusal
import TreeCensus.Proofs.Walk.Cursor
import TreeCensus.Proofs.Walk.Nesting
import TreeCensus.Proofs.Walk.Scene
import TreeCensus.Proofs.Walk.Equivalence
import TreeCensus.Proofs.Walk.Identity
import TreeCensus.Proofs.Walk.Termination
import TreeCensus.Proofs.Walk.CallingOff
import TreeCensus.Proofs.Walk.Traversal
import TreeCensus.Proofs.Walk.Independence
import TreeCensus.Proofs.Walk.Exclusion
import TreeCensus.Proofs.Cancellation.Chronicle
import TreeCensus.Proofs.Cancellation.Constancy
import TreeCensus.Proofs.Cancellation.Propagation
import TreeCensus.Proofs.Cancellation.Detachment
import TreeCensus.Proofs.Cancellation.Withdrawal
import TreeCensus.Proofs.Cancellation.Scripts
import TreeCensus.Proofs.Cancellation.Breakdown
import TreeCensus.Proofs.Cancellation.Remnants
import TreeCensus.Proofs.Pool.Refunds
import TreeCensus.Proofs.Pool.Errands
import TreeCensus.Proofs.Filter.Precedence
import TreeCensus.Proofs.Glob.Braces
import TreeCensus.Proofs.Glob.Folding
import TreeCensus.Proofs.Walk.Ascent
import TreeCensus.Proofs.Filter.Spelling
import TreeCensus.Proofs.Filter.Floating
import TreeCensus.Proofs.Walk.Roots
import TreeCensus.Proofs.Walk.Threshold
import TreeCensus.Proofs.Walk.DepthFirst
import TreeCensus.Proofs.FileSystem.Keys
import TreeCensus.Proofs.Tally.Grouping
import TreeCensus.Proofs.Walk.Growth
import TreeCensus.Proofs.Walk.Newest
