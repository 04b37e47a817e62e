import Mimuw.Lib.Runs
import Mimuw.Lib.OrderOn
import Mimuw.Lib.OrderedSet
import Mimuw.Sequences.Refinement
import Mimuw.Sequences.Failures
import Mimuw.Sequences.Names
import Mimuw.Cards.Replay
import Mimuw.Cards.Seating
import Mimuw.Cards.Commands
import Mimuw.Cards.Hands
import Mimuw.Cards.Wire
import Mimuw.Cards.Scores
import Mimuw.Cards.Rejection
import Mimuw.Cards.Reception
import Mimuw.Parking.Ledger
import Mimuw.Parking.Removal
import Mimuw.Posets.Labels
import Mimuw.Posets.Ownership
import Mimuw.College.Lookup
import Mimuw.Stacks.Values
import Mimuw.Ppcb.TcpStream
import Mimuw.Ppcb.Verdict
import Mimuw.Ppcb.Completion
import Mimuw.Ppcb.Foreign
import Mimuw.Ppcb.Printing
import Mimuw.Ppcb.ReadData
import Mimuw.Mimpi.Barrier
import Mimuw.Mimpi.Broadcast
import Mimuw.Mimpi.Reduction
import Mimuw.Mimpi.Deadlock
import Mimuw.Mimpi.Finished
import Mimuw.Mimpi.MessageList
import Mimuw.Mimpi.Framing
import Mimuw.Mimpi.Launch
import Mimuw.Regexp.Roundtrip
import Mimuw.Functional.Combinators
import Mimuw.Functional.Unfolding
import Mimuw.Functional.ZipperSound
import Mimuw.Functional.ZipperHistory
import Mimuw.Queues.SimpleQueue
import Mimuw.Queues.RingsRuns
import Mimuw.Queues.BLQueue
import Mimuw.Queues.BLIndices
import Mimuw.Queues.HazardPointer
import Mimuw.Crosswords.Overlap
import Mimuw.Crosswords.Printing
import Mimuw.Copying.Stores
import Mimuw.SameGame.Group
import Mimuw.SameGame.Falling
import Mimuw.GameOfLife.Playing
import Mimuw.Stitching.Seam
import Mimuw.Stitching.Cost
import Mimuw.Stitching.Canvas
import Mimuw.Interpreter.Calls
import Mimuw.Interpreter.Transparency
import Mimuw.Queues.LLQueue
import Mimuw.Queues.LLViews
import Mimuw.Queues.LLInvariant
import Mimuw.Queues.LLRuns
