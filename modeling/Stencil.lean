import Stencil.Main
import Stencil.Proofs.Action
import Stencil.Proofs.Tree.Ancestry
import Stencil.Proofs.Tree.Moves
import Stencil.Proofs.Tree.Slots
import Stencil.Proofs.Tree.Cloning
import Stencil.Proofs.Tree.Placing
import Stencil.Proofs.Tree.Copies
import Stencil.Proofs.Tree.Frame
import Stencil.Proofs.Query.Inside
import Stencil.Proofs.Query.Alike
import Stencil.Proofs.Query.NodeSets
import Stencil.Proofs.Query.Printing
import Stencil.Proofs.Query.Spelling
import Stencil.Proofs.Query.Reading
import Stencil.Proofs.Query.Grammar
import Stencil.Proofs.Import.Rules
import Stencil.Proofs.Import.Splices
import Stencil.Proofs.Field
import Stencil.Proofs.Stream
import Stencil.Proofs.Field.Layout
import Stencil.Proofs.Field.Writing
import Stencil.Proofs.Field.Kept
import Stencil.Proofs.Field.Replay
import Stencil.Proofs.Loop
import Stencil.Proofs.Walk.Parts
import Stencil.Proofs.Walk.Standing
import Stencil.Proofs.Walk.Writer
import Stencil.Proofs.Walk.Invariant
import Stencil.Proofs.Walk.Visits
import Stencil.Proofs.Walk.Rounds
import Stencil.Proofs.Walk.Position
import Stencil.Proofs.Walk.Log
import Stencil.Proofs.Walk.Sinks
import Stencil.Proofs.Walk.Handed
import Stencil.Proofs.Walk.Outputs
import Stencil.Proofs.Meaning.Basic
import Stencil.Proofs.Meaning.Mirrors
import Stencil.Proofs.Import.Reading
import Stencil.Proofs.Import.Released
import Stencil.Proofs.Walk.Copied
import Stencil.Proofs.Walk.Ends
import Stencil.Proofs.Walk.Held
import Stencil.Proofs.Meaning.Agenda
import Stencil.Proofs.Meaning.Fields
import Stencil.Proofs.Meaning.Unfolding
import Stencil.Proofs.Meaning.Beginning
import Stencil.Proofs.Meaning.Surroundings
import Stencil.Proofs.Meaning.Turning
import Stencil.Proofs.Meaning.Keeping
import Stencil.Proofs.Meaning.Holding
import Stencil.Proofs.Meaning.Rendering
import Stencil.Proofs.Meaning.Visiting
import Stencil.Proofs.Meaning.Closing
import Stencil.Proofs.Meaning.Following
import Stencil.Proofs.Meaning.Written
import Stencil.Proofs.Tree.Alike
import Stencil.Proofs.Tree.History
import Stencil.Proofs.Import.Inlining
import Stencil.Proofs.Import.Gathered
import Stencil.Proofs.Import.Spliced
import Stencil.Proofs.Import.Resolved
import Stencil.Proofs.Walk.Asking
import Stencil.Proofs.Walk.Bodies
import Stencil.Proofs.Walk.Forward
import Stencil.Proofs.Walk.Engaged
import Stencil.Proofs.Walk.OneByOne
import Stencil.Proofs.Xml.RoundTrip
import Stencil.Proofs.Tree.Loading
import Stencil.Proofs.Csv
import Stencil.Proofs.Counter.History
import Stencil.Proofs.Import.Cycles
import Stencil.Proofs.Field.Decimal
import Stencil.Proofs.Field.Digits
import Stencil.Proofs.Loop.Calls
import Stencil.Proofs.Loop.Feeds
import Stencil.Proofs.Loop.Counted
import Stencil.Proofs.Loop.Maximum
import Stencil.Proofs.Loop.Unrolling
import Stencil.Proofs.CharMap.Ending
import Stencil.Proofs.CharMap.Template
import Stencil.Proofs.Query.Axes
import Stencil.Proofs.Walk.Rendering
import Stencil.Proofs.Import.Replacing
import Stencil.Proofs.Field.Increment
import Stencil.Proofs.Walk.Untouched
import Stencil.Proofs.Walk.Ways
import Stencil.Proofs.Walk.Once
import Stencil.Proofs.Walk.Counting
import Stencil.Proofs.Walk.Outside
import Stencil.Proofs.Walk.Adrift
import Stencil.Proofs.Walk.WrittenAgain
