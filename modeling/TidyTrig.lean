import TidyTrig.Main
import TidyTrig.Sink.Recorder
import TidyTrig.Trig.Source
import TidyTrig.Proofs.Text.Utf8
import TidyTrig.Proofs.Text.Front
import TidyTrig.Proofs.Trig.Lookahead
import TidyTrig.Proofs.Events
import TidyTrig.Proofs.Trig.Feeding
import TidyTrig.Proofs.Trig.Reading
import TidyTrig.Proofs.Iri.Reading
import TidyTrig.Proofs.Trig.Names
import TidyTrig.Proofs.LanguageTag
import TidyTrig.Proofs.Trig.Quoted
import TidyTrig.Proofs.Trig.Words
import TidyTrig.Proofs.Trig.Terms
import TidyTrig.Proofs.Trig.Clauses
import TidyTrig.Proofs.Trig.Writer
import TidyTrig.Proofs.Trig.RoundTrip
import TidyTrig.Proofs.Trig.Yield
import TidyTrig.Proofs.Canonical
import TidyTrig.Proofs.Formatting
import TidyTrig.Proofs.Trig.Directive
import TidyTrig.Proofs.Trig.Stepping
import TidyTrig.Proofs.Trig.Rescan
import TidyTrig.Proofs.Trig.Declaring
import TidyTrig.Proofs.Trig.Declarations
import TidyTrig.Proofs.Trig.Announcing
import TidyTrig.Proofs.Idempotence
import TidyTrig.Proofs.Rdf.Order
import TidyTrig.Proofs.Sink.Calls
import TidyTrig.Proofs.Sink.Watching
import TidyTrig.Proofs.Marker
import TidyTrig.Proofs.Validation
import TidyTrig.Proofs.Trig.Interleaving
import TidyTrig.Proofs.Trig.Labels
import TidyTrig.Proofs.Fate
import TidyTrig.Proofs.Malformed
import TidyTrig.Proofs.Trig.Source
import TidyTrig.Proofs.Trig.Unused
import TidyTrig.Proofs.Disk
import TidyTrig.Proofs.CommandLine.Format
import TidyTrig.Proofs.Trig.Messages
import TidyTrig.Proofs.Undecodable
import TidyTrig.Proofs.Trig.Mentions
import TidyTrig.Proofs.Trig.Capacity
import TidyTrig.Proofs.Trig.Blocks
import TidyTrig.Proofs.Trig.LineEnds
import TidyTrig.Proofs.Trig.Lines
import TidyTrig.Proofs.Rewriting
import TidyTrig.Proofs.Diagnostics
import TidyTrig.Proofs.Trig.Abbreviation
import TidyTrig.Proofs.Trig.Pattern
import TidyTrig.Proofs.Trig.Pieces
import TidyTrig.Proofs.Rdf.CodePoints
import TidyTrig.Proofs.Trig.Quoting
import TidyTrig.Proofs.Trig.Grammar
import TidyTrig.Proofs.Trig.Waiting
import TidyTrig.Proofs.Trig.Passing
import TidyTrig.Proofs.Trig.Bindings
