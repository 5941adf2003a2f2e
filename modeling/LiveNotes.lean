import LiveNotes.Bundle.Summary
import LiveNotes.Main
import LiveNotes.Proofs.Bundle.Agreement
import LiveNotes.Proofs.Bundle.Apart
import LiveNotes.Proofs.Bundle.Chunks
import LiveNotes.Proofs.Bundle.Closed
import LiveNotes.Proofs.Bundle.Hoist
import LiveNotes.Proofs.Bundle.ImportNames
import LiveNotes.Proofs.Bundle.Imports
import LiveNotes.Proofs.Bundle.InPlace
import LiveNotes.Proofs.Bundle.Once
import LiveNotes.Proofs.Bundle.ReadBack
import LiveNotes.Proofs.Bundle.Sorted
import LiveNotes.Proofs.Bundle.Stretches
import LiveNotes.Proofs.Bundle.Walk
import LiveNotes.Proofs.Digest.Framed
import LiveNotes.Proofs.Document.Apart
import LiveNotes.Proofs.Document.Order
import LiveNotes.Proofs.Document.Reuse
import LiveNotes.Proofs.Document.Scopes
import LiveNotes.Proofs.Fragment.Hold
import LiveNotes.Proofs.Fragment.Scanning
import LiveNotes.Proofs.Plan.Freshness
import LiveNotes.Proofs.Refresh.Publishing
import LiveNotes.Proofs.Refresh.Timed
import LiveNotes.Proofs.Scope.Ancestry
import LiveNotes.Proofs.Scope.Handle
import LiveNotes.Proofs.Scope.Links
import LiveNotes.Proofs.Scope.Listening
import LiveNotes.Proofs.Scope.Root
import LiveNotes.Proofs.Script.Lexing
import LiveNotes.Proofs.Script.Program
import LiveNotes.Proofs.Script.Reading
import LiveNotes.Proofs.Script.Statements
import LiveNotes.Proofs.Transpile.Again
import LiveNotes.Proofs.Transpile.Runtime
import LiveNotes.Proofs.Json.Limits
import LiveNotes.Proofs.Loader.Report
import LiveNotes.Proofs.Loader.Ending
import LiveNotes.Proofs.Refresh.Schedule
import LiveNotes.Proofs.Refresh.Served
import LiveNotes.Proofs.Refresh.Watched
import LiveNotes.Proofs.Document.Repeated
import LiveNotes.Proofs.Fragment.Appending
import LiveNotes.Proofs.Document.Widgets
import LiveNotes.Proofs.Fragment.Writing
import LiveNotes.Proofs.Plan.Keys
import LiveNotes.Proofs.Refresh.Firing
import LiveNotes.Proofs.Loader.Registered
import LiveNotes.Proofs.Fragment.Statements
import LiveNotes.Proofs.Edit.Spliced
import LiveNotes.Proofs.Document.Position
import LiveNotes.Proofs.Transpile.Expression
