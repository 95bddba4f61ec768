import DocWalk.Cursor.Traversal
import DocWalk.Json.Tokenizer
import DocWalk.Source.Scripted
import DocWalk.Xml.Document
import DocWalk.Proofs.Json.Grammar
import DocWalk.Proofs.Json.Scanning
import DocWalk.Proofs.Json.Numbers
import DocWalk.Proofs.Json.Strings
import DocWalk.Proofs.Json.Turns
import DocWalk.Proofs.Json.Runs
import DocWalk.Proofs.Json.Completeness
import DocWalk.Proofs.Json.Soundness
import DocWalk.Proofs.Xml.Reading
import DocWalk.Proofs.Xml.Words
import DocWalk.Proofs.Xml.Escapes
import DocWalk.Proofs.Xml.Markup
import DocWalk.Proofs.Xml.Tags
import DocWalk.Proofs.Xml.RoundTrip
import DocWalk.Proofs.Xml.Blanks
import DocWalk.Proofs.Source.Requests
import DocWalk.Proofs.Source.Contract
import DocWalk.Proofs.Source.Nesting
import DocWalk.Proofs.Json.Moves
import DocWalk.Proofs.Json.Failures
import DocWalk.Proofs.Xml.Nesting
import DocWalk.Proofs.Xml.Failures
import DocWalk.Proofs.Source.Formats
import DocWalk.Proofs.Number.Digits
import DocWalk.Proofs.Number.Bounded
import DocWalk.Proofs.Number.Decimal
import DocWalk.Proofs.Number.Widths
import DocWalk.Proofs.Text.Base64
import DocWalk.Proofs.Date.Calendar
import DocWalk.Proofs.Date.Instant
import DocWalk.Proofs.Date.Epoch
import DocWalk.Proofs.Date.Items
import DocWalk.Proofs.Date.RoundTrip
import DocWalk.Proofs.Date.Offsets
import DocWalk.Proofs.Date.Forms
import DocWalk.Proofs.Path.Components
import DocWalk.Proofs.Path.Levels
import DocWalk.Proofs.Path.Anchored
import DocWalk.Proofs.Path.Cache
import DocWalk.Proofs.Metadata
import DocWalk.Proofs.Cursor.Operations
import DocWalk.Proofs.Cursor.OpenNodes
import DocWalk.Proofs.Cursor.Foresight
import DocWalk.Proofs.Cursor.Consumption
import DocWalk.Proofs.Cursor.LastRuns
import DocWalk.Proofs.Cursor.CachedPath
import DocWalk.Proofs.Cursor.Settings
import DocWalk.Proofs.Cursor.AnchoredTest
import DocWalk.Proofs.Cursor.DepthFirst
import DocWalk.Proofs.Cursor.Congruence
import DocWalk.Proofs.Cursor.Interchange
import DocWalk.Proofs.Cursor.PatternMemory
import DocWalk.Proofs.Cursor.Watching
import DocWalk.Proofs.Cursor.Refusal
import DocWalk.Proofs.Cursor.DepthLimit
import DocWalk.Proofs.Cursor.Skipping
import DocWalk.Proofs.Cursor.ReadingText
import DocWalk.Proofs.Cursor.Arrival
import DocWalk.Proofs.Cursor.PlainDocuments
import DocWalk.Proofs.Json.Resumption
import DocWalk.Proofs.Json.Observation
import DocWalk.Proofs.Json.ExactNumbers
import DocWalk.Proofs.Json.Progress
import DocWalk.Proofs.Json.BrokenTokens
import DocWalk.Proofs.Json.Positions
import DocWalk.Proofs.Json.LongestNumbers
import DocWalk.Proofs.Json.OpenContainers
import DocWalk.Proofs.Json.StringLiterals
import DocWalk.Proofs.Json.Checked
import DocWalk.Proofs.Json.SafeReading
