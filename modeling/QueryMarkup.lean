import QueryMarkup.Document.Equality
import QueryMarkup.Json.Decode.Document
import QueryMarkup.Json.Read
import QueryMarkup.Json.Encode
import QueryMarkup.Printer.Sink
import QueryMarkup.Reader.Load
import QueryMarkup.Proofs.Markup.Derivation
import QueryMarkup.Proofs.Reading.Result
import QueryMarkup.Proofs.Reading.Lexeme
import QueryMarkup.Proofs.Reading.Complete
import QueryMarkup.Proofs.Reading.Sound
import QueryMarkup.Proofs.Reading.Language
import QueryMarkup.Proofs.Reading.Truth
import QueryMarkup.Proofs.Reading.Report
import QueryMarkup.Proofs.Reading.Viable
import QueryMarkup.Proofs.Reading.Local
import QueryMarkup.Proofs.Reading.Violation
import QueryMarkup.Proofs.Reading.Congruence
import QueryMarkup.Proofs.Reading.Trace
import QueryMarkup.Proofs.Reading.Brackets
import QueryMarkup.Proofs.Reading.Tally
import QueryMarkup.Proofs.Reading.Log
import QueryMarkup.Proofs.Reading.Room
import QueryMarkup.Proofs.Reading.Limit
import QueryMarkup.Proofs.Sessions.Depth
import QueryMarkup.Proofs.Sessions.Renewal
import QueryMarkup.Proofs.Numbers.Numeral
import QueryMarkup.Proofs.Printing.Literal
import QueryMarkup.Proofs.Printing.Layout
import QueryMarkup.Proofs.Printing.Pieces
import QueryMarkup.Proofs.Printing.Repair
import QueryMarkup.Proofs.Printing.RoundTrip
import QueryMarkup.Proofs.Markup.Size
import QueryMarkup.Proofs.Markup.Opening
import QueryMarkup.Proofs.Printing.Valid
import QueryMarkup.Proofs.Interchange.Decoding.Document
import QueryMarkup.Proofs.Interchange.Lossless
import QueryMarkup.Proofs.Interchange.Position
import QueryMarkup.Proofs.Interchange.Tidy
import QueryMarkup.Proofs.Interchange.Shape
import QueryMarkup.Proofs.Interchange.Nesting
import QueryMarkup.Proofs.Interchange.Scanning
import QueryMarkup.Proofs.Interchange.Integers
import QueryMarkup.Proofs.Printing.Outlets
import QueryMarkup.Proofs.Printing.Violations
import QueryMarkup.Proofs.Printing.Compact
import QueryMarkup.Proofs.Printing.Lines
import QueryMarkup.Proofs.Text.JsonString
import QueryMarkup.Proofs.Reading.Strings
import QueryMarkup.Proofs.Reading.Bytes
import QueryMarkup.Proofs.Offsets.Machine
import QueryMarkup.Proofs.Offsets.Agreement
import QueryMarkup.Proofs.Offsets.Scanning
import QueryMarkup.Proofs.Offsets.Rules
import QueryMarkup.Proofs.Offsets.Safety
import QueryMarkup.Proofs.Offsets.Progress
import QueryMarkup.Proofs.Reading.Active
import QueryMarkup.Proofs.Offsets.Termination
import QueryMarkup.Proofs.Numbers.Equality
import QueryMarkup.Proofs.Reading.Exact
import QueryMarkup.Proofs.NamedArguments
import QueryMarkup.Proofs.Filters
import QueryMarkup.Proofs.Printing.SelfDelimiting
import QueryMarkup.Proofs.Reading.Names
