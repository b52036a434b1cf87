import LetLang.Source
import LetLang.Text
import LetLang.Text.Utf8
import LetLang.Decimal
import LetLang.Span
import LetLang.Lexeme
import LetLang.Lexeme.Character
import LetLang.Lexeme.Scan
import LetLang.Token
import LetLang.Kind
import LetLang.Cursor
import LetLang.Tree
import LetLang.Tree.Layout
import LetLang.Tree.Visit
import LetLang.Tree.Document
import LetLang.Json
import LetLang.Json.Encoder
import LetLang.Json.Spelling
import LetLang.Json.Printer
import LetLang.Json.Buffer
import LetLang.Json.Sink
import LetLang.Tree.Marshal
import LetLang.Note
import LetLang.Parse
import LetLang.Parse.Attempt
import LetLang.Parse.Production
import LetLang.Parse.Speculation
import LetLang.Reformat
import LetLang.Session
import LetLang.Proofs.Grammar
import LetLang.Proofs.Match
import LetLang.Proofs.Numeral
import LetLang.Proofs.Tally
import LetLang.Proofs.Run
import LetLang.Proofs.Skipping
import LetLang.Proofs.Soundness
import LetLang.Proofs.Extent
import LetLang.Proofs.Acceptance
import LetLang.Proofs.Speculation
import LetLang.Proofs.Spelling
import LetLang.Proofs.MapSpan
import LetLang.Proofs.WellFormed
import LetLang.Proofs.Layout
import LetLang.Proofs.RoundTrip
import LetLang.Proofs.Relabel
import LetLang.Proofs.Context
import LetLang.Proofs.Cut
import LetLang.Proofs.Split
import LetLang.Proofs.Nodes
import LetLang.Proofs.Nested
import LetLang.Proofs.Agreement
import LetLang.Proofs.Content
import LetLang.Proofs.Reparse
import LetLang.Proofs.Lossless
import LetLang.Proofs.Lexable
import LetLang.Proofs.ParsedTrees
import LetLang.Proofs.Quiet
import LetLang.Proofs.Extension
import LetLang.Proofs.Sequence
import LetLang.Proofs.Respacing
import LetLang.Proofs.Aligned
import LetLang.Proofs.Documents
import LetLang.Proofs.JsonText
import LetLang.Proofs.Printer
import LetLang.Proofs.Recovery
import LetLang.Proofs.Places
import LetLang.Proofs.Depth
import LetLang.Proofs.SingleExpression
import LetLang.Proofs.Squeeze
import LetLang.Proofs.Indentation
import LetLang.Proofs.Missing
import LetLang.Proofs.Styles
