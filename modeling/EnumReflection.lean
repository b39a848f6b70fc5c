import EnumReflection.Command.Arguments
import EnumReflection.Command.Help
import EnumReflection.Command.Log
import EnumReflection.Command.Process
import EnumReflection.Command.Reading
import EnumReflection.Command.Run
import EnumReflection.Declaration
import EnumReflection.Enumeration
import EnumReflection.Initializer
import EnumReflection.IntType
import EnumReflection.Json
import EnumReflection.Json.Grammar
import EnumReflection.Json.Reading
import EnumReflection.Lexeme
import EnumReflection.Literal
import EnumReflection.Name
import EnumReflection.Numbering
import EnumReflection.Report
import EnumReflection.Report.Reading
import EnumReflection.Segment
import EnumReflection.Table.Basic
import EnumReflection.Table.Build
import EnumReflection.Table.Cursor
import EnumReflection.Table.Deferred
import EnumReflection.Table.Duplicates
import EnumReflection.Text.Basic
import EnumReflection.Text.Blank
import EnumReflection.Text.Decimal
import EnumReflection.Text.Digit
import EnumReflection.Text.Quoted
import EnumReflection.Text.Unprintable
import EnumReflection.Trivia
import EnumReflection.Main
import EnumReflection.Proofs.First
import EnumReflection.Proofs.Layout
import EnumReflection.Proofs.Name
import EnumReflection.Proofs.Cut
import EnumReflection.Proofs.Body
import EnumReflection.Proofs.Tiling
import EnumReflection.Proofs.Independence
import EnumReflection.Proofs.Bracket
import EnumReflection.Proofs.Spelling
import EnumReflection.Proofs.Numeral
import EnumReflection.Proofs.Integer
import EnumReflection.Proofs.Prelude
import EnumReflection.Proofs.Counting
import EnumReflection.Proofs.Wrapping
import EnumReflection.Proofs.Table.Outcome
import EnumReflection.Proofs.Messages
import EnumReflection.Proofs.Declaration.Outcome
import EnumReflection.Proofs.Declaration.Written
import EnumReflection.Proofs.Declaration.Accepted
import EnumReflection.Proofs.Enumeration.Agreement
import EnumReflection.Proofs.Enumeration.Inverse
import EnumReflection.Proofs.Table.FirstDeclared
import EnumReflection.Proofs.Table.Repeats
import EnumReflection.Proofs.Table.Iteration
import EnumReflection.Proofs.Enumeration.Tail
import EnumReflection.Proofs.Declaration.Enumerated
import EnumReflection.Proofs.Table.Cell
import EnumReflection.Proofs.Table.FirstUse
import EnumReflection.Proofs.Table.History
import EnumReflection.Proofs.Documented
import EnumReflection.Proofs.Span
import EnumReflection.Proofs.Enumeration.Outcome
import EnumReflection.Proofs.Attribute
import EnumReflection.Bytes.Basic
import EnumReflection.Bytes.Read
import EnumReflection.Proofs.Bytes.Basic
import EnumReflection.Proofs.Bytes.Comma
import EnumReflection.Proofs.Bytes.Segments
import EnumReflection.Proofs.Bytes.Literal
import EnumReflection.Proofs.Bytes.Run
import EnumReflection.Proofs.Blank
import EnumReflection.Proofs.Character
import EnumReflection.Proofs.Quoted
import EnumReflection.Proofs.Json.Reading
import EnumReflection.Proofs.Json.Writing
import EnumReflection.Proofs.Report.Columns
import EnumReflection.Proofs.Report.Table
import EnumReflection.Proofs.Report.Listing
