import AliasLang.Command.Compile
import AliasLang.Command.Fragment
import AliasLang.Command.Keys
import AliasLang.Command.Marker
import AliasLang.Command.Pipeline
import AliasLang.Command.Program
import AliasLang.Command.Quoting
import AliasLang.Command.Scope
import AliasLang.Error
import AliasLang.Files
import AliasLang.Gist.Cache
import AliasLang.Gist.Id
import AliasLang.Gist.Response
import AliasLang.Json.Basic
import AliasLang.Json.Printer
import AliasLang.Json.Quoted
import AliasLang.Json.Raw
import AliasLang.Main
import AliasLang.Program.Basic
import AliasLang.Program.Entry
import AliasLang.Program.Layout
import AliasLang.Program.Parse
import AliasLang.Program.ParseError
import AliasLang.Program.Record
import AliasLang.Program.Scripts
import AliasLang.Program.Source
import AliasLang.Script.Console
import AliasLang.Script.Diagnostic
import AliasLang.Script.Embed
import AliasLang.Script.Minify
import AliasLang.Script.Scan
import AliasLang.Script.Semicolons
import AliasLang.Script.Statement
import AliasLang.Script.Token
import AliasLang.Script.Unused
import AliasLang.Settings
import AliasLang.Source.Span
import AliasLang.Text.Alphabetic
import AliasLang.Text.Blank
import AliasLang.Text.CodeRanges
import AliasLang.Text.Hidden
import AliasLang.Text.Lines
import AliasLang.Text.Number
import AliasLang.Text.Numeric
import AliasLang.Text.Shown
import AliasLang.Text.Split
import AliasLang.Token.Basic
import AliasLang.Token.Error
import AliasLang.Token.Scan
import AliasLang.Token.Selector
import AliasLang.Toml.Basic
import AliasLang.Toml.Document
import AliasLang.Toml.Scan
import AliasLang.Tool.Arguments
import AliasLang.Tool.Config
import AliasLang.Tool.Run
import AliasLang.Proofs.Text.Lines
import AliasLang.Proofs.Command.Marker
import AliasLang.Proofs.Command.Pipeline
import AliasLang.Proofs.Program.Grammar
import AliasLang.Proofs.Program.Outcome
import AliasLang.Proofs.Program.ParseSound
import AliasLang.Proofs.Program.ParseComplete
import AliasLang.Proofs.Program.Literal
import AliasLang.Proofs.Program.ParserGrammar
import AliasLang.Proofs.Program.Lookahead
import AliasLang.Proofs.Program.ErrorPlace
import AliasLang.Proofs.Script.Remap
import AliasLang.Proofs.Program.ScriptPlace
import AliasLang.Proofs.Token.Scan
import AliasLang.Proofs.Program.Layout
import AliasLang.Proofs.Command.Run
import AliasLang.Proofs.Command.TempKeys
import AliasLang.Proofs.Command.Quoting
import AliasLang.Proofs.Command.Body
import AliasLang.Proofs.Command.Embedding
import AliasLang.Proofs.Command.Nesting
import AliasLang.Proofs.Command.Origin
import AliasLang.Proofs.Command.Success
import AliasLang.Proofs.Command.Formatting
import AliasLang.Proofs.Command.Requests
import AliasLang.Proofs.Token.Partition
import AliasLang.Proofs.Script.Lexeme
import AliasLang.Proofs.Script.Brackets
import AliasLang.Proofs.Script.Passes
import AliasLang.Proofs.Script.Scan
import AliasLang.Proofs.Script.ReadBack
import AliasLang.Proofs.Script.Unused
import AliasLang.Proofs.Command.Separators
import AliasLang.Proofs.Program.Names
import AliasLang.Proofs.Command.LineBreaks
import AliasLang.Proofs.Files
import AliasLang.Proofs.Program.Record
import AliasLang.Proofs.Tool.Output
import AliasLang.Proofs.Command.Draws
import AliasLang.Proofs.Command.Units
import AliasLang.Proofs.Program.Entry
import AliasLang.Proofs.Command.Parameters
import AliasLang.Proofs.Script.LineBreaks
import AliasLang.Proofs.Script.Partition
import AliasLang.Proofs.Script.Alignment
import AliasLang.Proofs.Script.Preamble
import AliasLang.Proofs.Command.Remarks
import AliasLang.Proofs.Script.Places
import AliasLang.Proofs.Script.Front
import AliasLang.Proofs.Script.Shaking
import AliasLang.Proofs.Script.Helpers
import AliasLang.Proofs.Script.Rounds
import AliasLang.Proofs.Program.Placement
import AliasLang.Proofs.Token.Writing
import AliasLang.Proofs.Token.Respacing
import AliasLang.Proofs.Program.ParsePlaces
import AliasLang.Proofs.Program.Spans
import AliasLang.Proofs.Token.Selector
import AliasLang.Proofs.Command.Blank
import AliasLang.Proofs.Command.FixedPipeline
import AliasLang.Proofs.Program.Cursor
import AliasLang.Proofs.Program.Walk
import AliasLang.Proofs.Program.WalkEnds
