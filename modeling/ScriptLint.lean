import ScriptLint.Collector
import ScriptLint.Config.Error
import ScriptLint.Config.Find
import ScriptLint.Config.Indent
import ScriptLint.Config.Load
import ScriptLint.Config.Path
import ScriptLint.Config.Settings
import ScriptLint.Config.Suggestion
import ScriptLint.Data.Mismatch
import ScriptLint.Data.Value
import ScriptLint.Diagnostic.Basic
import ScriptLint.Diagnostic.Encoding
import ScriptLint.Diagnostic.Fix
import ScriptLint.Diagnostic.Report
import ScriptLint.Document
import ScriptLint.Json.Fault
import ScriptLint.Json.Lexeme
import ScriptLint.Json.Reader
import ScriptLint.Json.Skip
import ScriptLint.Json.Typed
import ScriptLint.Lint.Analyzers
import ScriptLint.Lint.BadIndent
import ScriptLint.Lint.IndentPlan
import ScriptLint.Lint.Linter
import ScriptLint.Lint.Remap
import ScriptLint.Lint.VirtualSource
import ScriptLint.Location.LineIndex
import ScriptLint.Location.OffsetRange
import ScriptLint.Location.Position
import ScriptLint.Markup.Attribute
import ScriptLint.Markup.Element
import ScriptLint.Markup.Html
import ScriptLint.Markup.Xml
import ScriptLint.Number.Binary64
import ScriptLint.Number.Digits
import ScriptLint.Number.Shortest
import ScriptLint.Proofs.Document
import ScriptLint.Proofs.Location.LineIndex
import ScriptLint.Proofs.Markup.Element
import ScriptLint.Proofs.Markup.Html
import ScriptLint.Proofs.Text.Lines
import ScriptLint.Proofs.Text.Utf8
import ScriptLint.Samples
import ScriptLint.ScriptBlock
import ScriptLint.Text.Base64
import ScriptLint.Text.Byte
import ScriptLint.Text.Invisible
import ScriptLint.Text.Newline
import ScriptLint.Text.Quoted
import ScriptLint.Text.Similarity
import ScriptLint.Text.Utf8
import ScriptLint.Text.WhiteSpace
import ScriptLint.Toml.Reader
import ScriptLint.Toml.Scalar
import ScriptLint.Toml.Table
import ScriptLint.Toml.Text
import ScriptLint.Yaml.Block
import ScriptLint.Yaml.Cursor
import ScriptLint.Yaml.Node
import ScriptLint.Yaml.Plain
import ScriptLint.Yaml.Quoted
import ScriptLint.Yaml.Reader
import ScriptLint.Yaml.Scalar
import ScriptLint.Yaml.Tag
import ScriptLint.Yaml.Token
import ScriptLint.Yaml.TokenStream
import ScriptLint.Proofs.Markup.Xml
import ScriptLint.Proofs.ScriptBlock
import ScriptLint.Proofs.Lint.IndentPlan
import ScriptLint.Proofs.Lint.VirtualSource
import ScriptLint.Proofs.Lint.Remap
import ScriptLint.Proofs.Lint.PositionFidelity
import ScriptLint.Proofs.Lint.Range
import ScriptLint.Proofs.Lint.RangeContent
import ScriptLint.Proofs.Diagnostic.Fix
import ScriptLint.Proofs.Lint.RangeAccepted
import ScriptLint.Proofs.Lint.RangeOrder
import ScriptLint.Proofs.Lint.FixSafety
import ScriptLint.Proofs.Lint.BlockSource
import ScriptLint.Proofs.Lint.DispatchRange
import ScriptLint.Proofs.Data.StableSort
import ScriptLint.Proofs.Diagnostic.Order
import ScriptLint.Proofs.Lint.DispatchReport
import ScriptLint.Proofs.Lint.LineBreaks
import ScriptLint.Proofs.Lint.MaskedMarkup
import ScriptLint.Proofs.Markup.HtmlStep
import ScriptLint.Proofs.Markup.HtmlCuts
import ScriptLint.Proofs.Markup.XmlSpans
import ScriptLint.Proofs.Markup.HtmlRendering
import ScriptLint.Proofs.Markup.XmlWritten
import ScriptLint.Proofs.Markup.XmlRendering
import ScriptLint.Proofs.Diagnostic.Substitution
import ScriptLint.Proofs.Location.LineTable
import ScriptLint.Proofs.StoredText
import ScriptLint.Proofs.Lint.Layout
import ScriptLint.Proofs.Lint.IndentRule
import ScriptLint.Proofs.Lint.AutoIndent
import ScriptLint.Proofs.Lint.DocumentLine
import ScriptLint.Proofs.Lint.BadIndent
import ScriptLint.Proofs.Lint.ReportOrder
import ScriptLint.Proofs.Lint.ColumnShift
import ScriptLint.Proofs.Markup.TypeFilter
import ScriptLint.Proofs.Markup.XmlFault
import ScriptLint.Proofs.Lint.TextScan
import ScriptLint.Proofs.Lint.Word
import ScriptLint.Proofs.Lint.AnalyzerReports
import ScriptLint.Proofs.Lint.AnalyzerLint
import ScriptLint.Proofs.Config.Indent
import ScriptLint.Proofs.Config.IndentText
import ScriptLint.Proofs.Config.Settings
import ScriptLint.Proofs.Config.SettingsValue
import ScriptLint.Proofs.Config.Find
import ScriptLint.Proofs.Markup.Collector
