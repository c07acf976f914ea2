import PlainRequest.Arguments.Grammar
import PlainRequest.Arguments.Reader
import PlainRequest.CommandLine.Invocation
import PlainRequest.CommandLine.Machine
import PlainRequest.CommandLine.Number
import PlainRequest.CommandLine.Outcome
import PlainRequest.CommandLine.Report
import PlainRequest.Curl.Call
import PlainRequest.Curl.Command
import PlainRequest.Execution
import PlainRequest.Failure
import PlainRequest.Files.Basic
import PlainRequest.Files.Path
import PlainRequest.Files.Tree
import PlainRequest.Form.Multipart
import PlainRequest.Form.UrlEncoded
import PlainRequest.Http.Framing
import PlainRequest.Http.Prepared
import PlainRequest.Http.Rendered
import PlainRequest.Http.Response
import PlainRequest.Http.Wire
import PlainRequest.Json.Printer
import PlainRequest.Json.Reader
import PlainRequest.Json.Token
import PlainRequest.Json.Value
import PlainRequest.Keyed
import PlainRequest.Line
import PlainRequest.Main
import PlainRequest.Method
import PlainRequest.Request.Basic
import PlainRequest.Request.Body
import PlainRequest.Request.Head
import PlainRequest.Settings.Basic
import PlainRequest.Settings.Reader
import PlainRequest.Settings.Search
import PlainRequest.Shell.Quote
import PlainRequest.Shell.Words
import PlainRequest.Text.Basic
import PlainRequest.Text.Blank
import PlainRequest.Text.Digits
import PlainRequest.Text.Percent
import PlainRequest.Text.Terminal
import PlainRequest.Text.Utf8
import PlainRequest.Toml.Quoted
import PlainRequest.Toml.Reader
import PlainRequest.Toml.Scalar
import PlainRequest.Toml.Table
import PlainRequest.Toml.Value
import PlainRequest.Url.Address
import PlainRequest.Url.Basic
import PlainRequest.Url.Domain
import PlainRequest.Url.Punycode
import PlainRequest.Url.Reader
import PlainRequest.Variable.Declaration
import PlainRequest.Variable.Substitution
import PlainRequest.Variable.Table
import PlainRequest.Proofs.Arguments.Reading
import PlainRequest.Proofs.CommandLine.Piping
import PlainRequest.Proofs.Curl.CommandWords
import PlainRequest.Proofs.Curl.Options
import PlainRequest.Proofs.Curl.ReadBack
import PlainRequest.Proofs.Curl.RoundTrip
import PlainRequest.Proofs.Document.Blocks
import PlainRequest.Proofs.Document.Layout
import PlainRequest.Proofs.Document.NormalForm
import PlainRequest.Proofs.Execution
import PlainRequest.Proofs.Form.UrlEncoded
import PlainRequest.Proofs.Http.Attachments
import PlainRequest.Proofs.Http.MediaType
import PlainRequest.Proofs.Http.Posting
import PlainRequest.Proofs.Http.Preparing
import PlainRequest.Proofs.Http.Rendering
import PlainRequest.Proofs.Json.Canonical
import PlainRequest.Proofs.Json.Escaping
import PlainRequest.Proofs.Json.Grammar
import PlainRequest.Proofs.Json.Indentation
import PlainRequest.Proofs.Json.Layout
import PlainRequest.Proofs.Json.Meaning
import PlainRequest.Proofs.Json.Numbers
import PlainRequest.Proofs.Json.Ordering
import PlainRequest.Proofs.Json.RoundTrip
import PlainRequest.Proofs.Json.Spelling
import PlainRequest.Proofs.Json.Strings
import PlainRequest.Proofs.Json.Tokens
import PlainRequest.Proofs.Json.Values
import PlainRequest.Proofs.Keyed
import PlainRequest.Proofs.Line
import PlainRequest.Proofs.Line.Patterns
import PlainRequest.Proofs.Request.Characters
import PlainRequest.Proofs.Request.Classification
import PlainRequest.Proofs.Request.Directives
import PlainRequest.Proofs.Request.Fields
import PlainRequest.Proofs.Request.Forms
import PlainRequest.Proofs.Request.Grammar
import PlainRequest.Proofs.Request.Reading
import PlainRequest.Proofs.Request.RoundTrip
import PlainRequest.Proofs.Request.Shape
import PlainRequest.Proofs.Shell.Characters
import PlainRequest.Proofs.Shell.Pieces
import PlainRequest.Proofs.Shell.Spelling
import PlainRequest.Proofs.Text.ByteOrder
import PlainRequest.Proofs.Text.Cutting
import PlainRequest.Proofs.Text.Pattern
import PlainRequest.Proofs.Text.Replacing
import PlainRequest.Proofs.Text.Trimming
import PlainRequest.Proofs.Text.Utf8
import PlainRequest.Proofs.Variable.Declaration
import PlainRequest.Proofs.Variable.Grammar
import PlainRequest.Proofs.Variable.Lines
import PlainRequest.Proofs.Variable.Overlay
import PlainRequest.Proofs.Variable.Replacement
import PlainRequest.Proofs.Variable.Resolution
import PlainRequest.Proofs.Variable.Segmentation
import PlainRequest.Proofs.Variable.Substitution
import PlainRequest.Proofs.Shell.DoubleQuotes
import PlainRequest.Proofs.Shell.Expansion
import PlainRequest.Proofs.Curl.Quoting
import PlainRequest.Proofs.Files.Path
import PlainRequest.Proofs.Settings.Effective
import PlainRequest.Proofs.Arguments.Wording
import PlainRequest.Proofs.CommandLine.Options
import PlainRequest.Proofs.Http.Headers
import PlainRequest.Proofs.Http.Received
import PlainRequest.Proofs.Http.Delivery
