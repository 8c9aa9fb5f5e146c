import DepScope.Cache.Basic
import DepScope.Cache.Store
import DepScope.Cli.Arguments
import DepScope.Cli.Run
import DepScope.Config
import DepScope.Decimal.Binary
import DepScope.Decimal.Read
import DepScope.Decimal.Shortest
import DepScope.Documents.Change
import DepScope.Documents.Decoration
import DepScope.Documents.Workspace
import DepScope.Error
import DepScope.Extraction
import DepScope.Files.Ignore
import DepScope.Files.Path
import DepScope.Files.Tree
import DepScope.Files.Walk
import DepScope.GoMod.File
import DepScope.GoMod.Token
import DepScope.Json.Document
import DepScope.Json.Number
import DepScope.Json.Text
import DepScope.Json.Value
import DepScope.Keyed
import DepScope.Language
import DepScope.Main
import DepScope.Manifest.Kind
import DepScope.Manifest.PackageJson
import DepScope.Manifest.Python
import DepScope.Manifest.Requirement
import DepScope.Package.Builtins
import DepScope.Package.Ecosystem
import DepScope.Package.Purl
import DepScope.Pattern.Braces
import DepScope.Pattern.Glob
import DepScope.Pattern.Table
import DepScope.Power
import DepScope.Proofs.Cache.Coherence
import DepScope.Proofs.Cache.Isolation
import DepScope.Proofs.Cache.Operations
import DepScope.Proofs.Cache.Provenance
import DepScope.Proofs.Cache.Run
import DepScope.Proofs.Cache.Settlement
import DepScope.Proofs.Cache.Store
import DepScope.Proofs.Cache.Subscribers
import DepScope.Proofs.Decimal.Shortest
import DepScope.Proofs.Documents.Flags
import DepScope.Proofs.Documents.Operations
import DepScope.Proofs.Documents.Rendering
import DepScope.Proofs.Documents.Run
import DepScope.Proofs.Documents.Supersession
import DepScope.Proofs.Documents.Tracking
import DepScope.Proofs.Json.Normal
import DepScope.Proofs.Json.Number
import DepScope.Proofs.Json.RoundTrip
import DepScope.Proofs.Json.Word
import DepScope.Proofs.Score.RoundTrip
import DepScope.Proofs.Text.Base64
import DepScope.References
import DepScope.Scan.Finder
import DepScope.Scan.Go
import DepScope.Scan.Python
import DepScope.Score.Record
import DepScope.Script.Constant
import DepScope.Script.Cursor
import DepScope.Script.Escape
import DepScope.Script.Grammar.Basic
import DepScope.Script.Grammar.Expressions
import DepScope.Script.Grammar.Markup
import DepScope.Script.Grammar.Statements
import DepScope.Script.Grammar.Types
import DepScope.Script.Imports
import DepScope.Script.Lexer
import DepScope.Script.Number
import DepScope.Script.Parser
import DepScope.Script.Tree
import DepScope.Script.Value
import DepScope.Service.Client
import DepScope.Service.Credentials
import DepScope.Session
import DepScope.Text.Base64
import DepScope.Text.Chars
import DepScope.Text.Lines
import DepScope.Text.Position
import DepScope.Text.Reader
import DepScope.Text.Units
import DepScope.Text.Utf8
import DepScope.Text.Word
import DepScope.Toml.Keys
import DepScope.Toml.Meaning
import DepScope.Toml.Parser
import DepScope.Toml.Quoted
import DepScope.Toml.Tree
import DepScope.Toolchain.FinderBuild
import DepScope.Toolchain.Process
import DepScope.Toolchain.Resolver
import DepScope.Toolchain.Shell
import DepScope.Proofs.Documents.Subscriptions
import DepScope.Proofs.Documents.Locality
import DepScope.Proofs.Json.Spelling
import DepScope.Proofs.References
import DepScope.Proofs.Text.Position
import DepScope.Proofs.Json.Lenient
import DepScope.Proofs.Manifest.PackageJson
import DepScope.Proofs.Cache.Naming
import DepScope.Proofs.Pattern.Expansion
import DepScope.Proofs.Pattern.Flattening
import DepScope.Proofs.GoMod.Blocks
import DepScope.Proofs.Manifest.Python
import DepScope.Proofs.Text.Boundary
import DepScope.Proofs.GoMod.Layout
import DepScope.Proofs.Text.Cutting
import DepScope.Proofs.Manifest.Requirements
import DepScope.Proofs.Scan.Python
import DepScope.Proofs.GoMod.Entries
import DepScope.Proofs.Scan.Go
import DepScope.Proofs.Ranges
import DepScope.Proofs.Pattern.Terms
import DepScope.Proofs.GoMod.Statements
import DepScope.Proofs.GoMod.Exclusion
import DepScope.Proofs.Text.Lines
import DepScope.Proofs.Scan.GoLines
import DepScope.Proofs.Scan.GoSpecs
import DepScope.Proofs.Scan.GoBlocks
import DepScope.Proofs.Scan.GoForms
import DepScope.Proofs.Scan.GoComments
import DepScope.Proofs.References.Union
import DepScope.Proofs.Scan.PythonSearch
import DepScope.Proofs.Scan.PythonLines
import DepScope.Proofs.Manifest.RequirementName
import DepScope.Proofs.Manifest.RequirementLines
import DepScope.Proofs.Json.Trailing
import DepScope.Proofs.Text.Utf8
import DepScope.Proofs.Service.Stream
import DepScope.Proofs.Cache.Response
import DepScope.Proofs.Files.Path
import DepScope.Proofs.Cache.StoreHistory
import DepScope.Proofs.Script.BigInt
import DepScope.Proofs.Script.Word
import DepScope.Proofs.Decimal.Rounding
import DepScope.Proofs.Decimal.Float
import DepScope.Proofs.Script.Comparison
import DepScope.Proofs.Text.Units
import DepScope.Proofs.Script.Escape
import DepScope.Proofs.Script.Exemption
import DepScope.Proofs.Text.Escapes
import DepScope.Proofs.Script.Malformed
import DepScope.Proofs.Toml.Written
import DepScope.Proofs.Toml.Malformed
import DepScope.Proofs.Escapes
import DepScope.Proofs.Decimal.Interval
import DepScope.Proofs.Decimal.Fewest
import DepScope.Proofs.Decimal.Numeral
import DepScope.Proofs.Script.NumberText
import DepScope.Proofs.References.History
import DepScope.Proofs.References.Flags
import DepScope.Proofs.Manifest.Overrides
import DepScope.Proofs.Service.Registry
import DepScope.Proofs.Pattern.Backtracking
import DepScope.Proofs.Script.Walk
import DepScope.Proofs.Toml.Resolution
