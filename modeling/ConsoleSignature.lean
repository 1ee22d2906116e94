import ConsoleSignature.Block
import ConsoleSignature.Catalog
import ConsoleSignature.Command
import ConsoleSignature.Command.OfSignature
import ConsoleSignature.Command.Record
import ConsoleSignature.CommandLine.Invocation
import ConsoleSignature.CommandLine.Response
import ConsoleSignature.Config
import ConsoleSignature.Config.OfYaml
import ConsoleSignature.Datum
import ConsoleSignature.DefaultValue
import ConsoleSignature.Definition
import ConsoleSignature.Document
import ConsoleSignature.Entry
import ConsoleSignature.Entry.Choices
import ConsoleSignature.Entry.Naming
import ConsoleSignature.Entry.OfBlock
import ConsoleSignature.Entry.Record
import ConsoleSignature.Files.Library
import ConsoleSignature.Files.Path
import ConsoleSignature.Files.Tree
import ConsoleSignature.Files.Tree.Change
import ConsoleSignature.Json.Reading
import ConsoleSignature.Json.Token
import ConsoleSignature.Json.Writing
import ConsoleSignature.Main
import ConsoleSignature.Number.Binary64
import ConsoleSignature.Number.Decimal
import ConsoleSignature.Number.Style
import ConsoleSignature.Plan
import ConsoleSignature.Plan.Reference
import ConsoleSignature.Plan.Token
import ConsoleSignature.Render
import ConsoleSignature.Render.Markdown
import ConsoleSignature.Render.Table
import ConsoleSignature.Text.Blank
import ConsoleSignature.Text.Hex
import ConsoleSignature.Text.Split
import ConsoleSignature.Text.Word
import ConsoleSignature.Yaml.Char
import ConsoleSignature.Yaml.Cursor
import ConsoleSignature.Yaml.Node
import ConsoleSignature.Yaml.Node.Datum
import ConsoleSignature.Yaml.Node.OfTokens
import ConsoleSignature.Yaml.Scalar
import ConsoleSignature.Yaml.Tag
import ConsoleSignature.Yaml.Token
import ConsoleSignature.Yaml.Token.Block
import ConsoleSignature.Yaml.Token.Flow
import ConsoleSignature.Yaml.Token.Property
import ConsoleSignature.Yaml.Token.Stream
import ConsoleSignature.Yaml.Writing
import ConsoleSignature.Proofs.Block.Extraction
import ConsoleSignature.Proofs.Text.Encoding
import ConsoleSignature.Proofs.Block.Offsets
import ConsoleSignature.Proofs.Text
import ConsoleSignature.Proofs.Block.Layout
import ConsoleSignature.Proofs.Command.Layout
import ConsoleSignature.Proofs.Entry.Naming
import ConsoleSignature.Proofs.Entry.Choices
import ConsoleSignature.Proofs.Entry.FirstOfName
import ConsoleSignature.Proofs.Entry.WellFormed
import ConsoleSignature.Proofs.Plan.Append
import ConsoleSignature.Proofs.Plan.Registered
import ConsoleSignature.Proofs.Command.Namespace
import ConsoleSignature.Proofs.Entry.Canonical
import ConsoleSignature.Proofs.Entry.Canonical.Name
import ConsoleSignature.Proofs.Entry.Canonical.Description
import ConsoleSignature.Proofs.Entry.Canonical.Marker
import ConsoleSignature.Proofs.Entry.Canonical.RoundTrip
import ConsoleSignature.Proofs.Plan.Expansion
import ConsoleSignature.Proofs.Command.Header
import ConsoleSignature.Proofs.Block.Braced
import ConsoleSignature.Proofs.Entry.Nesting
import ConsoleSignature.Proofs.Plan.Resolution
import ConsoleSignature.Proofs.Plan.RouteName
import ConsoleSignature.Proofs.Catalog.Accounts
import ConsoleSignature.Proofs.Files.Collection
import ConsoleSignature.Proofs.Catalog.InputOrder
import ConsoleSignature.Proofs.Block.Closed
import ConsoleSignature.Proofs.Command.Append
import ConsoleSignature.Proofs.Files.Writing
import ConsoleSignature.Proofs.CommandLine.Effect
import ConsoleSignature.Proofs.CommandLine.SingleFile
import ConsoleSignature.Proofs.Datum
import ConsoleSignature.Proofs.Entry.Record
import ConsoleSignature.Proofs.Text.Pieces
import ConsoleSignature.Proofs.Command.HeaderText
import ConsoleSignature.Proofs.Command.Lines
import ConsoleSignature.Proofs.Entry.ListDefault
import ConsoleSignature.Proofs.Entry.ChoicePattern
import ConsoleSignature.Proofs.Entry.Extent
import ConsoleSignature.Proofs.Command.Offsets
import ConsoleSignature.Proofs.Text.Replacement
import ConsoleSignature.Proofs.Plan.Reference
import ConsoleSignature.Proofs.Plan.Lookup
import ConsoleSignature.Proofs.Plan.Registration
import ConsoleSignature.Proofs.Files.Exactness
import ConsoleSignature.Proofs.Entry.OneLine
import ConsoleSignature.Proofs.Plan.Token
import ConsoleSignature.Proofs.Plan.Usage
import ConsoleSignature.Proofs.Render.Alignment
import ConsoleSignature.Proofs.Render.Cells
import ConsoleSignature.Proofs.Json.Token
import ConsoleSignature.Proofs.Json.RoundTrip
import ConsoleSignature.Proofs.Definition
import ConsoleSignature.Proofs.Files.Packaging
import ConsoleSignature.Proofs.Number.Decimal
import ConsoleSignature.Proofs.Number.Rounding
import ConsoleSignature.Proofs.DefaultValue
import ConsoleSignature.Proofs.Entry.Default
