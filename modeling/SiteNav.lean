import SiteNav.Codec
import SiteNav.Command.Run
import SiteNav.FileSystem.DirectoryTree
import SiteNav.Main
import SiteNav.Proofs.Command.Agreement
import SiteNav.Proofs.RoundTrip
import SiteNav.SiteFile
import SiteNav.Validation
import SiteNav.Proofs.Document.Comparison
import SiteNav.Proofs.Document.Strays
import SiteNav.Proofs.Document.Yields
import SiteNav.Proofs.Document.Acceptance
import SiteNav.Proofs.Json.AsTree
import SiteNav.Proofs.Toml.AsTree
import SiteNav.Proofs.Yaml.AsTree
import SiteNav.Proofs.DocumentTree
import SiteNav.Proofs.Toml.Order
import SiteNav.Proofs.Decoding
import SiteNav.Proofs.Document.Value
import SiteNav.Proofs.Untyped
import SiteNav.Proofs.Command.Export
import SiteNav.Proofs.Validation.Validity
import SiteNav.Proofs.Loading.Stages
import SiteNav.Proofs.Decoding.Plain
import SiteNav.Proofs.Document.Readings
import SiteNav.Proofs.Json.Trailing
import SiteNav.Proofs.Document.Order
import SiteNav.Proofs.Document.Positional
import SiteNav.Proofs.Document.Relayout
import SiteNav.Proofs.Decoding.Layout
import SiteNav.Proofs.Yaml.SingleDocument
import SiteNav.Proofs.Yaml.Growth
import SiteNav.Proofs.Yaml.Scanning.Words
import SiteNav.Proofs.Yaml.Scanning.Lines
import SiteNav.Proofs.Yaml.Documents
import SiteNav.Proofs.Validation.Findings
import SiteNav.Proofs.Text.Quoted
import SiteNav.Proofs.Validation.ReportText
import SiteNav.Proofs.Validation.Order
import SiteNav.Proofs.Command.Logging
import SiteNav.Proofs.Validation.Growth
import SiteNav.Proofs.Validation.Lookup
import SiteNav.Proofs.Discovery.Places
import SiteNav.Proofs.Discovery.Loaded
import SiteNav.Proofs.Command.Override
import SiteNav.Proofs.Command.Check
import SiteNav.Proofs.Json.FirstFlaw
import SiteNav.Proofs.Document.Blame
import SiteNav.Proofs.Extension
import SiteNav.Proofs.Json.Refusals
import SiteNav.Proofs.Links
import SiteNav.Proofs.Yaml.Refusals
import SiteNav.Proofs.Toml.KeyLines
import SiteNav.Proofs.Toml.Refusals
import SiteNav.Proofs.Decoding.FieldNames
