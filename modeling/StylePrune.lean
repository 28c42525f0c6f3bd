import StylePrune.Backup
import StylePrune.Command.Arguments
import StylePrune.Command.Option
import StylePrune.Command.Scan
import StylePrune.Command.Summary
import StylePrune.Command.Usage
import StylePrune.Command.Watch
import StylePrune.Css.Component
import StylePrune.Css.Lexer
import StylePrune.Css.Minify
import StylePrune.Css.Prune
import StylePrune.Css.Reader
import StylePrune.Css.Rule
import StylePrune.Css.Serialize
import StylePrune.Css.Sheet
import StylePrune.Css.Token
import StylePrune.Disk
import StylePrune.Generation
import StylePrune.Html.Page
import StylePrune.Html.Query
import StylePrune.Html.Reference
import StylePrune.Html.Tag
import StylePrune.Json
import StylePrune.Json.Reader
import StylePrune.Json.Writer
import StylePrune.Ledger
import StylePrune.Ledger.Merge
import StylePrune.Ledger.Store
import StylePrune.Main
import StylePrune.Number
import StylePrune.Number.Limit
import StylePrune.Path
import StylePrune.Proofs.Access
import StylePrune.Proofs.Accounting
import StylePrune.Proofs.Backup
import StylePrune.Proofs.Bundle
import StylePrune.Proofs.Confinement
import StylePrune.Proofs.Contention
import StylePrune.Proofs.Coverage
import StylePrune.Proofs.Css.Braces
import StylePrune.Proofs.Css.Cleaning
import StylePrune.Proofs.Css.Combinators
import StylePrune.Proofs.Css.Extents
import StylePrune.Proofs.Css.Faithful
import StylePrune.Proofs.Css.Leaves
import StylePrune.Proofs.Css.Marks
import StylePrune.Proofs.Css.Nesting
import StylePrune.Proofs.Css.Offsets
import StylePrune.Proofs.Css.Origin
import StylePrune.Proofs.Css.Outline
import StylePrune.Proofs.Css.Places
import StylePrune.Proofs.Css.Prelude
import StylePrune.Proofs.Css.Prune
import StylePrune.Proofs.Css.Reminifying
import StylePrune.Proofs.Css.Rendering
import StylePrune.Proofs.Css.Rereading
import StylePrune.Proofs.Css.Rules
import StylePrune.Proofs.Css.Scanning
import StylePrune.Proofs.Css.Shape
import StylePrune.Proofs.Css.Slices
import StylePrune.Proofs.Css.Spans
import StylePrune.Proofs.Css.Thinning
import StylePrune.Proofs.Css.Tokens
import StylePrune.Proofs.Css.Trees
import StylePrune.Proofs.Css.Trimming
import StylePrune.Proofs.Disk.Following
import StylePrune.Proofs.Disk.Hosting
import StylePrune.Proofs.Disk.Links
import StylePrune.Proofs.Disk.Reading
import StylePrune.Proofs.Disk.Repeating
import StylePrune.Proofs.Disk.Settling
import StylePrune.Proofs.Disk.Sharing
import StylePrune.Proofs.Disk.Staging
import StylePrune.Proofs.Disk.Straight
import StylePrune.Proofs.Disk.Writing
import StylePrune.Proofs.Failure
import StylePrune.Proofs.Idempotence
import StylePrune.Proofs.Interleaving
import StylePrune.Proofs.Json
import StylePrune.Proofs.Json.Grammar
import StylePrune.Proofs.Json.Reading
import StylePrune.Proofs.Keys
import StylePrune.Proofs.Ledger.Deletion
import StylePrune.Proofs.Ledger.Evidence
import StylePrune.Proofs.Ledger.Format
import StylePrune.Proofs.Ledger.History
import StylePrune.Proofs.Ledger.Order
import StylePrune.Proofs.Ledger.Remerging
import StylePrune.Proofs.Ledger.Seeding
import StylePrune.Proofs.Ledger.Stored
import StylePrune.Proofs.Ledger.WellFormed
import StylePrune.Proofs.Naming
import StylePrune.Proofs.Originals
import StylePrune.Proofs.Output
import StylePrune.Proofs.Reachable
import StylePrune.Proofs.Refusal
import StylePrune.Proofs.Relocation
import StylePrune.Proofs.Repetition
import StylePrune.Proofs.Replacement
import StylePrune.Proofs.Sampling.Agreement
import StylePrune.Proofs.Sampling.Chains
import StylePrune.Proofs.Sampling.Coalescing
import StylePrune.Proofs.Sampling.Ending
import StylePrune.Proofs.Sampling.Exploring
import StylePrune.Proofs.Sampling.Guard
import StylePrune.Proofs.Sampling.Omission
import StylePrune.Proofs.Sampling.Stretches
import StylePrune.Proofs.Sampling.Survival
import StylePrune.Proofs.Sampling.Ticking
import StylePrune.Proofs.Sampling.Ticks
import StylePrune.Proofs.Savings
import StylePrune.Proofs.Selector
import StylePrune.Proofs.Separation
import StylePrune.Proofs.Server
import StylePrune.Proofs.Text
import StylePrune.Report
import StylePrune.Sampling.Collection
import StylePrune.Sampling.Delivery
import StylePrune.Sampling.Duplicates
import StylePrune.Sampling.Loader
import StylePrune.Sampling.Record
import StylePrune.Sampling.Reference
import StylePrune.Sampling.Sampler
import StylePrune.Sampling.Timing
import StylePrune.Selector
import StylePrune.Server.Endpoint
import StylePrune.Server.Limit
import StylePrune.Server.Listener
import StylePrune.Server.Request
import StylePrune.Service
import StylePrune.Settings.Basic
import StylePrune.Settings.Environment
import StylePrune.Settings.Startup
import StylePrune.Site
import StylePrune.SourceKey
import StylePrune.Table
import StylePrune.Text.Basic
import StylePrune.Text.Blank
import StylePrune.Text.CodePoint
import StylePrune.Text.Digit
import StylePrune.Text.Encoding
import StylePrune.Text.Lowercase
import StylePrune.Text.Newline
import StylePrune.Text.Printable
import StylePrune.Text.Quoted
import StylePrune.Text.Utf8
import StylePrune.Url
import StylePrune.Url.Host
