import SqlCatalog.FieldType
import SqlCatalog.Pipeline
import SqlCatalog.Text.Utf8.Lossless
import SqlCatalog.Proofs.Run
import SqlCatalog.Proofs.Place
import SqlCatalog.Proofs.Transition
import SqlCatalog.Proofs.Reach
import SqlCatalog.Proofs.Column.Option
import SqlCatalog.Proofs.Text.Brackets
import SqlCatalog.Proofs.Text.Words
import SqlCatalog.Proofs.Block.Clauses
import SqlCatalog.Proofs.Parse
import SqlCatalog.Proofs.Schema.RoundTrip
import SqlCatalog.Proofs.Schema.ClausedTable
import SqlCatalog.Proofs.Noise.Segment
import SqlCatalog.Proofs.Noise.LiteralText
import SqlCatalog.Proofs.Noise.CommentText
import SqlCatalog.Proofs.Noise.StrayComment
import SqlCatalog.Proofs.LetterCase.Dump
import SqlCatalog.Proofs.Layout.Dump
import SqlCatalog.Proofs.Skipped
import SqlCatalog.Proofs.Key.Spelling
import SqlCatalog.Proofs.Key.Commute
import SqlCatalog.Proofs.Key.NotNull
import SqlCatalog.Proofs.Origin
import SqlCatalog.Proofs.Column.Typed
import SqlCatalog.Proofs.Column.Modifier
import SqlCatalog.Proofs.Column.ArrayDump
import SqlCatalog.Proofs.Framing
import SqlCatalog.Proofs.Tables
import SqlCatalog.Proofs.Rejection
import SqlCatalog.Proofs.Untouched
import SqlCatalog.Proofs.Catalog.Names
import SqlCatalog.Proofs.Catalog.Lookup
import SqlCatalog.Proofs.Catalog.Survivors
import SqlCatalog.Proofs.Options.Extension
import SqlCatalog.Proofs.Text.Loose
import SqlCatalog.Proofs.Column.Zone
import SqlCatalog.Proofs.Noise.KeyName
import SqlCatalog.Proofs.Text.Canonical
import SqlCatalog.Proofs.Connection
import SqlCatalog.Proofs.Block.Region
import SqlCatalog.Proofs.Noise.Pattern
