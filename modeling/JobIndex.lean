import JobIndex.Cache.Format
import JobIndex.Cache.Store
import JobIndex.Command.Answer
import JobIndex.Command.Arguments
import JobIndex.Command.Run
import JobIndex.Config
import JobIndex.Decimal.Shortest
import JobIndex.Diagnostic
import JobIndex.Glob.LastName
import JobIndex.Glob.Matching
import JobIndex.Glob.Pattern
import JobIndex.Glob.Shape
import JobIndex.Index.Inheritance
import JobIndex.Index.Jobs
import JobIndex.Index.State
import JobIndex.Index.Table
import JobIndex.Index.Templates
import JobIndex.Json.Fault
import JobIndex.Json.Reader
import JobIndex.Json.Value
import JobIndex.Location
import JobIndex.Main
import JobIndex.Path
import JobIndex.Proofs.Path
import JobIndex.Proofs.Table
import JobIndex.Query.Hierarchy
import JobIndex.Query.Reference
import JobIndex.Query.Variable
import JobIndex.Record.Attribute
import JobIndex.Record.Document
import JobIndex.Record.Job
import JobIndex.Record.Reading
import JobIndex.Record.Template
import JobIndex.Text.Line
import JobIndex.Text.Quoted
import JobIndex.Text.Shape
import JobIndex.Text.Utf8
import JobIndex.Text.White
import JobIndex.Workspace.Discovery
import JobIndex.Workspace.FileNode
import JobIndex.Workspace.FileTree
import JobIndex.Workspace.Ignore
import JobIndex.Workspace.Indexer
import JobIndex.Workspace.Time
import JobIndex.Yaml.Char
import JobIndex.Yaml.Closing
import JobIndex.Yaml.Event
import JobIndex.Yaml.Event.Grammar
import JobIndex.Yaml.Fault
import JobIndex.Yaml.Token
import JobIndex.Yaml.Token.BlockScalar
import JobIndex.Yaml.Token.Directive
import JobIndex.Yaml.Token.PlainScalar
import JobIndex.Yaml.Token.QuotedScalar
import JobIndex.Yaml.Token.Scanner
import JobIndex.Yaml.Token.Separator
import JobIndex.Yaml.Token.Stream
import JobIndex.Yaml.Value
import JobIndex.Proofs.Index.JobLog
import JobIndex.Proofs.Index.Ancestors
import JobIndex.Proofs.Index.Resolution
import JobIndex.Proofs.Text.Lines
import JobIndex.Proofs.Record.Locations
import JobIndex.Proofs.Index.TemplateLog
import JobIndex.Proofs.Index.StateLog
import JobIndex.Proofs.Workspace.FullPass
import JobIndex.Proofs.Workspace.Search
import JobIndex.Proofs.Text.Utf8
import JobIndex.Proofs.Cache.Format
import JobIndex.Proofs.Cache.Store
import JobIndex.Proofs.Workspace.FileTree
import JobIndex.Proofs.Query.Descendants
import JobIndex.Proofs.Yaml.Nesting
import JobIndex.Proofs.Record.Values
import JobIndex.Proofs.Record.Spelling
import JobIndex.Proofs.Index.Spelling
import JobIndex.Proofs.Record.Fits
import JobIndex.Proofs.Cache.Recall
import JobIndex.Proofs.Workspace.Transparency
import JobIndex.Proofs.Cache.Canonical
import JobIndex.Proofs.Index.References
import JobIndex.Proofs.Cache.Damage
import JobIndex.Proofs.Workspace.Tracking
import JobIndex.Proofs.Index.Agreement
import JobIndex.Proofs.Workspace.Convergence
import JobIndex.Proofs.Workspace.Rebuild
import JobIndex.Proofs.Workspace.Retagging
import JobIndex.Proofs.Index.History
import JobIndex.Proofs.Index.Reindexing
import JobIndex.Proofs.Query.Renaming
import JobIndex.Proofs.Index.Lineage
import JobIndex.Proofs.Query.EditOrder
import JobIndex.Proofs.Workspace.Admission
import JobIndex.Proofs.Yaml.Tree
import JobIndex.Proofs.Yaml.Documents
import JobIndex.Proofs.Record.Collected
import JobIndex.Proofs.Record.Scopes
import JobIndex.Proofs.Record.KeyedLocations
import JobIndex.Proofs.Record.LeafLocations
import JobIndex.Proofs.Yaml.Sealing
import JobIndex.Proofs.Index.Commutation
import JobIndex.Proofs.Query.Variables
import JobIndex.Proofs.Index.OwnValues
import JobIndex.Proofs.Record.JobLists
import JobIndex.Proofs.Record.FirstFit
import JobIndex.Proofs.Record.Leaves
import JobIndex.Proofs.Text.ByteOrder
import JobIndex.Proofs.Index.ShortNames
import JobIndex.Proofs.Command.References
import JobIndex.Proofs.Glob.Shape
import JobIndex.Proofs.Glob.Directory
import JobIndex.Proofs.Workspace.RelativePath
import JobIndex.Proofs.Workspace.Seclusion
import JobIndex.Proofs.Workspace.CacheDirectory
import JobIndex.Proofs.Record.FirstMentions
import JobIndex.Proofs.Cache.Expiry
