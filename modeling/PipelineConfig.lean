import PipelineConfig.Binary64.Basic
import PipelineConfig.Binary64.Shortest
import PipelineConfig.Binary64.Spelling
import PipelineConfig.Catalog.Basic
import PipelineConfig.Catalog.Builtin
import PipelineConfig.Catalog.Builtin.Fields
import PipelineConfig.Catalog.Builtin.Operators
import PipelineConfig.Catalog.Builtin.Sinks
import PipelineConfig.Catalog.Builtin.Sources
import PipelineConfig.Catalog.Category
import PipelineConfig.Catalog.CategoryText
import PipelineConfig.Catalog.Error
import PipelineConfig.Json.Basic
import PipelineConfig.Json.Complaint
import PipelineConfig.Json.Numeral
import PipelineConfig.Json.Parse
import PipelineConfig.Json.Quoted
import PipelineConfig.Json.Reader
import PipelineConfig.Json.Record
import PipelineConfig.Json.Skip
import PipelineConfig.Json.Text
import PipelineConfig.Log.Event
import PipelineConfig.Log.Level
import PipelineConfig.Log.Record
import PipelineConfig.Main
import PipelineConfig.Proofs.Idempotence
import PipelineConfig.Proofs.Members
import PipelineConfig.Proofs.Revalidation
import PipelineConfig.Proofs.Schemas
import PipelineConfig.Proofs.Values
import PipelineConfig.Proofs.Walk
import PipelineConfig.Proofs.WiderLimits
import PipelineConfig.Schema.Attribute
import PipelineConfig.Schema.Basic
import PipelineConfig.Schema.Build
import PipelineConfig.Schema.Dialect
import PipelineConfig.Text.Blank
import PipelineConfig.Text.Quoted
import PipelineConfig.Text.Unshown
import PipelineConfig.Tool.Arguments
import PipelineConfig.Tool.Config
import PipelineConfig.Tool.Document
import PipelineConfig.Tool.Error
import PipelineConfig.Tool.Host
import PipelineConfig.Tool.Inputs
import PipelineConfig.Tool.Process
import PipelineConfig.Tool.Session
import PipelineConfig.Tool.Workdir
import PipelineConfig.Validation.Checked
import PipelineConfig.Validation.Examine
import PipelineConfig.Validation.Limits
import PipelineConfig.Validation.LimitsText
import PipelineConfig.Validation.Path
import PipelineConfig.Validation.Report
import PipelineConfig.Validation.Violation
import PipelineConfig.Proofs.Defects
import PipelineConfig.Proofs.Catalogs
import PipelineConfig.Proofs.ChargedDefaults
import PipelineConfig.Proofs.SoundDefaults
import PipelineConfig.Proofs.Parsing
import PipelineConfig.Proofs.Additions
import PipelineConfig.Proofs.BoundedCandidates
import PipelineConfig.Proofs.Redefinition
import PipelineConfig.Proofs.IntegerBounds
import PipelineConfig.Proofs.Attributes
import PipelineConfig.Proofs.Dialect
import PipelineConfig.Proofs.SoundCatalogs
import PipelineConfig.Proofs.Lines
import PipelineConfig.Proofs.Sessions
import PipelineConfig.Proofs.Composition
import PipelineConfig.Proofs.InvertedBounds
import PipelineConfig.Proofs.RecordedDefaults
import PipelineConfig.Proofs.Removal
import PipelineConfig.Proofs.Independence
import PipelineConfig.Proofs.ClearedFields
import PipelineConfig.Proofs.Rearrangement
import PipelineConfig.Proofs.KeyOrder
import PipelineConfig.Proofs.Rereading
import PipelineConfig.Proofs.BuiltNodes
import PipelineConfig.Proofs.ByteOrder
import PipelineConfig.Proofs.QuotedTexts
import PipelineConfig.Proofs.WrittenContainers
import PipelineConfig.Proofs.NumberTexts
import PipelineConfig.Proofs.WrittenValues
import PipelineConfig.Proofs.Envelopes
import PipelineConfig.Proofs.LogRecords
import PipelineConfig.Proofs.Service
import PipelineConfig.Proofs.Repeats
import PipelineConfig.Proofs.DistinctElements
