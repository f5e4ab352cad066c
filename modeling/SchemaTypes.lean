import SchemaTypes.Code.Block
import SchemaTypes.Code.Buffer
import SchemaTypes.Code.RuntimeStub
import SchemaTypes.Code.SourceFile
import SchemaTypes.Code.TypeLayer
import SchemaTypes.Command.Report
import SchemaTypes.Command.Request
import SchemaTypes.Command.Run
import SchemaTypes.CompileError
import SchemaTypes.Config
import SchemaTypes.Declaration.Basic
import SchemaTypes.Declaration.Layout
import SchemaTypes.Diagnostic
import SchemaTypes.Files.Compile
import SchemaTypes.Files.Host
import SchemaTypes.Files.Tree
import SchemaTypes.Json.Document
import SchemaTypes.Json.Double
import SchemaTypes.Json.Number
import SchemaTypes.Json.Reader
import SchemaTypes.Json.Shortest
import SchemaTypes.Json.Value
import SchemaTypes.Library.BaseRuntime
import SchemaTypes.Library.BaseTypes
import SchemaTypes.Library.Basic
import SchemaTypes.Library.Hana
import SchemaTypes.Main
import SchemaTypes.Model.Alias
import SchemaTypes.Model.Basic
import SchemaTypes.Model.Definition
import SchemaTypes.Model.Draft
import SchemaTypes.Model.Keys
import SchemaTypes.Model.Name
import SchemaTypes.Model.Reader
import SchemaTypes.Naming.Identifier
import SchemaTypes.Naming.Inflection
import SchemaTypes.Path.Basic
import SchemaTypes.Path.Directory
import SchemaTypes.Plan.Basic
import SchemaTypes.Plan.Emission
import SchemaTypes.Plan.Operation
import SchemaTypes.Plan.Output
import SchemaTypes.Plan.Session
import SchemaTypes.Plan.SourceTable
import SchemaTypes.Plan.Structure
import SchemaTypes.Proofs.Access.KeyMarker
import SchemaTypes.Proofs.Access.Layout
import SchemaTypes.Proofs.Access.Leaves
import SchemaTypes.Proofs.Access.Members
import SchemaTypes.Proofs.Access.Paths
import SchemaTypes.Proofs.Access.References
import SchemaTypes.Proofs.Aliases
import SchemaTypes.Proofs.ClassBody
import SchemaTypes.Proofs.Code.Constants
import SchemaTypes.Proofs.Code.Contents
import SchemaTypes.Proofs.Code.Declared
import SchemaTypes.Proofs.Code.Extension
import SchemaTypes.Proofs.Code.Fault
import SchemaTypes.Proofs.Code.Printing
import SchemaTypes.Proofs.Code.SourceFile
import SchemaTypes.Proofs.Code.SourceTable
import SchemaTypes.Proofs.Code.Store
import SchemaTypes.Proofs.Comments
import SchemaTypes.Proofs.Context.BoundResult
import SchemaTypes.Proofs.Context.Marks
import SchemaTypes.Proofs.Context.Moments
import SchemaTypes.Proofs.Context.SelfMarker
import SchemaTypes.Proofs.Declaration
import SchemaTypes.Proofs.Draft.Collection
import SchemaTypes.Proofs.Draft.Walk
import SchemaTypes.Proofs.Files.Below
import SchemaTypes.Proofs.Files.Directories
import SchemaTypes.Proofs.Files.Map
import SchemaTypes.Proofs.Findings
import SchemaTypes.Proofs.ForeignKeys
import SchemaTypes.Proofs.Frame
import SchemaTypes.Proofs.Imports.Listing
import SchemaTypes.Proofs.Imports.Resolution
import SchemaTypes.Proofs.Imports.Specifiers
import SchemaTypes.Proofs.Inheritance
import SchemaTypes.Proofs.Keys.Bounds
import SchemaTypes.Proofs.Keys.Closure
import SchemaTypes.Proofs.Keys.Consistency
import SchemaTypes.Proofs.Keys.Elements
import SchemaTypes.Proofs.Keys.History
import SchemaTypes.Proofs.Keys.Memo
import SchemaTypes.Proofs.Keys.Query
import SchemaTypes.Proofs.Keys.Stated
import SchemaTypes.Proofs.Lineage
import SchemaTypes.Proofs.Lines
import SchemaTypes.Proofs.Literals.Constants
import SchemaTypes.Proofs.Literals.Reading
import SchemaTypes.Proofs.Name
import SchemaTypes.Proofs.Names.Bindable
import SchemaTypes.Proofs.Names.Classes
import SchemaTypes.Proofs.Names.Collisions
import SchemaTypes.Proofs.Names.Decomposition
import SchemaTypes.Proofs.Names.Elements
import SchemaTypes.Proofs.Names.Endings
import SchemaTypes.Proofs.Names.Enums
import SchemaTypes.Proofs.Names.Inflection
import SchemaTypes.Proofs.Names.Plurals
import SchemaTypes.Proofs.Names.Properties
import SchemaTypes.Proofs.Names.Sanitized
import SchemaTypes.Proofs.Names.Statics
import SchemaTypes.Proofs.Names.Variables
import SchemaTypes.Proofs.Nesting
import SchemaTypes.Proofs.Options.Compile
import SchemaTypes.Proofs.Options.Layout
import SchemaTypes.Proofs.Outcome
import SchemaTypes.Proofs.Path
import SchemaTypes.Proofs.Precedence
import SchemaTypes.Proofs.References.Basic
import SchemaTypes.Proofs.References.Closed
import SchemaTypes.Proofs.References.Emission
import SchemaTypes.Proofs.References.Resolution
import SchemaTypes.Proofs.References.Step
import SchemaTypes.Proofs.References.Written
import SchemaTypes.Proofs.Registry
import SchemaTypes.Proofs.Safety
import SchemaTypes.Proofs.Services
import SchemaTypes.Proofs.Shown
import SchemaTypes.Proofs.Stub.Aliases
import SchemaTypes.Proofs.Stub.Constants
import SchemaTypes.Proofs.Stub.Parents
import SchemaTypes.Proofs.Stub.Reading
import SchemaTypes.Proofs.Stub.Statements
import SchemaTypes.Proofs.Table
import SchemaTypes.Proofs.Text
import SchemaTypes.Proofs.Visit
import SchemaTypes.Table
import SchemaTypes.Text.Alphabetic
import SchemaTypes.Text.Blank
import SchemaTypes.Text.Lines
import SchemaTypes.Text.Numeric
import SchemaTypes.Text.Ranges
import SchemaTypes.Text.Split
import SchemaTypes.Types.Builtin
import SchemaTypes.Types.Info
import SchemaTypes.Types.Literal
import SchemaTypes.Types.Property
import SchemaTypes.Types.Resolution
import SchemaTypes.Types.Resolver
