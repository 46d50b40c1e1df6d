import Codemod.Fault
import Codemod.Text.Point
import Codemod.Tree.Kind
import Codemod.Tree.Node
import Codemod.Parse.Lexeme
import Codemod.Parse.Progress
import Codemod.Parse.Target
import Codemod.Parse.Step
import Codemod.Parse.Literal
import Codemod.Parse.Pattern
import Codemod.Parse.Expression
import Codemod.Parse.Statement
import Codemod.Parse.Source
import Codemod.Text.Class
import Codemod.Text.Quoted
import Codemod.Text.Escape
import Codemod.Tree.Cursor
import Codemod.Tree.Expression
import Codemod.Analysis.Scope
import Codemod.Analysis.Alias
import Codemod.Analysis.Wrapper
import Codemod.Analysis.Chain
import Codemod.Analysis.Fold
import Codemod.Analysis.Evidence
import Codemod.Analysis.Comparison
import Codemod.Tree.Build
import Codemod.Tree.Workspace
import Codemod.Rule.Basic
import Codemod.Rule.Receiver
import Codemod.Rule.Callback
import Codemod.Rule.Display
import Codemod.Rule.ClassList
import Codemod.Rule.Attribute
import Codemod.Rule.Event
import Codemod.Rule.Traversal
import Codemod.Rule.Insertion
import Codemod.Rule.Collection
import Codemod.Rule.Selector
import Codemod.Rule.Idiom
import Codemod.Rule.Registry
import Codemod.Engine
import Codemod.Edit.Move
import Codemod.Edit.Session
import Codemod.Edit.Recipe
import Codemod.Edit.Step
import Codemod.Inspect
import Codemod.Document.Value
import Codemod.Document.Json
import Codemod.Document.Yaml.Scalar
import Codemod.Document.Yaml.Reader
import Codemod.Document.Yaml.Writer
import Codemod.Text.Utf8
import Codemod.Files.Path
import Codemod.Files.Store
import Codemod.Files.Glob
import Codemod.Config.Settings
import Codemod.Config.Check
import Codemod.Config.Environment
import Codemod.Config.Source
import Codemod.Diff.Script
import Codemod.Diff.Unified
import Codemod.Files.Discovery
import Codemod.Batch.Outcome
import Codemod.Batch.Run
import Codemod.CommandLine.Option
import Codemod.CommandLine.Invocation
import Codemod.CommandLine.Console
import Codemod.CommandLine.Run
import Codemod.Main
import Codemod.Proofs.Tree.Position
import Codemod.Proofs.Tree.Reach
import Codemod.Proofs.Scope.Lexical
import Codemod.Proofs.Scope.Attribution
import Codemod.Proofs.Scope.Extent
import Codemod.Proofs.Scope.Resolution
import Codemod.Proofs.Tree.Identity
import Codemod.Proofs.Tree.Shape
import Codemod.Proofs.Effect.Call
import Codemod.Proofs.Tree.Splice
import Codemod.Proofs.Effect.Rewrite
import Codemod.Proofs.Effect.Element
import Codemod.Proofs.Effect.Callback
import Codemod.Proofs.Effect.Factory
import Codemod.Proofs.Effect.Comparison
import Codemod.Proofs.Effect.Step
import Codemod.Proofs.Effect.Conservation
import Codemod.Proofs.Engine.Convergence
import Codemod.Proofs.Tree.Print
import Codemod.Proofs.Parse.Program
import Codemod.Proofs.Parse.Lossless
import Codemod.Proofs.Wrapper.Element
import Codemod.Proofs.Batch.Containment
import Codemod.Proofs.Rule.Form
import Codemod.Proofs.Rule.Run
import Codemod.Proofs.Rule.Parts
import Codemod.Proofs.Tree.Forest
import Codemod.Proofs.Rule.Attachment
import Codemod.Proofs.Wrapper.Live
import Codemod.Proofs.Wrapper.Dynamic
import Codemod.Proofs.Wrapper.Uses
import Codemod.Proofs.Diff.Line
import Codemod.Proofs.Diff.Script
import Codemod.Proofs.Diff.Patch
import Codemod.Proofs.Diff.Applicable
import Codemod.Proofs.Comment.Tree
import Codemod.Proofs.Comment.Order
import Codemod.Proofs.Comment.Survival
import Codemod.Proofs.Rule.Alike
import Codemod.Proofs.Rule.Measure
import Codemod.Proofs.Rule.Spending
import Codemod.Proofs.Text.Utf8
import Codemod.Proofs.Files.Content
import Codemod.Proofs.Files.Finding
import Codemod.Proofs.Batch.Isolation
import Codemod.Proofs.Batch.Pool
import Codemod.Proofs.Tree.Unified
import Codemod.Proofs.Rule.Unified
import Codemod.Proofs.Config.Settings
import Codemod.Proofs.Batch.Modes
import Codemod.Proofs.Batch.Newline
import Codemod.Proofs.Rule.Balance
import Codemod.Proofs.Rule.Scopes
import Codemod.Proofs.Rule.Callers
import Codemod.Proofs.Scope.Insertion
import Codemod.Proofs.Wrapper.Chain
import Codemod.Proofs.Wrapper.Injection
import Codemod.Proofs.Rule.Aliased
import Codemod.Proofs.Rule.Surroundings
import Codemod.Proofs.Rule.Trade
import Codemod.Proofs.Rule.Keeping
import Codemod.Proofs.Rule.Termination
import Codemod.Proofs.Scope.Owner
import Codemod.Proofs.Wrapper.Parameter
import Codemod.Proofs.Rule.Slot
import Codemod.Proofs.Rule.Naming
import Codemod.Proofs.Text.Literal
import Codemod.Proofs.Tree.Literal
import Codemod.Proofs.Parse.Literal
import Codemod.Proofs.Parse.Value
import Codemod.Proofs.Rule.Steady
import Codemod.Proofs.Rule.OptionalChain
import Codemod.Proofs.Rule.Listener
import Codemod.Proofs.Text.Numeral
import Codemod.Proofs.Tree.Integer
import Codemod.Proofs.Rule.Presence
import Codemod.Proofs.Parse.Number
import Codemod.Proofs.Rule.Idiom
import Codemod.Proofs.Rule.Integer
import Codemod.Proofs.Rule.Evaluation
import Codemod.Proofs.Rule.StringIdiom
import Codemod.Proofs.Parse.Word
import Codemod.Proofs.Rule.NameGate
import Codemod.Proofs.Text.Run
import Codemod.Proofs.Rule.ClassName
import Codemod.Proofs.Tree.Replacement
import Codemod.Proofs.Rule.Outcome
import Codemod.Proofs.Rule.Density
import Codemod.Proofs.Config.Use
import Codemod.Proofs.Parse.Ahead
import Codemod.Proofs.Parse.Spelling
import Codemod.Proofs.Parse.Mirror
import Codemod.Proofs.Parse.Quoted
import Codemod.Proofs.Parse.Climb
import Codemod.Proofs.Build.Chars
import Codemod.Proofs.Build.Reads
import Codemod.Proofs.Build.Atoms
import Codemod.Proofs.Build.Rows
import Codemod.Proofs.Build.Tries
import Codemod.Proofs.Build.Accesses
import Codemod.Proofs.Build.Literals
import Codemod.Proofs.Build.Operators
import Codemod.Proofs.Build.Arrows
import Codemod.Proofs.Build.Reading
import Codemod.Proofs.Files.Discovery
import Codemod.Proofs.Tree.Order
import Codemod.Proofs.Scope.Pattern
import Codemod.Proofs.Wrapper.Outward
