import TwinView.Batch.Disk
import TwinView.Batch.Options
import TwinView.Batch.Outputs
import TwinView.Batch.Path
import TwinView.Batch.Pattern
import TwinView.Batch.Run
import TwinView.Batch.Search
import TwinView.Client.Data
import TwinView.Client.Item
import TwinView.Client.Namespaces
import TwinView.Client.Source
import TwinView.Code.Class
import TwinView.Code.Coercion
import TwinView.Code.Expr
import TwinView.Code.Lowering
import TwinView.Code.Names
import TwinView.Code.Operators
import TwinView.Code.Primitive
import TwinView.Code.Types
import TwinView.Error
import TwinView.Java.Expression
import TwinView.Java.Literal
import TwinView.Java.Source
import TwinView.Json.Basic
import TwinView.Json.Decode
import TwinView.Json.Printer
import TwinView.Json.Reader
import TwinView.Main
import TwinView.Markup
import TwinView.Number.Double
import TwinView.Number.Shortest
import TwinView.Number.Writing
import TwinView.Proofs.Batch.Collisions
import TwinView.Proofs.Batch.Paths
import TwinView.Proofs.Batch.Schedules
import TwinView.Proofs.Batch.Writing
import TwinView.Proofs.Client.Conversion
import TwinView.Proofs.Client.Data
import TwinView.Proofs.Client.Escapes
import TwinView.Proofs.Client.Lexemes
import TwinView.Proofs.Client.Literals
import TwinView.Proofs.Client.Names
import TwinView.Proofs.Client.Namespaces
import TwinView.Proofs.Client.Normalization
import TwinView.Proofs.Client.Quoting
import TwinView.Proofs.Client.Readback
import TwinView.Proofs.Client.Trees
import TwinView.Proofs.Code.Closed
import TwinView.Proofs.Code.Compound
import TwinView.Proofs.Code.Evaluation
import TwinView.Proofs.Code.Members
import TwinView.Proofs.Code.Naming
import TwinView.Proofs.Code.Places
import TwinView.Proofs.Code.Renaming
import TwinView.Proofs.Code.Requests
import TwinView.Proofs.Code.Scoping
import TwinView.Proofs.Code.Statements
import TwinView.Proofs.Code.Subterms
import TwinView.Proofs.Code.Writes
import TwinView.Proofs.Java.Comments
import TwinView.Proofs.Java.Escapes
import TwinView.Proofs.Java.Literals
import TwinView.Proofs.Java.Lowering
import TwinView.Proofs.Java.Scripts
import TwinView.Proofs.Json.Reading
import TwinView.Proofs.Markup.Blanks
import TwinView.Proofs.Markup.Comments
import TwinView.Proofs.Markup.Normalization
import TwinView.Proofs.Markup.References
import TwinView.Proofs.Number.Integers
import TwinView.Proofs.Script.Bindings
import TwinView.Proofs.Script.Comments
import TwinView.Proofs.Script.Effects
import TwinView.Proofs.Script.Environment
import TwinView.Proofs.Script.Faces
import TwinView.Proofs.Script.Faults
import TwinView.Proofs.Script.Forms
import TwinView.Proofs.Script.Leaves
import TwinView.Proofs.Script.Leftovers
import TwinView.Proofs.Script.Lexing
import TwinView.Proofs.Script.Literals
import TwinView.Proofs.Script.Moves
import TwinView.Proofs.Script.Places
import TwinView.Proofs.Script.Refusals
import TwinView.Proofs.Script.Replay
import TwinView.Proofs.Script.Results
import TwinView.Proofs.Script.Scoping
import TwinView.Proofs.Script.Shapes
import TwinView.Proofs.Script.Similar
import TwinView.Proofs.Script.Splicing
import TwinView.Proofs.Script.Trimming
import TwinView.Proofs.Script.Typing
import TwinView.Proofs.Script.Undeclared
import TwinView.Proofs.Script.Yields
import TwinView.Proofs.Server.Additions
import TwinView.Proofs.Server.Appending
import TwinView.Proofs.Server.Calls
import TwinView.Proofs.Server.Choices
import TwinView.Proofs.Server.Closure
import TwinView.Proofs.Server.Contents
import TwinView.Proofs.Server.Deferral
import TwinView.Proofs.Server.Elements
import TwinView.Proofs.Server.Escaping
import TwinView.Proofs.Server.Execution
import TwinView.Proofs.Server.Extends
import TwinView.Proofs.Server.Fallbacks
import TwinView.Proofs.Server.Finishing
import TwinView.Proofs.Server.Flags
import TwinView.Proofs.Server.Fragments
import TwinView.Proofs.Server.Generated
import TwinView.Proofs.Server.Growth
import TwinView.Proofs.Server.Inlining
import TwinView.Proofs.Server.Loops
import TwinView.Proofs.Server.Made
import TwinView.Proofs.Server.Meaning
import TwinView.Proofs.Server.Normalization
import TwinView.Proofs.Server.Output
import TwinView.Proofs.Server.Pages
import TwinView.Proofs.Server.Placement
import TwinView.Proofs.Server.Quoting
import TwinView.Proofs.Server.Reach
import TwinView.Proofs.Server.Refinement
import TwinView.Proofs.Server.Refusals
import TwinView.Proofs.Server.Required
import TwinView.Proofs.Server.Runs
import TwinView.Proofs.Server.Scripts
import TwinView.Proofs.Server.Sealing
import TwinView.Proofs.Server.Setup
import TwinView.Proofs.Server.Statements
import TwinView.Proofs.Template.Blocks
import TwinView.Proofs.Template.Encoding
import TwinView.Proofs.Template.Literals
import TwinView.Proofs.Template.Mentions
import TwinView.Proofs.Template.Normalization
import TwinView.Proofs.Template.Parts
import TwinView.Proofs.Template.Static
import TwinView.Proofs.Template.Wrapping
import TwinView.Proofs.Text.Blanks
import TwinView.Proofs.Text.Breaks
import TwinView.Proofs.Text.CodeUnits
import TwinView.Proofs.Text.Digits
import TwinView.Proofs.Text.Infix
import TwinView.Proofs.Text.Pieces
import TwinView.Proofs.Text.Positions
import TwinView.Script.Compiled
import TwinView.Script.Parser
import TwinView.Script.Token
import TwinView.Script.Tree
import TwinView.Server.Attributes
import TwinView.Server.Builder
import TwinView.Server.Draft
import TwinView.Server.Fragment
import TwinView.Server.Source
import TwinView.Settings
import TwinView.Template.Basic
import TwinView.Template.CodeBlock
import TwinView.Template.Encoding
import TwinView.Template.Vocabulary
import TwinView.Text.Alphabetic
import TwinView.Text.Blank
import TwinView.Text.Chars
import TwinView.Text.Lowercase
import TwinView.Text.Names
import TwinView.Text.Position
import TwinView.Text.Ranges
import TwinView.Text.Word
