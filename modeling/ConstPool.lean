import ConstPool.Analysis
import ConstPool.CallGraph
import ConstPool.Constant.Key
import ConstPool.Constant.Operators
import ConstPool.Constant.Scalar
import ConstPool.Constant.Shape
import ConstPool.Constant.Value
import ConstPool.Diagnostic.Basic
import ConstPool.Diagnostic.Json
import ConstPool.Diagnostic.Text
import ConstPool.Dict
import ConstPool.Draft.Access
import ConstPool.Draft.Basic
import ConstPool.Draft.Intern
import ConstPool.Draft.Operators
import ConstPool.Draft.Same
import ConstPool.Draft.Text
import ConstPool.Eval.Body
import ConstPool.Eval.Machine
import ConstPool.Eval.Resolve
import ConstPool.Fault.Basic
import ConstPool.Fault.Message
import ConstPool.Graph.Reach
import ConstPool.Key
import ConstPool.LogLevel
import ConstPool.Memo
import ConstPool.Number.Decimal
import ConstPool.Number.Double
import ConstPool.Number.Integer
import ConstPool.Number.Rounding
import ConstPool.OrderedMap
import ConstPool.OrderedSet
import ConstPool.Pool
import ConstPool.Program.Basic
import ConstPool.Proofs.Agreement
import ConstPool.Proofs.Analysis
import ConstPool.Proofs.CallOrder
import ConstPool.Proofs.Conduct.Basic
import ConstPool.Proofs.Conduct.Body
import ConstPool.Proofs.Conduct.Resolve
import ConstPool.Proofs.Conduct.Soundness
import ConstPool.Proofs.Denotation
import ConstPool.Proofs.Draft.Access
import ConstPool.Proofs.Draft.Faults
import ConstPool.Proofs.Draft.Intern
import ConstPool.Proofs.Draft.Meaning
import ConstPool.Proofs.Draft.Operators
import ConstPool.Proofs.Draft.Same
import ConstPool.Proofs.Evaluation
import ConstPool.Proofs.Finish
import ConstPool.Proofs.Graph.Counting
import ConstPool.Proofs.Graph.Order
import ConstPool.Proofs.Graph.Recursion
import ConstPool.Proofs.Graph.Walk
import ConstPool.Proofs.History
import ConstPool.Proofs.Ladder
import ConstPool.Proofs.Layers
import ConstPool.Proofs.Memo
import ConstPool.Proofs.Nesting
import ConstPool.Proofs.OrderedMap
import ConstPool.Proofs.Pool
import ConstPool.Proofs.Program
import ConstPool.Proofs.Recovery
import ConstPool.Proofs.Reference
import ConstPool.Proofs.Reporting
import ConstPool.Proofs.Requests
import ConstPool.Proofs.Resolve
import ConstPool.Proofs.Sessions
import ConstPool.Proofs.Sharing
import ConstPool.Proofs.Simulation.Basic
import ConstPool.Proofs.Simulation.Body
import ConstPool.Proofs.Simulation.Env
import ConstPool.Proofs.Sites
import ConstPool.Proofs.Table.Encoding
import ConstPool.Proofs.Table.Exact
import ConstPool.Proofs.Table.Select
import ConstPool.Proofs.Tree.Basic
import ConstPool.Proofs.Tree.Eval
import ConstPool.Proofs.Tree.Operators
import ConstPool.Proofs.Vetting
import ConstPool.Session
import ConstPool.Settings.Basic
import ConstPool.Settings.Overrides
import ConstPool.Settings.Toml
import ConstPool.Site
import ConstPool.Span
import ConstPool.Stock
import ConstPool.Syntax.Expr
import ConstPool.Syntax.Operator
import ConstPool.Table.Basic
import ConstPool.Table.Json
import ConstPool.Table.Select
import ConstPool.Text.Blank
import ConstPool.Text.Extender
import ConstPool.Text.Json
import ConstPool.Text.Place
import ConstPool.Text.Quoted
import ConstPool.Text.Unprintable
import ConstPool.Toml.Document
import ConstPool.Toml.Token
import ConstPool.Toml.Value
import ConstPool.Uses.Basic
import ConstPool.Uses.Live
import ConstPool.Vetting
import ConstPool.Proofs.Settlement
import ConstPool.Eval.Interpretation
import ConstPool.Proofs.Interpretation.Related
import ConstPool.Proofs.Interpretation.Machines
import ConstPool.Proofs.Tree.Formed
import ConstPool.Proofs.Interpretation.Written
import ConstPool.Proofs.Record.Basic
import ConstPool.Proofs.Record.Steps
import ConstPool.Proofs.Record.Requests
import ConstPool.Proofs.Canonicity
import ConstPool.Proofs.Record.Tally
import ConstPool.Proofs.Constants
import ConstPool.Proofs.Table.Constants
import ConstPool.Proofs.Record.Posed
import ConstPool.Parallel.Task
import ConstPool.Parallel.Strand
import ConstPool.Parallel.Wave
import ConstPool.Proofs.Parallel.Deeds
import ConstPool.Proofs.Parallel.Threads
import ConstPool.Proofs.Parallel.Strands
import ConstPool.Proofs.Parallel.InTurn
import ConstPool.Proofs.Parallel.Beside
import ConstPool.Proofs.Parallel.Answers
import ConstPool.Proofs.Parallel.Account
import ConstPool.Proofs.Parallel.Schedule
import ConstPool.Proofs.Parallel.Waves
import ConstPool.Proofs.Parallel.Sessions
import ConstPool.Proofs.Batches
import ConstPool.Proofs.Course.Basic
import ConstPool.Proofs.Course.Related
import ConstPool.Proofs.Course.Resolve
import ConstPool.Proofs.Termination
import ConstPool.Proofs.Arithmetic
import ConstPool.Proofs.Draft.Made
import ConstPool.Proofs.Draft.Interchange
import ConstPool.Proofs.Making
import ConstPool.Proofs.Maps
import ConstPool.Proofs.Heights
import ConstPool.Proofs.Graph.Search
import ConstPool.Proofs.Recursion
import ConstPool.Proofs.Budget
import ConstPool.Proofs.Escape.Basic
import ConstPool.Proofs.Escape.Run
import ConstPool.Proofs.Graph.Breadth
import ConstPool.Proofs.Reachability
import ConstPool.Proofs.Interning
import ConstPool.Proofs.Journal.Basic
import ConstPool.Proofs.Journal.Run
import ConstPool.Proofs.Journal.Answers
import ConstPool.Proofs.Journal.Law
import ConstPool.Proofs.Occurrences
import ConstPool.Proofs.Sequences
import ConstPool.Proofs.Objects
import ConstPool.Proofs.Visits
import ConstPool.Proofs.Descent
import ConstPool.Proofs.Clients
import ConstPool.Proofs.Reentry
import ConstPool.Proofs.Registry
import ConstPool.Proofs.Text.Json
import ConstPool.Proofs.Table.Json
import ConstPool.Proofs.Toml.Reader
import ConstPool.Proofs.Toml.Section
import ConstPool.Proofs.Settings
import ConstPool.Proofs.Scopes.Basic
import ConstPool.Proofs.Scopes.Run
import ConstPool.Proofs.Scopes.Discipline
