import Joinability.Text.Token
import Joinability.Text.Occurrence
import Joinability.Side
import Joinability.Term
import Joinability.Rule.Grammar
import Joinability.Equality
import Joinability.Distance
import Joinability.Lexicon
import Joinability.Graph.Vertex
import Joinability.Graph.Edge
import Joinability.Frontier.BreadthFirst
import Joinability.Frontier.BestFirst
import Joinability.Frontier.Basic
import Joinability.Config
import Joinability.Key
import Joinability.Search.Result
import Joinability.Journal.Entry
import Joinability.Journal.Channel
import Joinability.Exploration
import Joinability.Engine.Basic
import Joinability.Engine.Evidence
import Joinability.Engine.Rules
import Joinability.Engine.Script
import Joinability.Search.Basic
import Joinability.Graph.Route
import Joinability.Search.Proof
import Joinability.Report.Summary
import Joinability.Report.Dot
import Joinability.Report.Tactics
import Joinability.Session
import Joinability.Proofs.Growth.Refusal
import Joinability.Proofs.Tokens.EditDistance
import Joinability.Proofs.Tokens.Boundary
import Joinability.Proofs.Tokens.History
import Joinability.Proofs.Rewriting.Distance
import Joinability.Proofs.Rewriting.Enumeration
import Joinability.Proofs.Rewriting.Reversal
import Joinability.Proofs.Search.Forest
import Joinability.Proofs.Search.Graph
import Joinability.Proofs.Exhaustion.Refutation
import Joinability.Proofs.BreadthFirst.Crossing
import Joinability.Proofs.BreadthFirst.Decision
import Joinability.Proofs.BreadthFirst.Depth
import Joinability.Proofs.BreadthFirst.Discovery
import Joinability.Proofs.BreadthFirst.InTurn
import Joinability.Proofs.BreadthFirst.Marks
import Joinability.Proofs.BreadthFirst.Shortest
import Joinability.Proofs.BestFirst.Closest
import Joinability.Proofs.BestFirst.Heap
import Joinability.Proofs.Exhaustion.DepthBound
import Joinability.Proofs.Exhaustion.Partition
import Joinability.Proofs.Search.AnyKey
import Joinability.Proofs.Search.Statistics
import Joinability.Proofs.Search.Sticky
import Joinability.Proofs.Search.Lazy
import Joinability.Proofs.Search.Steps
import Joinability.Proofs.Search.Salvage
import Joinability.Proofs.Report.Grammar
import Joinability.Proofs.Report.Groupoid
import Joinability.Proofs.Report.Reasons
import Joinability.Proofs.Report.Script
import Joinability.Proofs.Report.Replay
import Joinability.Proofs.Limits.Budget
import Joinability.Proofs.Limits.Longer
import Joinability.Proofs.Limits.Retry
import Joinability.Proofs.Events.Narration
import Joinability.Proofs.Report.Drawing
import Joinability.Proofs.Graph.Ascent
import Joinability.Proofs.Graph.EitherWay
