import Joinability.Frontier.Basic
import Joinability.Graph.Edge
import Joinability.Graph.Vertex
import Joinability.Rule.Basic
import Joinability.Search.Result

/-!
# The journal

Every operation of a search reports what it did as entries of a journal. Two readers draw on them.

* The *trace* prints one line per entry.
* *Observers* are notified of the events behind some of the entries: the start and the end of a
  search, every vertex and edge that is added, every reduct that was known on its side, and every
  vertex whose reducts have all been tried.

The entries of an operation never influence it, so laws about the search need not mention them.
-/

namespace Joinability

variable {α : Type}

/-- What observers are notified of. -/
inductive Event (α : Type) where
  /-- A search has started from these roots. -/
  | started (left right : Vertex α)
  /-- A vertex was added. -/
  | vertexAdded (vertex : Vertex α)
  /-- An edge was added. -/
  | edgeAdded (arc : Arc)
  /-- A reduct of `source` was a vertex of the same side. -/
  | duplicateDiscarded (source existing : Vertex α) (use : RuleUse)
  /-- Every reduct of the vertex has been tried. -/
  | vertexExhausted (vertex : Vertex α)
  /-- The search has ended, with a proof of the given length if it was successful. -/
  | finished (status : Status) (proofLength : Nat)
deriving DecidableEq, Repr

/-- What an operation of a search has done. -/
inductive Entry (α : Type) where
  /-- A rule was added with this index. -/
  | ruleAdded (index : Nat) (rule : Rule)
  /-- The two sides of the goal have the same canonical key. -/
  | sidesAgree (lhs rhs : Term α)
  /-- The roots were created. -/
  | rootsCreated (left right : Vertex α) (strategy : Strategy)
  /-- A search was started with these limits. -/
  | searchStarted (maxDepth maxSteps : Nat) (strategy : Strategy) (left right : Vertex α)
  /-- A vertex was passed over because it has been visited. -/
  | visitedSkipped (vertex : Nat)
  /-- The frontier gave up `count` vertices below the depth bound. -/
  | levelsCut (maxDepth count : Nat)
  /-- The budget was found spent after this many steps. -/
  | budgetSpent (steps : Nat)
  /-- No vertex was left to expand. -/
  | frontierExhausted (depth : Nat) (cut : Bool)
  /-- Every reduct of the vertex has been tried. -/
  | vertexExhausted (vertex : Vertex α)
  /-- A reduct was a vertex of the other side. -/
  | sidesMet (source target : Vertex α) (arc : Arc)
  /-- A reduct was a vertex of the same side. -/
  | duplicateDiscarded (source existing : Vertex α) (use : RuleUse)
  /-- A reduct became a new vertex. -/
  | vertexAdded (vertex : Vertex α) (arc : Arc)
  /-- A proof was built with this many steps on either side. -/
  | proofBuilt (leftSteps rightSteps : Nat)
  /-- The search has ended. -/
  | searchFinished (status : Status) (proofLength steps : Nat)
deriving DecidableEq, Repr

namespace Entry

/-- The roots of a goal whose sides agree. They belong to no table. -/
private def looseRoots (lhs rhs : Term α) : Vertex α × Vertex α :=
  ({ id := Side.left.root, term := lhs, isRoot := true, side := .left },
   { id := Side.right.root, term := rhs, isRoot := true, side := .right })

/-- The events behind an entry, in order. -/
def events : Entry α → List (Event α)
  | sidesAgree lhs rhs => let (left, right) := looseRoots lhs rhs; [.started left right]
  | searchStarted _ _ _ left right => [.started left right]
  | vertexExhausted v => [.vertexExhausted v]
  | sidesMet _ _ arc => [.edgeAdded arc]
  | duplicateDiscarded source existing use => [.duplicateDiscarded source existing use]
  | vertexAdded v arc => [.vertexAdded v, .edgeAdded arc]
  | searchFinished status proofLength _ => [.finished status proofLength]
  | ruleAdded .. | rootsCreated .. | visitedSkipped .. | levelsCut .. | budgetSpent ..
  | frontierExhausted .. | proofBuilt .. => []

/-- A text as the trace shows it, which ends before a zero byte. -/
private def shown (t : Text) : Text := t.untilNul

/-- A text between quotation marks as the trace shows it. -/
private def shownQuoted (t : Text) : Text := (shown t).quoted

/-- The line that the trace prints for an entry. -/
def line : Entry α → Text
  | ruleAdded index r =>
    utf8 "Adding rule " ++ decimal index ++ utf8 ": " ++ shown r.name ++ utf8 " : " ++
      shown r.lhs ++ utf8 (if r.symmetric then " = " else " => ") ++ shown r.rhs
  | sidesAgree lhs _ => utf8 "Goal sides already agree: " ++ shownQuoted lhs.pretty
  | rootsCreated left right strategy =>
    utf8 "Search initialised: lhs " ++ shownQuoted left.pretty ++
      utf8 " (" ++ decimal left.tokens.length ++ utf8 " tokens), rhs " ++
      shownQuoted right.pretty ++ utf8 " (" ++ decimal right.tokens.length ++
      utf8 " tokens), strategy " ++ strategy.name
  | searchStarted maxDepth maxSteps strategy _ _ =>
    utf8 "Search started: max_depth " ++ decimal maxDepth ++ utf8 ", max_steps " ++
      decimal maxSteps ++ utf8 ", strategy " ++ strategy.name
  | visitedSkipped v => utf8 "Skipping visited vertex " ++ decimal v
  | levelsCut maxDepth count =>
    utf8 "BFS depth limit " ++ decimal maxDepth ++ utf8 " reached with " ++ decimal count ++
      utf8 " vertices left unexpanded"
  | budgetSpent steps => utf8 "Budget exceeded after " ++ decimal steps ++ utf8 " steps"
  | frontierExhausted depth cut =>
    utf8 "Frontier exhausted at depth " ++ decimal depth ++
      utf8 (if cut then " (depth limit)" else "")
  | vertexExhausted v =>
    utf8 "Vertex " ++ decimal v.id ++ utf8 " exhausted: " ++ shownQuoted v.pretty
  | sidesMet source target arc =>
    utf8 "Sides met: vertex " ++ decimal source.id ++ utf8 " (" ++ source.side.name ++
      utf8 ") -> vertex " ++ decimal target.id ++ utf8 " (" ++ target.side.name ++
      utf8 ") via " ++ shownQuoted arc.use.name
  | duplicateDiscarded source existing use =>
    utf8 "Discarding rewrite of vertex " ++ decimal source.id ++ utf8 " back to vertex " ++
      decimal existing.id ++ utf8 " via " ++ shownQuoted use.name
  | vertexAdded v _ =>
    utf8 "New " ++ v.side.name ++ utf8 " vertex " ++ decimal v.id ++ utf8 " at depth " ++
      decimal v.depth ++ utf8 ": " ++ shownQuoted v.pretty
  | proofBuilt leftSteps rightSteps =>
    utf8 "Proof reconstructed: " ++ decimal leftSteps ++ utf8 " left steps, " ++
      decimal rightSteps ++ utf8 " right steps"
  | searchFinished status _ steps =>
    utf8 "Search finished: " ++ status.name ++ utf8 " after " ++ decimal steps ++ utf8 " steps" ++
      (if status.message.isEmpty then [] else utf8 ": " ++ status.message)

end Entry

end Joinability
