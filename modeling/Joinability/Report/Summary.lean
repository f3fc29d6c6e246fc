import Joinability.Exploration

/-!
# The summary of an exploration

The summary is a text for people: the state of the frontier, the sizes of the graph and the
statistics, followed by one line per vertex and one line per edge.
-/

namespace Joinability

variable {α τ π : Type}

/-- The line of a vertex. -/
def Vertex.summaryLine (v : Vertex α) : Text :=
  utf8 "  Vertex " ++ decimal v.id ++ utf8 " [" ++ v.side.name ++ utf8 ", depth " ++
    decimal v.depth ++ utf8 (if v.isRoot then ", root" else "") ++
    utf8 (if v.visited then ", visited" else "") ++ utf8 "]: " ++ v.pretty ++
    (match v.parentEdge with
      | some e => utf8 "  (via edge " ++ decimal e ++ utf8 ")"
      | none => []) ++
    utf8 "\n"

/-- The line of an edge, which may be the one at which the sides meet. -/
def Arc.summaryLine (a : Arc) (isMeeting : Bool) : Text :=
  utf8 "  Edge " ++ decimal a.id ++ utf8 ": Vertex " ++ decimal a.source ++ utf8 " → Vertex " ++
    decimal a.target ++ utf8 " (" ++ a.use.reference ++
    (if 0 < a.use.occurrence then utf8 " #" ++ decimal a.use.occurrence else []) ++ utf8 ")" ++
    utf8 (if isMeeting then "  [meeting]" else "") ++ utf8 "\n"

namespace Exploration

/-- Whether an edge is the one at which the two sides meet. -/
def isMeeting (x : Exploration α τ π) (edge : Nat) : Bool := x.meeting == some edge

/-- The first lines of the summary. -/
private def summaryHead (x : Exploration α τ π) : Text :=
  utf8 "=== REWRITE SEARCH SUMMARY ===\nStrategy: " ++ x.frontier.strategy.name ++
    utf8 ", depth " ++ decimal x.frontier.depth ++ utf8 ", frontier " ++
    decimal x.frontier.size ++
    utf8 "\nVertices: " ++ decimal x.vertices.size ++ utf8 " (left " ++ decimal x.stats.left ++
    utf8 ", right " ++ decimal x.stats.right ++ utf8 "), Edges: " ++ decimal x.edges.size ++
    utf8 ", Tokens: " ++ decimal x.lexicon.size ++
    utf8 "\nSteps: " ++ decimal x.stats.steps ++ utf8 ", Rewrites: " ++ decimal x.stats.reducts ++
    utf8 ", Duplicates discarded: " ++ decimal x.stats.duplicates ++ utf8 "\n\n"

/-- The summary of an exploration. -/
def summary (x : Exploration α τ π) : Text :=
  x.summaryHead ++
    utf8 "Vertices:\n" ++ x.vertices.items.toList.flatMap Vertex.summaryLine ++
    utf8 "Edges:\n" ++
      x.edges.items.toList.flatMap fun e ↦ e.toArc.summaryLine (x.isMeeting e.id)

end Exploration

end Joinability
