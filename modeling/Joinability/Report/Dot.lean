import Joinability.Report.Summary

/-!
# The graph as a drawing

An exploration can be drawn by the graph drawing programs that read the DOT language. Left vertices
are blue and right ones red, roots have a double border, and the edge at which the sides meet is
bold and green.

Labels stand between quotation marks. A quotation mark or a backslash inside a label is written with
a backslash in front, so a reader finds the end of the label at the first quotation mark without
one.
-/

namespace Joinability

variable {α τ π : Type}

namespace Dot

/-- A label with a backslash in front of each quotation mark and each backslash. -/
def escape (t : Text) : Text :=
  t.flatMap fun b ↦ if b = '"'.toUInt8 || b = '\\'.toUInt8 then ['\\'.toUInt8, b] else [b]

/-- The colour of a side. -/
def colour : Side → Text
  | .left => utf8 "blue"
  | .right => utf8 "red"

/-- The line of a vertex. -/
def vertexLine (v : Vertex α) : Text :=
  utf8 "  V" ++ decimal v.id ++ utf8 " [label=\"" ++ escape v.pretty ++ utf8 "\", color=" ++
    colour v.side ++ utf8 (if v.isRoot then ", peripheries=2" else "") ++ utf8 "];\n"

/-- The line of an edge, which may be the one at which the sides meet. -/
def edgeLine (a : Arc) (isMeeting : Bool) : Text :=
  utf8 "  V" ++ decimal a.source ++ utf8 " -> V" ++ decimal a.target ++ utf8 " [label=\"" ++
    escape a.use.reference ++ utf8 "\"" ++
    utf8 (if isMeeting then ", style=bold, color=green" else "") ++ utf8 "];\n"

end Dot

/-- The drawing of an exploration. -/
def Exploration.dot (x : Exploration α τ π) : Text :=
  utf8 "digraph RewriteSearch \x7b\n  node [shape=box];\n" ++
    x.vertices.items.toList.flatMap Dot.vertexLine ++
    (x.edges.items.toList.flatMap fun e ↦ Dot.edgeLine e.toArc (x.isMeeting e.id)) ++
    utf8 "\x7d\n"

end Joinability
