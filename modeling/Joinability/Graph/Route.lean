import Joinability.Graph.Edge
import Joinability.Graph.Vertex

/-!
# The way back to the root

From a vertex that is no root, its parent edge leads to a vertex closer to the root, whichever of
its two ends that is. Climbing on in this way either reaches a vertex that is marked as a root, gets
stuck, or goes round for ever. The first root that is reached has to be the root of the vertex's own
side.

A chain that reaches a root visits no vertex twice, so it has fewer edges than there are vertices,
and a longer climb can be given up.
-/

namespace Joinability

variable {α τ π : Type}

/-- Climbs from `cursor` to a root, for at most `n` edges. The edges below are listed in `path`; the
climb began at `start`, which lies on the given side. -/
def climb (vs : Vertices α) (es : Edges τ π) (start : Nat) (side : Side) (n cursor : Nat)
    (path : List Nat) : Except Fault (List Nat) := do
  let v ← vs.get cursor
  if v.isRoot then
    if v.id = side.root then return path else throw (.foreignRoot start v.id)
  else
    match v.parentEdge with
    | none => throw (.noParentEdge cursor)
    | some id =>
      let e ← es.get id
      match e.otherEnd? cursor with
      | none => throw (.parentEdgeAstray e.id cursor)
      | some parent =>
        match n with
        | 0 => throw (.parentCycle start)
        | n + 1 => climb vs es start side n parent (e.id :: path)

/-- The edges from the root of a vertex's side to the vertex. -/
def pathFromRoot (vs : Vertices α) (es : Edges τ π) (vertex : Nat) :
    Except Fault (List Nat) := do
  let v ← vs.get vertex
  climb vs es vertex v.side vs.size vertex []

end Joinability
