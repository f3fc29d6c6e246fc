import Joinability.Graph.Route
import Joinability.Search.Basic

/-!
# Building the proof

When the two sides have met at an edge, the goal is proved along the path from the left root over
the meeting edge to the right root. The meeting edge belongs to the side from which it was found, so
that both units end at the same text.

## Walking a path

Each unit is built by walking its path away from the root. An edge proves that its source equals its
target; one that is crossed against its direction is proved by symmetry. The proofs of the edges are
forced on the way and stay forced, also when a later one fails.

## Putting the units together

The left unit proves `lhs = m` and the right unit `rhs = m`, so the goal follows by reading the
right unit backwards. A unit without steps contributes nothing and is left out.
-/

namespace Joinability

variable {σ α τ π : Type}

/-- Building proofs forces proofs of edges and runs recipes, and may fail. -/
abbrev BuildM (σ τ π : Type) := ExceptT Fault (StateM (Edges τ π × σ))

namespace BuildM

/-- An answer that depends on nothing. -/
def ofExcept {ρ : Type} (answer : Except Fault ρ) : BuildM σ τ π ρ := fun s ↦ (answer, s)

/-- The edge with an id. -/
def edge (id : Nat) : BuildM σ τ π (Edge τ π) := fun s ↦ (s.1.get id, s)

/-- The proof of an edge, built if need be. -/
def proofOf (e : Engine σ α τ π) (id : Nat) : BuildM σ τ π π := fun s ↦ s.1.force e.prove id s.2

end BuildM

/-- How far a path has been walked. -/
structure Walk (π : Type) where
  /-- The vertex reached so far. -/
  cursor : Nat
  /-- The proof that the root equals the vertex reached so far; none without a step. -/
  proof : Option π := none
  /-- The steps taken so far. -/
  steps : List ProofStep := []
deriving DecidableEq, Repr

namespace Walk

/-- Crosses one more edge. -/
def cross (e : Engine σ α τ π) (vs : Vertices α) (w : Walk π) (id : Nat) :
    BuildM σ τ π (Walk π) := do
  let edge ← BuildM.edge id
  match edge.otherEnd? w.cursor with
  | none => throw (.pathBroken id w.cursor)
  | some next =>
    let forced ← BuildM.proofOf e id
    let crossed ← if edge.source = w.cursor then pure forced else .ofExcept (e.symmetry forced)
    let proof ← match w.proof with
      | none => pure crossed
      | some p => .ofExcept (e.transitivity p crossed)
    let before ← .ofExcept (vs.get w.cursor)
    let after ← .ofExcept (vs.get next)
    let step := { edge := id, use := edge.use, before := before.pretty, after := after.pretty }
    return { cursor := next, proof := some proof, steps := w.steps ++ [step] }

end Walk

/-- The unit of a side, whose path is given from the root on. -/
def buildUnit (e : Engine σ α τ π) (vs : Vertices α) (side : Side) (path : List Nat) :
    BuildM σ τ π (ProofUnit π) := do
  let w ← path.foldlM (Walk.cross e vs) { cursor := side.root }
  let proof ← match w.proof with
    | some p => pure p
    | none => do
      let v ← .ofExcept (vs.get w.cursor)
      .ofExcept (e.reflexivity v.term)
  return { side, proof, steps := w.steps }

/-- The proof of the goal from the units of the two sides. -/
def joinUnits (e : Engine σ α τ π) (left right : ProofUnit π) : Except Fault π :=
  if right.steps.isEmpty then .ok left.proof
  else do
    let back ← e.symmetry right.proof
    if left.steps.isEmpty then return back else e.transitivity left.proof back

namespace Exploration

/-- The proof of the goal over an edge between the two sides, with the units of the left and the
right side. -/
def buildProof (e : Engine σ α τ π) (x : Exploration α τ π) (meeting : Nat) :
    BuildM σ τ π (π × ProofUnit π × ProofUnit π) := do
  let arc ← .ofExcept (x.edges.get meeting)
  let source ← .ofExcept (x.vertices.get arc.source)
  let target ← .ofExcept (x.vertices.get arc.target)
  if source.side = target.side then
    throw (.edgeWithinSide meeting)
  let sourcePath ← .ofExcept (pathFromRoot x.vertices x.edges source.id)
  let targetPath ← .ofExcept (pathFromRoot x.vertices x.edges target.id)
  let sourceUnit ← buildUnit e x.vertices source.side (sourcePath ++ [arc.id])
  let targetUnit ← buildUnit e x.vertices target.side targetPath
  let (left, right) :=
    match source.side with
    | .left => (sourceUnit, targetUnit)
    | .right => (targetUnit, sourceUnit)
  let proof ← .ofExcept (joinUnits e left right)
  return (proof, left, right)

end Exploration

namespace Search

/-- The proof of the goal over the edge at which the sides meet. Sides that agree from the start
have no such edge. -/
def prove (e : Engine σ α τ π) (meeting : Nat) (search : Search α τ π) (s : σ) :
    Reply σ α τ π (Result π) :=
  match search with
  | idle => { answer := .error .proofBeforeStart, search, engine := s }
  | agreed lhs =>
    if meeting = unissued then
      { answer := (e.reflexivity lhs).map fun p ↦ .proved p [] {}, search, engine := s }
    else { answer := .error (.noEdgeBetweenAgreed meeting), search, engine := s }
  | exploring x focus =>
    match x.buildProof e meeting (x.edges, s) with
    | (.error fault, edges, s) =>
      { answer := .error fault, search := .exploring { x with edges } focus, engine := s }
    | (.ok (proof, left, right), edges, s) =>
      { answer := .ok (.proved proof [left, right] x.stats)
        search := .exploring { x with edges } focus, engine := s
        journal := [.proofBuilt left.steps.length right.steps.length] }

/-- The result of a search that has ended. -/
def conclude (e : Engine σ α τ π) (ending : Ending) (search : Search α τ π) (s : σ) :
    Reply σ α τ π (Result π) :=
  match ending with
  | .met edge => search.prove e edge s
  | .aborted => { answer := .ok (.aborted search.stats), search, engine := s }
  | .exhausted => { answer := .ok (.exhausted search.stats), search, engine := s }

/-- The entry with which a search ends. -/
def finished (r : Result π) : Entry α := .searchFinished r.status r.proofLength r.stats.steps

/-- Searches for a proof of `lhs = rhs`: starts, steps on to an ending, and concludes. -/
def solve (e : Engine σ α τ π) (clock : Nat → Nat) (config : Config α) (lhs rhs : Term α) (s : σ) :
    Reply σ α τ π (Result π) :=
  let (search, opening) := start config lhs rhs
  let (_, last) := search.run e clock s
  let soFar := opening ++ last.journal
  match last.answer with
  | .error fault => { answer := .error fault, search := last.search, engine := last.engine
                      journal := soFar }
  | .ok ending =>
    let reply := (last.search.conclude e ending last.engine).after soFar
    match reply.answer with
    | .error _ => reply
    | .ok result => { reply with journal := reply.journal ++ [finished result] }

end Search

end Joinability
