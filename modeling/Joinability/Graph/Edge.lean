import Joinability.Fault
import Joinability.Rule.Use

/-!
# Edges and deferred proofs

An edge records that one use of a rule leads from its source to its target. Only the justification
of an edge ever changes: it is deferred, and evaluated at most once.

## Deferred proofs

A deferred proof is absent, pending with a recipe for building it, or ready. Forcing a pending proof
runs its recipe; if the recipe fails the proof stays pending, and a later attempt runs it again. A
ready proof is returned as it is.
-/

namespace Joinability

/-- The endpoints of an edge and the use of a rule that leads from one to the other. -/
structure Arc where
  /-- The id of the edge. -/
  id : Nat
  /-- The vertex at which the edge starts. -/
  source : Nat
  /-- The vertex to which the edge leads. -/
  target : Nat
  /-- The use of a rule that leads from the source to the target. -/
  use : RuleUse
deriving DecidableEq, Repr, Inhabited

namespace Arc

/-- Whether a vertex is one of the endpoints. -/
def touches (a : Arc) (vertex : Nat) : Bool := a.source == vertex || a.target == vertex

/-- The endpoint other than `known`, or nothing if `known` is no endpoint. -/
def otherEnd? (a : Arc) (known : Nat) : Option Nat :=
  if a.source = known then some a.target
  else if a.target = known then some a.source
  else none

end Arc

/-- A proof that is built on demand, from a recipe of type `τ`. -/
inductive Deferred (τ π : Type) where
  /-- There is neither a proof nor a recipe. -/
  | absent
  /-- The proof has not been built yet. -/
  | pending (recipe : τ)
  /-- The proof has been built. -/
  | ready (proof : π)
deriving DecidableEq, Repr, Inhabited

namespace Deferred

variable {τ π : Type}

/-- The deferred proof with an optional recipe. -/
def ofRecipe? : Option τ → Deferred τ π
  | none => absent
  | some recipe => pending recipe

/-- Whether the proof has been built. -/
def isReady : Deferred τ π → Bool
  | ready _ => true
  | _ => false

end Deferred

/-- An edge of the search graph, whose deferred proof shows that its ends are equal. -/
structure Edge (τ π : Type) extends Arc where
  /-- The proof that the source equals the target. -/
  proof : Deferred τ π
deriving DecidableEq, Repr, Inhabited

/-- The table of edges. -/
structure Edges (τ π : Type) where
  /-- The edges, each at its own id. -/
  items : Array (Edge τ π) := #[]

namespace Edges

variable {σ τ π : Type}

instance : Inhabited (Edges τ π) := ⟨{}⟩

/-- The number of edges. -/
def size (es : Edges τ π) : Nat := es.items.size

/-- The edge with an id. -/
def get (es : Edges τ π) (id : Nat) : Except Fault (Edge τ π) :=
  match es.items[id]? with
  | some e => .ok e
  | none => .error (.edgeUnissued id es.size)

/-- Adds an edge with the next id. -/
def create (es : Edges τ π) (source target : Nat) (use : RuleUse) (proof : Deferred τ π) :
    Edge τ π × Edges τ π :=
  let e : Edge τ π := { id := es.size, source, target, use, proof }
  (e, { items := es.items.push e })

/-- Keeps a proof that has been built for an edge. -/
def keepProof (es : Edges τ π) (id : Nat) (proof : π) : Edges τ π :=
  { items := es.items.modify id fun e ↦ { e with proof := .ready proof } }

/-- The proof of an edge, built by `prove` if it is pending. The recipes work on a state of type
`σ`, which is kept also when one of them fails. -/
def force (prove : τ → σ → Except Fault π × σ) (es : Edges τ π) (id : Nat) (s : σ) :
    Except Fault π × Edges τ π × σ :=
  match es.items[id]? with
  | none => (.error (.proofOfUnissuedEdge id), es, s)
  | some e =>
    match e.proof with
    | .ready proof => (.ok proof, es, s)
    | .absent => (.error .noProof, es, s)
    | .pending recipe =>
      match prove recipe s with
      | (.ok proof, s) => (.ok proof, es.keepProof id proof, s)
      | (.error fault, s) => (.error fault, es, s)

/-! ## What the operations do to the table -/

theorem get_eq_ok_iff {es : Edges τ π} {id : Nat} {e : Edge τ π} :
    es.get id = .ok e ↔ es.items[id]? = some e := by
  unfold get
  split <;> simp_all

@[simp] theorem size_keepProof (es : Edges τ π) (id : Nat) (proof : π) :
    (es.keepProof id proof).size = es.size := by
  simp [keepProof, size]

end Edges

end Joinability
