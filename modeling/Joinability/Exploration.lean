import Joinability.Config
import Joinability.Distance
import Joinability.Journal.Entry
import Joinability.Lexicon

/-!
# Explorations

An exploration is everything that one search has found: the tokens of the terms, the two trees of
vertices with the edges between them, the frontier, the statistics, and the edge at which the two
trees meet once there is one.

## How the graph grows

Vertex `0` is the left root and vertex `1` the right root. A *child* is a new vertex that is reached
from its parent over a new edge; it belongs to the parent's side, stands one level deeper, and waits
in the frontier. A *link* is an edge between two vertices that are already there. These are the only
two ways in which a search adds to the graph, and neither can fail on vertices of the graph. Their
checked forms `addChild` and `connect` take ids from outside, and change nothing when an id was
never issued.

## The estimate

A best-first frontier scores a vertex by the edit distance between its tokens and those of the root
of the other side. Tokens of a vertex never change while a search runs, so neither does its score.
-/

namespace Joinability

/-- What one search has found. -/
structure Exploration (α τ π : Type) where
  /-- The limits and policies of the search. -/
  config : Config α
  /-- The vertices that wait to be expanded. -/
  frontier : Frontier Nat
  /-- The tokens of the terms. -/
  lexicon : Lexicon := {}
  /-- The discovered terms. -/
  vertices : Vertices α := {}
  /-- The uses of rules that lead from one to another. -/
  edges : Edges τ π := {}
  /-- What has been done so far. -/
  stats : Stats := {}
  /-- The edge at which the two sides meet. -/
  meeting : Option Nat := none

namespace Exploration

variable {α τ π : Type}

/-- The exploration that has found nothing yet. -/
def ofConfig (config : Config α) : Exploration α τ π :=
  { config, frontier := .ofStrategy config.strategy config.maxDepth }

/-- Whether both roots are there. -/
def isInitialised (x : Exploration α τ π) : Bool := 2 ≤ x.vertices.size

/-- The edit distance from a vertex to the root of the other side, or zero if there is no such
root. -/
def estimate (x : Exploration α τ π) (v : Vertex α) : Nat :=
  match x.vertices.items[v.side.opposite.root]? with
  | some root => editDistance v.tokens root.tokens
  | none => 0

/-- Lets a vertex wait in the frontier. -/
def enqueue (x : Exploration α τ π) (v : Vertex α) : Exploration α τ π :=
  { x with frontier := x.frontier.enqueue (fun _ ↦ x.estimate v) v.id v.depth }

/-- The vertex to expand next, if any. -/
def next (x : Exploration α τ π) : Option Nat × Exploration α τ π × List (Entry α) :=
  let (v, frontier) := x.frontier.next
  let entries :=
    if frontier.isCut && !x.frontier.isCut then
      [.levelsCut x.config.maxDepth x.frontier.size]
    else []
  (v, { x with frontier }, entries)

/-- Takes vertices from the frontier until none is left. -/
def drain (x : Exploration α τ π) :
    List (Nat × Nat) × Exploration α τ π × List (Entry α) :=
  let (taken, frontier) := x.frontier.drain
  let entries :=
    if frontier.isCut && !x.frontier.isCut then
      [.levelsCut x.config.maxDepth (x.frontier.size - taken.length)]
    else []
  (taken, { x with frontier }, entries)

/-- The id of the vertex with the same canonical key as a term. -/
def findId? (x : Exploration α τ π) (t : Term α) : Option Nat := x.vertices.find? (x.config.key t)

/-- The vertex with the same canonical key as a term. -/
def find? (x : Exploration α τ π) (t : Term α) : Option (Vertex α) :=
  (x.findId? t).bind fun id ↦ x.vertices.items[id]?

/-! ## Growth -/

/-- Adds a vertex with a term: interns its tokens, registers its key and counts it. -/
def addVertex (x : Exploration α τ π) (t : Term α) (side : Side) (isRoot : Bool) (depth : Nat) :
    Vertex α × Exploration α τ π :=
  let (tokens, lexicon) := x.lexicon.intern side t.pretty
  let (v, vertices) := x.vertices.create t tokens isRoot side depth
  let vertices := { vertices with keys := vertices.keys.insertIfNew (x.config.key t) v.id }
  (v, { x with lexicon, vertices, stats := x.stats.withVertex side depth })

/-- Adds an edge between two vertices. -/
def link (x : Exploration α τ π) (source target : Nat) (use : RuleUse) (recipe : Option τ) :
    Edge τ π × Exploration α τ π :=
  let (e, edges) := x.edges.create source target use (.ofRecipe? recipe)
  let leave (v : Vertex α) : Vertex α :=
    { v with adjacency := v.adjacency ++ [e.id], outgoing := v.outgoing ++ [use] }
  let arrive (v : Vertex α) : Vertex α := { v with adjacency := v.adjacency ++ [e.id] }
  let vertices := x.vertices.update source leave
  let vertices := if target = source then vertices else vertices.update target arrive
  (e, { x with edges, vertices, stats := { x.stats with edges := x.stats.edges + 1 } })

/-- Adds a child of a vertex and lets it wait in the frontier. -/
def grow (x : Exploration α τ π) (parent : Vertex α) (t : Term α) (use : RuleUse)
    (recipe : Option τ) : Vertex α × Edge τ π × Exploration α τ π :=
  let (v, x) := x.addVertex t parent.side false (depthBelow parent.depth)
  let (e, x) := x.link parent.id v.id use recipe
  let child : Vertex α := { v with parentEdge := some e.id, adjacency := [e.id] }
  (child, e, { x with vertices := x.vertices.update v.id fun _ ↦ child }.enqueue child)

/-- Creates the two roots and lets them wait in the frontier, the left one first. -/
def createRoots (x : Exploration α τ π) (lhs rhs : Term α) :
    Vertex α × Vertex α × Exploration α τ π :=
  let (left, x) := x.addVertex lhs .left true 0
  let (right, x) := x.addVertex rhs .right true 0
  (left, right, (x.enqueue left).enqueue right)

/-! ## Operations on ids from outside

Each of them answers together with the exploration after it. One that is refused leaves the
exploration as it was. -/

/-- Creates the two roots of an empty graph. They have to differ in their canonical keys. -/
def initialise (x : Exploration α τ π) (lhs rhs : Term α) :
    Except Fault (Entry α) × Exploration α τ π :=
  if x.vertices.size ≠ 0 then (.error .alreadyInitialised, x)
  else if x.config.key lhs = x.config.key rhs then (.error (.sharedKey (x.config.key lhs)), x)
  else
    let (left, right, x) := x.createRoots lhs rhs
    (.ok (.rootsCreated left right x.config.strategy), x)

/-- Adds a child of the vertex with the given id. -/
def addChild (x : Exploration α τ π) (parent : Nat) (t : Term α) (use : RuleUse)
    (recipe : Option τ) : Except Fault (Vertex α) × Exploration α τ π :=
  match x.vertices.get parent with
  | .error fault => (.error fault, x)
  | .ok v =>
    -- the edge starts at the id that was given, whatever the vertex says of itself
    let (child, _, x) := x.grow { v with id := parent } t use recipe
    (.ok child, x)

/-- Adds an edge between the vertices with the given ids. -/
def connect (x : Exploration α τ π) (source target : Nat) (use : RuleUse) (recipe : Option τ) :
    Except Fault (Edge τ π) × Exploration α τ π :=
  match x.vertices.getForUpdate source, x.vertices.getForUpdate target with
  | .error fault, _ => (.error fault, x)
  | .ok _, .error fault => (.error fault, x)
  | .ok _, .ok _ =>
    let (e, x) := x.link source target use recipe
    (.ok e, x)

/-- Overwrites the vertex that has the id of `v`. -/
def setVertex (x : Exploration α τ π) (v : Vertex α) :
    Except Fault (Vertex α) × Exploration α τ π :=
  match x.vertices.set v with
  | .error fault => (.error fault, x)
  | .ok vertices => (.ok v, { x with vertices })

/-- Registers an id under a key, unless the key is taken. -/
def registerKey (x : Exploration α τ π) (key : Text) (id : Nat) :
    Except Fault Unit × Exploration α τ π :=
  match x.vertices.register key id with
  | .error fault => (.error fault, x)
  | .ok vertices => (.ok (), { x with vertices })

/-- Lets the vertex with the given id wait in the frontier. -/
def enqueueId (x : Exploration α τ π) (id : Nat) : Except Fault Unit × Exploration α τ π :=
  match x.vertices.get id with
  | .error fault => (.error fault, x)
  | .ok v => (.ok (), x.enqueue v)

/-- Marks an edge as the one at which the two sides meet. -/
def markMeeting (x : Exploration α τ π) (edge : Nat) : Exploration α τ π :=
  { x with meeting := some edge }

end Exploration

end Joinability
