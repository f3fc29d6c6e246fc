import Std.Data.TreeMap
import Joinability.Fault
import Joinability.Rule.Use
import Joinability.Side
import Joinability.Term

/-!
# Vertices

A vertex is a term that the search has discovered, together with everything the search knows of it:
the side to which it belongs, the edge over which it was reached, how far it stands below its root,
and how much of its expansion has been done.

## The table of vertices

Vertices stand in an array, each at its own id, and are never removed. A second map sends canonical
keys to ids; the search uses it to tell a new term from a known one. The first vertex that is
registered under a key keeps it.
-/

open Std

namespace Joinability

/-- A discovered term and what the search knows of it. The defaults describe no vertex at all. -/
structure Vertex (α : Type) where
  /-- The id of the vertex. -/
  id : Nat := unissued
  /-- The term. -/
  term : Term α := {}
  /-- The ids of the tokens of the printed term, in order. -/
  tokens : List Nat := []
  /-- Whether the vertex is a root. -/
  isRoot : Bool := false
  /-- Whether every reduct of the term has been tried. -/
  visited : Bool := false
  /-- The side of the goal from which the term was reached. -/
  side : Side := .left
  /-- The edge over which the term was first reached. -/
  parentEdge : Option Nat := none
  /-- The number of edges to the root. -/
  depth : Nat := 0
  /-- Where the engine resumes. -/
  cursor : Nat := 0
  /-- The uses of rules on the edges that leave the vertex, in order of their discovery. -/
  outgoing : List RuleUse := []
  /-- The ids of the edges that touch the vertex, in order of their discovery. -/
  adjacency : List Nat := []
deriving DecidableEq, Repr, Inhabited

namespace Vertex

variable {α : Type}

/-- The printed term. -/
def pretty (v : Vertex α) : Text := v.term.pretty

/-- Whether the vertex has an id that a table may have issued. -/
def isIssued (v : Vertex α) : Bool := v.id != unissued

end Vertex

/-- The depth one below `d`. Depths are counted in 64 bits. -/
def depthBelow (d : Nat) : Nat := (d + 1) % UInt64.size

/-- The table of vertices. -/
structure Vertices (α : Type) where
  /-- The vertices, each at its own id. -/
  items : Array (Vertex α) := #[]
  /-- The vertex registered under each canonical key. -/
  keys : TreeMap Text Nat := ∅

namespace Vertices

variable {α : Type}

instance : Inhabited (Vertices α) := ⟨{}⟩

/-- The number of vertices. -/
def size (vs : Vertices α) : Nat := vs.items.size

/-- Whether the id was issued. -/
def contains (vs : Vertices α) (id : Nat) : Bool := id < vs.size

/-- The vertex with an id. -/
def get (vs : Vertices α) (id : Nat) : Except Fault (Vertex α) :=
  match vs.items[id]? with
  | some v => .ok v
  | none => .error (.vertexUnissued id vs.size)

/-- The vertex with an id, which is about to be changed. -/
def getForUpdate (vs : Vertices α) (id : Nat) : Except Fault (Vertex α) :=
  match vs.items[id]? with
  | some v => .ok v
  | none => .error (.vertexUnissuedForUpdate id vs.size)

/-- Applies `f` to the vertex with an id; without effect on an id that was never issued. -/
def update (vs : Vertices α) (id : Nat) (f : Vertex α → Vertex α) : Vertices α :=
  { vs with items := vs.items.modify id f }

/-- Overwrites the vertex that has the id of `v`. -/
def set (vs : Vertices α) (v : Vertex α) : Except Fault (Vertices α) := do
  let _ ← vs.getForUpdate v.id
  return vs.update v.id fun _ ↦ v

/-- Adds a vertex with the next id. It is neither visited nor connected. -/
def create (vs : Vertices α) (term : Term α) (tokens : List Nat) (isRoot : Bool) (side : Side)
    (depth : Nat) : Vertex α × Vertices α :=
  let v : Vertex α := { id := vs.size, term, tokens, isRoot, side, depth }
  (v, { vs with items := vs.items.push v })

/-- The id registered under a key. -/
def find? (vs : Vertices α) (key : Text) : Option Nat := vs.keys[key]?

/-- Registers an id under a key, unless the key is taken. -/
def register (vs : Vertices α) (key : Text) (id : Nat) : Except Fault (Vertices α) :=
  if vs.contains id then .ok { vs with keys := vs.keys.insertIfNew key id }
  else .error (.keyForUnissued id)

/-- The number of vertices on a side. -/
def countOn (vs : Vertices α) (s : Side) : Nat := vs.items.countP (·.side = s)

/-! ## What the operations do to the table -/

theorem get_eq_ok_iff {vs : Vertices α} {id : Nat} {v : Vertex α} :
    vs.get id = .ok v ↔ vs.items[id]? = some v := by
  unfold get
  split <;> simp_all

theorem getForUpdate_eq_ok_iff {vs : Vertices α} {id : Nat} {v : Vertex α} :
    vs.getForUpdate id = .ok v ↔ vs.items[id]? = some v := by
  unfold getForUpdate
  split <;> simp_all

@[simp] theorem size_update (vs : Vertices α) (id : Nat) (f : Vertex α → Vertex α) :
    (vs.update id f).size = vs.size := by
  simp [update, size]

theorem getElem?_update (vs : Vertices α) (id other : Nat) (f : Vertex α → Vertex α) :
    (vs.update id f).items[other]? =
      if id = other then vs.items[other]?.map f else vs.items[other]? := by
  simp [update, Array.getElem?_modify]

@[simp] theorem size_create (vs : Vertices α) (term : Term α) (tokens : List Nat) (isRoot : Bool)
    (side : Side) (depth : Nat) :
    (vs.create term tokens isRoot side depth).2.size = vs.size + 1 := by
  simp [create, size]

end Vertices

end Joinability
