import Joinability.Proofs.Search.Statistics

/-!
# Portraits drawn from events

Observers are not shown the graph of a search. They are told of its roots and then of what happens
to it, one event at a time. A `Portrait` is what can be drawn of the graph from that,
`Portrait.note` draws one event, and `replay` draws all events from the two roots on.

`Exploration.portrait` is the graph as observers may know it. Each operation of a search that
changes the graph changes its portrait as the events say that are reported of it:
**`Exploration.portrait_close`**, **`Exploration.portrait_grow`** and
**`Exploration.portrait_meet`**.

## What a portrait leaves out

The cursor of a vertex is private to the engine. It moves with every reduct, and of most of its
moves no observer is told. Nor do events speak of the recipes and the proofs of edges.

## Edges that are known already

A new vertex is reported before the edge by which it hangs, but as it is once it hangs there: it
names its parent edge, and lists it. The edge is therefore not listed again when it is reported
itself.
-/

namespace Joinability

variable {σ α τ π : Type}

/-! ## Drawing events -/

/-- What can be drawn of the graph of a search from its events. -/
@[ext]
structure Portrait (α : Type) where
  /-- The vertices, each at its own id. -/
  vertices : Array (Vertex α)
  /-- The edges, each at its own id. -/
  arcs : Array Arc := #[]
  /-- The edge at which the two sides meet. -/
  meeting : Option Nat := none
  /-- The number of reducts that were vertices of the same side. -/
  duplicates : Nat := 0

/-- The vertex after an edge to it has been reported. A vertex that hangs by the edge lists it
already. -/
def Vertex.receive (a : Arc) (v : Vertex α) : Vertex α :=
  if v.parentEdge = some a.id then v else v.arrive a.id

/-- The vertex after it has been reported to have no further reduct. -/
def Vertex.close (v : Vertex α) : Vertex α := { v with visited := true }

namespace Portrait

/-- The side on which the vertex with an id lies. -/
def sideOf (g : Portrait α) (i : Nat) : Option Side := g.vertices[i]?.map Vertex.side

/-- Draws an edge. The sides meet at it if its ends lie on different ones. -/
def connect (g : Portrait α) (a : Arc) : Portrait α :=
  { g with
    vertices := (g.vertices.modify a.source (Vertex.leave a.id a.use)).modify a.target
      (Vertex.receive a)
    arcs := g.arcs.push a
    meeting := if g.sideOf a.source = g.sideOf a.target then g.meeting else some a.id }

/-- Draws an event. The start and the end of a search leave nothing to draw. -/
def note (g : Portrait α) : Event α → Portrait α
  | .vertexAdded v => { g with vertices := g.vertices.push v }
  | .edgeAdded a => g.connect a
  | .duplicateDiscarded .. => { g with duplicates := g.duplicates + 1 }
  | .vertexExhausted v => { g with vertices := g.vertices.modify v.id Vertex.close }
  | .started .. | .finished .. => g

variable (g : Portrait α) (v : Vertex α) (a : Arc)

@[simp] theorem size_vertexAdded : (g.note (.vertexAdded v)).vertices.size = g.vertices.size + 1 :=
  Array.size_push v

@[simp] theorem size_vertexExhausted :
    (g.note (.vertexExhausted v)).vertices.size = g.vertices.size := Array.size_modify

@[simp] theorem size_edgeAdded : (g.note (.edgeAdded a)).vertices.size = g.vertices.size :=
  Array.size_modify.trans Array.size_modify

@[simp] theorem arcs_vertexAdded : (g.note (.vertexAdded v)).arcs = g.arcs := rfl

@[simp] theorem arcs_edgeAdded : (g.note (.edgeAdded a)).arcs = g.arcs.push a := rfl

theorem eq_id_of_meeting {m : Nat} (hm : (g.note (.edgeAdded a)).meeting = some m)
    (hopen : g.meeting = none) : a.id = m := by
  rw [note, connect] at hm
  dsimp only at hm
  split at hm
  · exact absurd (hopen.symm.trans hm) (by simp)
  · exact Option.some.inj hm

end Portrait

/-- The portrait of two roots and all that is reported after them. -/
def replay (left right : Vertex α) (events : List (Event α)) : Portrait α :=
  events.foldl Portrait.note { vertices := #[left, right] }

/-! ## The graph of a search as observers may know it -/

/-- The vertex without what is private to the engine. -/
def Vertex.rewound (v : Vertex α) : Vertex α := { v with cursor := 0 }

namespace Exploration

/-- The part of the graph that observers are told of. -/
def portrait (x : Exploration α τ π) : Portrait α where
  vertices := x.vertices.items.map Vertex.rewound
  arcs := x.edges.items.map Edge.toArc
  meeting := x.meeting
  duplicates := x.stats.duplicates

variable {x y : Exploration α τ π} {v w : Vertex α}

theorem getElem?_portrait (x : Exploration α τ π) (i : Nat) :
    x.portrait.vertices[i]? = x.vertices.items[i]?.map Vertex.rewound := Array.getElem?_map

theorem size_portrait (x : Exploration α τ π) : x.portrait.vertices.size = x.vertices.size :=
  Array.size_map

theorem portrait_next {i : Option Nat} {entries : List (Entry α)} (h : x.next = (i, y, entries)) :
    y.portrait = x.portrait := by
  rw [(next_eq h).2]
  rfl

theorem portrait_advance (hv : x.vertices.items[v.id]? = some v) (next : Nat) :
    (x.advance v next).portrait = x.portrait := by
  have hmap : (x.put { v with cursor := next }).vertices.items.map Vertex.rewound
      = x.vertices.items.map Vertex.rewound := map_put (v := { v with cursor := next }) hv rfl
  exact Portrait.ext hmap rfl rfl rfl

/-- What becomes of a portrait when a vertex is visited. -/
theorem portrait_close (hv : x.vertices.items[v.id]? = some v) :
    (x.put { v with visited := true }).portrait
      = x.portrait.note (.vertexExhausted { v with visited := true }) := by
  refine Portrait.ext (Array.ext_getElem? ?_) rfl rfl rfl
  intro i
  show _ = (x.portrait.vertices.modify v.id Vertex.close)[i]?
  rw [getElem?_portrait, getElem?_put, Array.getElem?_modify, getElem?_portrait]
  by_cases hi : v.id = i
  · subst hi
    rw [if_pos rfl, if_pos rfl, hv]
    rfl
  · rw [if_neg hi, if_neg hi]

/-- What becomes of a portrait when a child is added. -/
theorem portrait_grow {p : Vertex α} (hp : x.vertices.items[p.id]? = some p) (t : Term α)
    (use : RuleUse) (recipe : Option τ) : (x.grow p t use recipe).2.2.portrait
      = (x.portrait.note (.vertexAdded (x.grow p t use recipe).1)).note
          (.edgeAdded (x.grow p t use recipe).2.1.toArc) := by
  have hlt : p.id < x.vertices.size := (Array.getElem?_eq_some_iff.mp hp).1
  let child := (x.grow p t use recipe).1
  let arc : Arc := { id := x.edges.size, source := p.id, target := x.vertices.size, use }
  have hpush (i : Nat) : (x.portrait.vertices.push child)[i]?
      = if i = x.vertices.size then some child else x.vertices.items[i]?.map Vertex.rewound := by
    rw [Array.getElem?_push, size_portrait, getElem?_portrait]
  have hsides : (x.portrait.note (.vertexAdded child)).sideOf p.id
      = (x.portrait.note (.vertexAdded child)).sideOf x.vertices.size := by
    show (x.portrait.vertices.push child)[p.id]?.map _ = (x.portrait.vertices.push child)[_]?.map _
    rw [hpush, hpush, if_neg (Nat.ne_of_lt hlt), if_pos rfl, hp]
    rfl
  refine Portrait.ext (Array.ext_getElem? ?_) ?_ ?_ ?_
  · intro i
    show _ = (((x.portrait.vertices.push child).modify p.id
      (Vertex.leave x.edges.size use)).modify x.vertices.size (Vertex.receive arc))[i]?
    rw [getElem?_portrait, getElem?_grow hlt, Array.getElem?_modify, Array.getElem?_modify, hpush]
    by_cases hi : i = x.vertices.size
    · -- the child lists its parent edge already
      rw [if_pos hi, if_pos hi.symm, if_pos hi, if_neg (by omega)]
      exact congrArg some (if_pos rfl).symm
    · rw [if_neg hi, if_neg (Ne.symm hi), if_neg hi]
      by_cases hsource : p.id = i
      · rw [if_pos hsource, if_pos hsource, Option.map_map, Option.map_map]
        rfl
      · rw [if_neg hsource, if_neg hsource]
  · exact Array.map_push
  · exact (if_pos hsides).symm
  · exact (reducts_grow x p t use recipe).2

/-- What becomes of a portrait when the sides meet. -/
theorem portrait_meet (hv : x.vertices.items[v.id]? = some v)
    (hw : x.vertices.items[w.id]? = some w) (hside : w.side ≠ v.side)
    (hfresh : w.parentEdge ≠ some x.edges.size) (use : RuleUse) (recipe : Option τ) :
    ((x.link v.id w.id use recipe).2.markMeeting x.edges.size).portrait
      = x.portrait.note (.edgeAdded (x.link v.id w.id use recipe).1.toArc) := by
  have hne := id_ne_of_side_ne hv hw hside
  let arc : Arc := { id := x.edges.size, source := v.id, target := w.id, use }
  have hsides : x.portrait.sideOf v.id ≠ x.portrait.sideOf w.id := by
    rw [Portrait.sideOf, Portrait.sideOf, getElem?_portrait, getElem?_portrait, hv, hw]
    exact fun h ↦ hside (Option.some.inj h).symm
  refine Portrait.ext (Array.ext_getElem? ?_) ?_ ?_ rfl
  · intro i
    show ((x.link v.id w.id use recipe).2.vertices.items.map Vertex.rewound)[i]?
      = ((x.portrait.vertices.modify v.id (Vertex.leave x.edges.size use)).modify w.id
          (Vertex.receive arc))[i]?
    rw [Array.getElem?_map, getElem?_link x hne, Array.getElem?_modify, Array.getElem?_modify,
      getElem?_portrait]
    by_cases hs : v.id = i
    · rw [if_pos hs, if_neg (by omega), if_pos hs, Option.map_map, Option.map_map]
      rfl
    · rw [if_neg hs, if_neg hs]
      by_cases ht : w.id = i
      · subst ht
        rw [if_pos rfl, if_pos rfl, hw]
        exact congrArg some (if_neg hfresh).symm
      · rw [if_neg ht, if_neg ht]
  · exact Array.map_push
  · exact (if_neg hsides).symm

end Exploration

end Joinability
