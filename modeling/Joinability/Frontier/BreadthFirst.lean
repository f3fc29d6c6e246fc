/-!
# Level by level

A breadth-first frontier hands out the vertices of one level in the order in which they arrived, and
only then turns to the vertices that arrived in the meantime, which form the next level. The first
request closes the level of the roots.

The waiting vertices are therefore a queue (`toList`): an arrival joins at its end, and what is
handed out is always its head.

## When it ends

When a level is used up and nothing has arrived, the frontier is exhausted. When the depth bound has
been reached and something has arrived, the arrivals are given up and the frontier remembers that it
was cut. In both cases it closes: what is added afterwards is handed out in order of arrival,
without levels.
-/

namespace Joinability

/-- How a breadth-first frontier treats a level that is used up. -/
inductive Levels where
  /-- No vertex has been asked for yet. -/
  | waiting
  /-- Levels are counted. -/
  | counted
  /-- The frontier was exhausted or cut, and levels are no longer counted. -/
  | closed
deriving DecidableEq, Repr, Inhabited

/-- A frontier that hands out vertices level by level. -/
structure BreadthFirst where
  /-- The deepest level that is handed out. -/
  maxDepth : Nat
  /-- The level that is being handed out. -/
  depth : Nat := 0
  /-- How a used-up level is treated. -/
  levels : Levels := .waiting
  /-- What is left of the level that is being handed out. -/
  current : List Nat := []
  /-- The vertices that have arrived for the next level, the latest first. -/
  arrivals : List Nat := []
  /-- Whether vertices were given up because of the depth bound. -/
  cut : Bool := false
deriving DecidableEq, Repr, Inhabited

namespace BreadthFirst

/-- Adds a vertex. -/
def enqueue (q : BreadthFirst) (vertex : Nat) : BreadthFirst :=
  { q with arrivals := vertex :: q.arrivals }

/-- The waiting vertices, in order of arrival. -/
def toList (q : BreadthFirst) : List Nat := q.current ++ q.arrivals.reverse

/-- The number of vertices that wait to be handed out. -/
def size (q : BreadthFirst) : Nat := q.current.length + q.arrivals.length

/-- Hands out the first of the arrivals and makes the others the current level. -/
def promote (q : BreadthFirst) : Option Nat × BreadthFirst :=
  match q.arrivals.reverse with
  | [] => (none, q)
  | v :: vs => (some v, { q with current := vs, arrivals := [] })

/-- The vertex to expand next, if any. -/
def next (q : BreadthFirst) : Option Nat × BreadthFirst :=
  match q.current, q.levels with
  | v :: vs, _ => (some v, { q with current := vs })
  | [], .closed => q.promote
  | [], .counted =>
    if q.arrivals.isEmpty then (none, { q with levels := .closed })
    else if q.maxDepth ≤ q.depth then
      (none, { q with levels := .closed, arrivals := [], cut := true })
    else { q with depth := q.depth + 1 }.promote
  | [], .waiting =>
    if q.arrivals.isEmpty then (none, { q with levels := .closed })
    else { q with levels := .counted }.promote

/-! ## The queue -/

@[simp] theorem length_toList (q : BreadthFirst) : q.toList.length = q.size := by
  simp [toList, size]

@[simp] theorem toList_enqueue (q : BreadthFirst) (v : Nat) :
    (q.enqueue v).toList = q.toList ++ [v] := by
  simp [toList, enqueue]

theorem toList_of_promote {q r : BreadthFirst} {v : Nat} (hc : q.current = [])
    (h : q.promote = (some v, r)) : q.toList = v :: r.toList := by
  unfold promote at h
  split at h
  · simp at h
  · next hr =>
    obtain ⟨rfl, rfl⟩ := Prod.mk.inj h |>.imp Option.some.inj id
    simp [toList, hc, hr]

/-- What is handed out is the head of the queue. -/
theorem toList_of_next {q r : BreadthFirst} {v : Nat} (h : q.next = (some v, r)) :
    q.toList = v :: r.toList := by
  unfold next at h
  split at h
  · next hc =>
    obtain ⟨rfl, rfl⟩ := Prod.mk.inj h |>.imp Option.some.inj id
    simp [toList, hc]
  · next hc _ => exact toList_of_promote hc h
  · next hc _ =>
    split at h
    · simp at h
    · split at h
      · simp at h
      · simpa [toList] using toList_of_promote (by simpa using hc) h
  · next hc _ =>
    split at h
    · simp at h
    · simpa [toList] using toList_of_promote (by simpa using hc) h

theorem toList_of_next_none {q r : BreadthFirst} (h : q.next = (none, r)) : r.toList = [] := by
  unfold next promote at h
  grind [toList]

end BreadthFirst

end Joinability
