/-!
# By score

A best-first frontier hands out the vertex with the lowest score, and among equals the one that
arrived first. Vertices below the depth bound are turned away on arrival, and the frontier remembers
that it was cut.

Entries are kept in the order in which they will be handed out: an arrival takes its place behind
every entry whose score is not higher. The list is thereby sorted by score, and stably so.
-/

namespace Joinability

/-- A vertex that waits in a best-first frontier. -/
structure Scored (κ : Type) where
  /-- The score at the time of arrival. -/
  score : κ
  /-- The id of the vertex. -/
  vertex : Nat
  /-- The depth of the vertex. -/
  depth : Nat
deriving DecidableEq, Repr, Inhabited

/-- A frontier that hands out the vertices with the lowest scores first. -/
structure BestFirst (κ : Type) where
  /-- The greatest depth that is admitted. -/
  maxDepth : Nat
  /-- The depth of the vertex that was handed out last. -/
  depth : Nat := 0
  /-- The waiting vertices, in the order in which they will be handed out. -/
  waiting : List (Scored κ) := []
  /-- Whether vertices were turned away because of the depth bound. -/
  cut : Bool := false
deriving DecidableEq, Repr, Inhabited

namespace BestFirst

variable {κ : Type}

/-- Puts an entry behind every entry whose score is not higher. -/
def place [LT κ] [DecidableLT κ] (e : Scored κ) : List (Scored κ) → List (Scored κ)
  | [] => [e]
  | f :: rest => if e.score < f.score then e :: f :: rest else f :: place e rest

/-- Adds a vertex, whose score is only computed if the depth is admitted. -/
def enqueue [LT κ] [DecidableLT κ] (q : BestFirst κ) (score : Unit → κ) (vertex depth : Nat) :
    BestFirst κ :=
  if q.maxDepth < depth then { q with cut := true }
  else { q with waiting := place { score := score (), vertex, depth } q.waiting }

/-- The waiting vertices, in the order in which they will be handed out. -/
def toList (q : BestFirst κ) : List Nat := q.waiting.map (·.vertex)

/-- The number of vertices that wait to be handed out. -/
def size (q : BestFirst κ) : Nat := q.waiting.length

/-- The vertex to expand next, if any. -/
def next (q : BestFirst κ) : Option Nat × BestFirst κ :=
  match q.waiting with
  | [] => (none, q)
  | e :: rest => (some e.vertex, { q with depth := e.depth, waiting := rest })

/-! ## The sorted list -/

@[simp] theorem length_toList (q : BestFirst κ) : q.toList.length = q.size := by
  simp [toList, size]

theorem place_perm [LT κ] [DecidableLT κ] (e : Scored κ) (l : List (Scored κ)) :
    (place e l).Perm (e :: l) := by
  induction l with
  | nil => exact List.Perm.refl _
  | cons f rest ih =>
    unfold place
    split
    · exact List.Perm.refl _
    · exact (ih.cons f).trans (List.Perm.swap e f rest)

theorem toList_of_next {q r : BestFirst κ} {v : Nat} (h : q.next = (some v, r)) :
    q.toList = v :: r.toList := by
  unfold next at h
  split at h
  · simp at h
  · next hw =>
    obtain ⟨rfl, rfl⟩ := Prod.mk.inj h |>.imp Option.some.inj id
    simp [toList, hw]

theorem toList_of_next_none {q r : BestFirst κ} (h : q.next = (none, r)) : r.toList = [] := by
  unfold next at h
  grind [toList]

end BestFirst

end Joinability
