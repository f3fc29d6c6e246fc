import Joinability.Proofs.Search.Frontier

/-!
# Levels told apart by marks

A breadth-first frontier needs no second list to tell levels apart. It can also be a single queue,
in which a mark stands behind the last vertex of the level that is being handed out. When the mark
comes to the front, the level is used up; the frontier goes down by one and puts a new mark behind
all that has arrived by then. `MarkedQueue` is the frontier in this form, with the loop that takes
marks off its front.

## The two forms

The lists of a `BreadthFirst` are the parts of such a queue: what is left of the level, the mark,
and the arrivals. There is no mark before the first request, nor after the levels have been closed.
`BreadthFirst.marked` writes a frontier as a marked queue, and every call does the same to both
(`BreadthFirst.marked_enqueue`, `BreadthFirst.marked_next`). The only states for which that would
fail have a level that is being handed out before anything was asked for, and no calls lead to one.
So whatever is done with the two, they give the same answers: **`BreadthFirst.run_marked`**.
-/

namespace Joinability

/-- A frontier that keeps its levels apart by marks. -/
structure MarkedQueue where
  /-- The deepest level that is handed out. -/
  maxDepth : Nat
  /-- The level that is being handed out. -/
  depth : Nat := 0
  /-- Whether a vertex has been asked for. -/
  started : Bool := false
  /-- The waiting vertices, and nothing where a mark stands. -/
  entries : List (Option Nat) := []
  /-- Whether vertices were given up because of the depth bound. -/
  cut : Bool := false
deriving DecidableEq, Repr

/-- What is done with a breadth-first frontier. -/
inductive BreadthFirst.Call where
  /-- A vertex is added. -/
  | enqueue (vertex : Nat)
  /-- A vertex is asked for. -/
  | next

namespace MarkedQueue

/-- Adds a vertex. -/
def enqueue (q : MarkedQueue) (vertex : Nat) : MarkedQueue :=
  { q with entries := q.entries ++ [some vertex] }

/-- Takes entries off the front until there is a vertex among them. -/
def take (q : MarkedQueue) : Option Nat × MarkedQueue :=
  match q.entries with
  | [] => (none, q)
  | some v :: rest => (some v, { q with entries := rest })
  | none :: [] => (none, { q with entries := [] })
  | none :: entry :: rest =>
    if q.maxDepth ≤ q.depth then (none, { q with entries := [], cut := true })
    else take { q with depth := q.depth + 1, entries := entry :: rest ++ [none] }
termination_by q.maxDepth - q.depth

/-- The vertex to expand next, if any. The first request puts a mark behind the roots. -/
def next (q : MarkedQueue) : Option Nat × MarkedQueue :=
  if q.started then q.take
  else { q with started := true, entries := q.entries ++ [none] }.take

/-- The number of vertices that wait to be handed out. -/
def size (q : MarkedQueue) : Nat := q.entries.countP Option.isSome

/-- The answers to the requests among some calls, and the frontier after them. -/
def run (q : MarkedQueue) : List BreadthFirst.Call → List (Option Nat) × MarkedQueue
  | [] => ([], q)
  | .enqueue v :: calls => (q.enqueue v).run calls
  | .next :: calls => (q.next.2.run calls).map (q.next.1 :: ·) id

variable {q : MarkedQueue} {v : Nat} {rest : List (Option Nat)}

theorem next_of_started (h : q.started = true) : q.next = q.take := if_pos h

theorem next_of_not_started (h : q.started = false) :
    q.next = { q with started := true, entries := q.entries ++ [none] }.take :=
  if_neg (by simp [h])

theorem take_nil (h : q.entries = []) : q.take = (none, q) := by
  rw [take, h]

theorem take_vertex (h : q.entries = some v :: rest) :
    q.take = (some v, { q with entries := rest }) := by
  rw [take, h]

theorem take_mark (h : q.entries = [none]) : q.take = (none, { q with entries := [] }) := by
  rw [take, h]

theorem take_mark_cut (h : q.entries = none :: some v :: rest) (hdepth : q.maxDepth ≤ q.depth) :
    q.take = (none, { q with entries := [], cut := true }) := by
  rw [take, h]
  exact if_pos hdepth

theorem take_mark_vertex (h : q.entries = none :: some v :: rest) (hdepth : q.depth < q.maxDepth) :
    q.take = (some v, { q with depth := q.depth + 1, entries := rest ++ [none] }) := by
  rw [take, h]
  simp only [if_neg (Nat.not_le_of_lt hdepth)]
  exact take_vertex rfl

end MarkedQueue

/-- The mark at the end of the level that is being handed out, if there is one. -/
def Levels.mark : Levels → List (Option Nat)
  | counted => [none]
  | waiting | closed => []

namespace BreadthFirst

variable {q r : BreadthFirst} {v : Nat}

/-- The waiting vertices, with the mark between the level that is being handed out and the next. -/
def entries (q : BreadthFirst) : List (Option Nat) :=
  q.current.map some ++ q.levels.mark ++ q.arrivals.reverse.map some

/-- The frontier as a marked queue. -/
def marked (q : BreadthFirst) : MarkedQueue :=
  { maxDepth := q.maxDepth, depth := q.depth, started := decide (q.levels ≠ .waiting)
    entries := q.entries, cut := q.cut }

/-- The answers to the requests among some calls, and the frontier after them. -/
def run (q : BreadthFirst) : List Call → List (Option Nat) × BreadthFirst
  | [] => ([], q)
  | .enqueue v :: calls => (q.enqueue v).run calls
  | .next :: calls => (q.next.2.run calls).map (q.next.1 :: ·) id

/-- No level is being handed out before something was asked for. -/
def StartsEmpty (q : BreadthFirst) : Prop := q.levels = .waiting → q.current = []

theorem size_marked (q : BreadthFirst) : q.marked.size = q.size := by
  have hvertices (l : List Nat) : (l.map some).countP Option.isSome = l.length := by
    induction l with
    | nil => rfl
    | cons v l ih => rw [List.map_cons, List.countP_cons_of_pos rfl, ih, List.length_cons]
  have hmark : q.levels.mark.countP Option.isSome = 0 := by
    rcases q.levels <;> rfl
  rw [MarkedQueue.size, marked, entries, List.countP_append, List.countP_append, hvertices,
    hvertices, hmark, List.length_reverse]
  rfl

theorem marked_enqueue (q : BreadthFirst) (v : Nat) :
    (q.enqueue v).marked = q.marked.enqueue v := by
  have hentries : (q.enqueue v).entries = q.entries ++ [some v] := by
    rw [entries, enqueue, List.reverse_cons, List.map_append, ← List.append_assoc]
    rfl
  rw [marked, hentries]
  rfl

theorem StartsEmpty.enqueue (h : q.StartsEmpty) (v : Nat) : (q.enqueue v).StartsEmpty := h

theorem next_marked (h : q.levels ≠ .waiting) : q.marked.next = q.marked.take :=
  MarkedQueue.next_of_started (decide_eq_true h)

/-- The first request puts the mark behind the roots. -/
theorem next_marked_of_waiting (h : q.levels = .waiting) :
    q.marked.next = { q.marked with started := true, entries := q.entries ++ [none] }.take :=
  MarkedQueue.next_of_not_started (by simp [marked, h])

theorem marked_next_of_some (h : q.StartsEmpty) (hnext : q.next = (some v, r)) :
    q.marked.next = (some v, r.marked) := by
  obtain ⟨vs, hvs, rfl⟩ | ⟨hc, vs, hrev, hcase⟩ := next_eq_some_cases hnext
  · have hstarted : q.levels ≠ .waiting := fun hlevels ↦ by simp [h hlevels] at hvs
    have hentries : q.entries = some v :: (vs.map some ++ q.levels.mark ++
        q.arrivals.reverse.map some) := by
      rw [entries, hvs]
      rfl
    rw [next_marked hstarted, MarkedQueue.take_vertex hentries]
    rfl
  · have hentries : q.entries = q.levels.mark ++ some v :: vs.map some := by
      rw [entries, hc, hrev]
      rfl
    obtain ⟨hlevels, rfl⟩ | ⟨hlevels, hdepth, rfl⟩ | ⟨hlevels, rfl⟩ := hcase
    all_goals rw [hlevels] at hentries
    · rw [next_marked (by simp [hlevels]), MarkedQueue.take_vertex hentries]
      simp [marked, entries, Levels.mark, hlevels]
    · rw [next_marked (by simp [hlevels]), MarkedQueue.take_mark_vertex hentries hdepth]
      simp [marked, entries, Levels.mark, hlevels]
    · have hmark : q.entries ++ [none] = some v :: (vs.map some ++ [none]) :=
        congrArg (· ++ [none]) hentries
      rw [next_marked_of_waiting hlevels, MarkedQueue.take_vertex hmark]
      simp [marked, entries, Levels.mark]

theorem marked_next_of_none (hnext : q.next = (none, r)) : q.marked.next = (none, r.marked) := by
  obtain ⟨hc, ⟨harrivals, rfl⟩ | ⟨harrivals, hlevels, hdepth, rfl⟩⟩ := next_eq_none_cases hnext
  · have hentries : q.entries = q.levels.mark := by
      rw [entries, hc, harrivals]
      exact List.append_nil _
    rcases hlevels : q.levels with _ | _ | _
    all_goals rw [hlevels] at hentries
    · rw [next_marked_of_waiting hlevels, MarkedQueue.take_mark (congrArg (· ++ [none]) hentries)]
      simp [marked, entries, Levels.mark, hc, harrivals]
    · rw [next_marked (by simp [hlevels]), MarkedQueue.take_mark hentries]
      simp [marked, entries, Levels.mark, hc, harrivals, hlevels]
    · rw [next_marked (by simp [hlevels]), MarkedQueue.take_nil hentries]
      simp [marked, entries, Levels.mark, hc, harrivals, hlevels]
  · obtain ⟨v, vs, hrev⟩ := List.exists_cons_of_ne_nil (List.reverse_ne_nil_iff.mpr harrivals)
    have hentries : q.entries = none :: some v :: vs.map some := by
      rw [entries, hc, hlevels, hrev]
      rfl
    rw [next_marked (by simp [hlevels]), MarkedQueue.take_mark_cut hentries hdepth]
    simp [marked, entries, Levels.mark, hc, hlevels]

/-- **A request does the same to both forms of a frontier.** -/
theorem marked_next (h : q.StartsEmpty) : q.marked.next = (q.next.1, q.next.2.marked) := by
  rcases hnext : q.next with ⟨_ | v, r⟩
  · exact marked_next_of_none hnext
  · exact marked_next_of_some h hnext

theorem StartsEmpty.next (h : q.StartsEmpty) : q.next.2.StartsEmpty := by
  rcases hnext : q.next with ⟨_ | v, r⟩
  · exact fun _ ↦ (closed_of_next_none hnext).1
  · intro hwaiting
    obtain ⟨vs, hvs, rfl⟩ | ⟨-, vs, -, ⟨hlevels, rfl⟩ | ⟨hlevels, -, rfl⟩ | ⟨-, rfl⟩⟩ :=
      next_eq_some_cases hnext
    · exact absurd (hvs.symm.trans (h hwaiting)) (by simp)
    · exact absurd (hlevels.symm.trans hwaiting) (by simp)
    · exact absurd (hlevels.symm.trans hwaiting) (by simp)
    · exact absurd hwaiting (by simp)

theorem marked_run (h : q.StartsEmpty) (calls : List Call) :
    q.marked.run calls = (q.run calls).map id marked := by
  induction calls generalizing q with
  | nil => rfl
  | cons call calls ih =>
    rcases call with v | _
    · rw [run, MarkedQueue.run, ← marked_enqueue, ih (h.enqueue v)]
    · rw [run, MarkedQueue.run, marked_next h, ih h.next]
      rfl

/-- **Marks instead of lists.** However vertices are added and asked for, the queue with marks gives
the same answers. The depth that it has come to is the same after the calls, as many vertices wait,
and both have been cut or neither has. -/
theorem run_marked (maxDepth : Nat) (calls : List Call) :
    let (answers, q) := ({ maxDepth } : BreadthFirst).run calls
    let (answers', m) := ({ maxDepth } : MarkedQueue).run calls
    answers' = answers ∧ m = q.marked ∧ m.depth = q.depth ∧ m.size = q.size ∧ m.cut = q.cut := by
  have hempty : ({ maxDepth } : BreadthFirst).StartsEmpty := fun _ ↦ rfl
  obtain ⟨hanswers, hlast⟩ := Prod.mk.inj (marked_run hempty calls)
  exact ⟨hanswers, hlast, congrArg MarkedQueue.depth hlast,
    (congrArg MarkedQueue.size hlast).trans (size_marked _), congrArg MarkedQueue.cut hlast⟩

end BreadthFirst

end Joinability
