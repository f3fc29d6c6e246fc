import Mathlib.Data.List.Nodup
import Joinability.Proofs.Events.Portrait

/-!
# Chronicles of events

What is reported of a search follows a pattern. It comes in *beats*: nothing at all, a vertex that
has been visited, a duplicate, a new vertex together with its parent edge, or the edge at which the
sides meet. `Portrait.Beat` says which beats may be drawn over a portrait, and a `Chronicle` is a
sequence of them from two roots on.

What holds of chronicles is read off the beats, without a search in sight. New vertices and edges
come in the order of their ids, a new vertex is followed by its parent edge at once, no vertex is
reported to be visited twice, and no edge follows the one at which the sides meet.
-/

namespace Joinability

variable {α : Type}

/-! ## What an event says -/

namespace Event

/-- The vertex that was added, if the event says so. -/
@[simp] def vertex? : Event α → Option (Vertex α)
  | vertexAdded v => some v
  | _ => none

/-- The edge that was added, if the event says so. -/
@[simp] def arc? : Event α → Option Arc
  | edgeAdded a => some a
  | _ => none

/-- The id of the vertex that was visited, if the event says so. -/
@[simp] def exhausted? : Event α → Option Nat
  | vertexExhausted v => some v.id
  | _ => none

/-- Whether a reduct was a vertex of the same side. -/
def isDuplicate : Event α → Bool
  | duplicateDiscarded .. => true
  | _ => false

/-- Whether the event is neither the start nor the end of a search. -/
def isInner : Event α → Bool
  | started .. | finished .. => false
  | _ => true

end Event

namespace Portrait

/-- Whether the vertex with an id has been visited. -/
def visited (g : Portrait α) (i : Nat) : Bool := g.vertices[i]?.any Vertex.visited

theorem visited_receive (a : Arc) (v : Vertex α) : (v.receive a).visited = v.visited := by
  unfold Vertex.receive
  split <;> rfl

theorem visited_edgeAdded (g : Portrait α) (a : Arc) :
    (g.note (.edgeAdded a)).visited = g.visited := by
  funext i
  rw [visited, visited, note, connect]
  dsimp only
  rw [Array.getElem?_modify, Array.getElem?_modify]
  rcases g.vertices[i]? with _ | v
  · split <;> split <;> rfl
  · split <;> split <;> simp [visited_receive, Vertex.leave]

theorem visited_vertexAdded (g : Portrait α) (v : Vertex α) (i : Nat) :
    (g.note (.vertexAdded v)).visited i =
      if i = g.vertices.size then v.visited else g.visited i := by
  rw [visited, note]
  dsimp only
  rw [Array.getElem?_push]
  split <;> rfl

theorem visited_vertexExhausted (g : Portrait α) (v : Vertex α) (i : Nat) :
    (g.note (.vertexExhausted v)).visited i
      = if v.id = i then g.vertices[i]?.isSome else g.visited i := by
  rw [visited, note]
  dsimp only
  rw [Array.getElem?_modify]
  split
  · cases g.vertices[i]? <;> rfl
  · rfl

/-! ## Beats -/

/-- `g.Beat events g'`: the events are what may be reported at once over the portrait `g`, and they
lead to the portrait `g'`. -/
inductive Beat (g : Portrait α) : List (Event α) → Portrait α → Prop
  /-- Nothing is reported. -/
  | silence : Beat g [] g
  /-- Every reduct of a vertex has been tried. -/
  | exhausted {u v : Vertex α} (hu : g.vertices[v.id]? = some u) (hvisited : u.visited = false) :
      Beat g [.vertexExhausted v] (g.note (.vertexExhausted v))
  /-- A reduct was a vertex of the same side. -/
  | duplicate (source existing : Vertex α) (use : RuleUse) :
      Beat g [.duplicateDiscarded source existing use]
        (g.note (.duplicateDiscarded source existing use))
  /-- A vertex with the next id was added, and hangs by the next edge. -/
  | child {v : Vertex α} {a : Arc} (hopen : g.meeting = none) (hid : v.id = g.vertices.size)
      (harc : a.id = g.arcs.size) (hparent : v.parentEdge = some a.id) (htarget : a.target = v.id)
      (hvisited : v.visited = false) :
      Beat g [.vertexAdded v, .edgeAdded a] ((g.note (.vertexAdded v)).note (.edgeAdded a))
  /-- The sides meet at the next edge. -/
  | meeting {a : Arc} (hopen : g.meeting = none) (harc : a.id = g.arcs.size) :
      Beat g [.edgeAdded a] (g.note (.edgeAdded a))

namespace Beat

variable {g g' : Portrait α} {events : List (Event α)}

theorem foldl_eq (h : g.Beat events g') : events.foldl note g = g' := by
  cases h <;> rfl

theorem isInner (h : g.Beat events g') : ∀ event ∈ events, event.isInner = true := by
  cases h <;> simp [Event.isInner]

theorem followed (h : g.Beat events g') {before after : List (Event α)} {v : Vertex α}
    (hsplit : events = before ++ .vertexAdded v :: after) :
    ∃ a, after = [.edgeAdded a] ∧ v.parentEdge = some a.id ∧ a.target = v.id := by
  cases h with
  | @child u a _ _ _ hparent htarget _ =>
    rcases List.cons_eq_append_iff.mp hsplit with ⟨-, hnow⟩ | ⟨l, -, hlater⟩
    · obtain ⟨⟨⟩, rfl⟩ := List.cons_eq_cons.mp hnow
      exact ⟨a, rfl, hparent, htarget⟩
    · exact absurd hlater (by simp [List.cons_eq_append_iff])
  | silence | exhausted | duplicate | meeting =>
    exact absurd hsplit (by simp [List.cons_eq_append_iff])

end Beat

end Portrait

/-! ## Chronicles -/

/-- `Chronicle left right events g`: the events are reported beat by beat from two roots on, and `g`
is the portrait that they give. -/
inductive Chronicle (left right : Vertex α) : List (Event α) → Portrait α → Prop
  | opening (hleft : left.visited = false) (hright : right.visited = false) :
      Chronicle left right [] { vertices := #[left, right] }
  | beat {events more : List (Event α)} {g g' : Portrait α} (h : Chronicle left right events g)
      (hbeat : g.Beat more g') : Chronicle left right (events ++ more) g'

namespace Chronicle

variable {left right : Vertex α} {events : List (Event α)} {g : Portrait α}

theorem replay_eq (h : Chronicle left right events g) : replay left right events = g := by
  induction h with
  | opening _ _ => rfl
  | beat _ hbeat ih => rw [replay, List.foldl_append, ← replay, ih, hbeat.foldl_eq]

theorem isInner (h : Chronicle left right events g) : ∀ event ∈ events, event.isInner = true := by
  induction h with
  | opening _ _ => simp
  | beat _ hbeat ih =>
    intro event hevent
    rcases List.mem_append.mp hevent with hevent | hevent
    · exact ih event hevent
    · exact hbeat.isInner event hevent

/-! ### Vertices and edges in the order of their ids -/

theorem added (h : Chronicle left right events g) :
    2 ≤ g.vertices.size ∧
      (events.filterMap Event.vertex?).map Vertex.id = List.range' 2 (g.vertices.size - 2) := by
  induction h with
  | opening _ _ => exact ⟨Nat.le_refl 2, rfl⟩
  | @beat events more g g' _ hbeat ih =>
    obtain ⟨hsize, hids⟩ := ih
    rw [List.filterMap_append, List.map_append, hids]
    cases hbeat with
    | silence | duplicate => exact ⟨hsize, List.append_nil _⟩
    | exhausted =>
      rw [Portrait.size_vertexExhausted]
      exact ⟨hsize, List.append_nil _⟩
    | meeting =>
      rw [Portrait.size_edgeAdded]
      exact ⟨hsize, List.append_nil _⟩
    | @child v a _ hid =>
      have hnext : g.vertices.size + 1 - 2 = g.vertices.size - 2 + 1 := by omega
      have hlast : v.id = 2 + 1 * (g.vertices.size - 2) := by omega
      rw [Portrait.size_edgeAdded, Portrait.size_vertexAdded, hnext, List.range'_concat, ← hlast]
      exact ⟨Nat.le_succ_of_le hsize, rfl⟩

theorem arcs (h : Chronicle left right events g) : events.filterMap Event.arc? = g.arcs.toList ∧
    (events.filterMap Event.arc?).map Arc.id = List.range g.arcs.size := by
  induction h with
  | opening _ _ => exact ⟨rfl, rfl⟩
  | @beat events more g g' _ hbeat ih =>
    obtain ⟨harcs, hids⟩ := ih
    rw [List.filterMap_append, List.map_append, hids, harcs]
    cases hbeat with
    | silence | duplicate | exhausted => exact ⟨List.append_nil _, List.append_nil _⟩
    | child _ _ harc | meeting _ harc =>
      simp [List.filterMap_cons, harc, List.range_succ]

/-- The edge at which the sides meet is reported last. -/
theorem meeting (h : Chronicle left right events g) {m : Nat} (hm : g.meeting = some m) :
    ∃ a, (events.filterMap Event.arc?).getLast? = some a ∧ a.id = m := by
  induction h with
  | opening _ _ => exact absurd hm (by simp)
  | @beat events more g g' _ hbeat ih =>
    rw [List.filterMap_append]
    cases hbeat with
    | silence | duplicate | exhausted =>
      obtain ⟨a, ha, hid⟩ := ih hm
      exact ⟨a, by simpa [List.filterMap_cons] using ha, hid⟩
    | @child v a hopen | @meeting a hopen =>
      exact ⟨a, by simp [List.filterMap_cons], Portrait.eq_id_of_meeting _ a hm hopen⟩

/-- **A new vertex is followed by its parent edge at once.** -/
theorem followed (h : Chronicle left right events g) {before after : List (Event α)} {v : Vertex α}
    (hsplit : events = before ++ .vertexAdded v :: after) :
    ∃ a rest, after = .edgeAdded a :: rest ∧ v.parentEdge = some a.id ∧ a.target = v.id := by
  induction h generalizing before after with
  | opening _ _ => exact absurd hsplit (by simp)
  | @beat events more g g' _ hbeat ih =>
    rcases List.append_eq_append_iff.mp hsplit with ⟨l, -, hlast⟩ | ⟨l, hevents, hrest⟩
    · obtain ⟨a, rfl, ha⟩ := hbeat.followed hlast
      exact ⟨a, [], rfl, ha⟩
    · rcases List.cons_eq_append_iff.mp hrest with ⟨-, hlast⟩ | ⟨l, rfl, rfl⟩
      · obtain ⟨a, rfl, ha⟩ := hbeat.followed (hlast.trans (List.nil_append _).symm)
        exact ⟨a, [], rfl, ha⟩
      · obtain ⟨a, rest, rfl, ha⟩ := ih hevents
        exact ⟨a, rest ++ more, rfl, ha⟩

/-! ### What has been visited -/

theorem mem_exhausted_iff (h : Chronicle left right events g) (i : Nat) :
    i ∈ events.filterMap Event.exhausted? ↔ g.visited i = true := by
  induction h with
  | opening hleft hright =>
    match i with
    | 0 => simp [Portrait.visited, hleft]
    | 1 => simp [Portrait.visited, hright]
    | i + 2 => simp [Portrait.visited]
  | @beat events more g g' _ hbeat ih =>
    rw [List.filterMap_append, List.mem_append, ih]
    cases hbeat with
    | silence | duplicate => exact or_iff_left (List.not_mem_nil)
    | @exhausted u v hu _ =>
      rw [Portrait.visited_vertexExhausted]
      by_cases hi : v.id = i
      · rw [if_pos hi, ← hi, hu]
        simp
      · rw [if_neg hi]
        simp [Ne.symm hi]
    | @child v a _ _ _ _ _ hvisited =>
      rw [Portrait.visited_edgeAdded, Portrait.visited_vertexAdded]
      by_cases hi : i = g.vertices.size
      · rw [if_pos hi, hvisited, hi]
        simp [List.filterMap_cons, Portrait.visited]
      · rw [if_neg hi]
        simp [List.filterMap_cons]
    | meeting =>
      rw [Portrait.visited_edgeAdded]
      simp

theorem nodup_exhausted (h : Chronicle left right events g) :
    (events.filterMap Event.exhausted?).Nodup := by
  induction h with
  | opening _ _ => exact List.nodup_nil
  | @beat events more g g' h hbeat ih =>
    rw [List.filterMap_append]
    cases hbeat with
    | silence | duplicate | child | meeting =>
      simpa [List.filterMap_cons] using ih
    | @exhausted u v hu hvisited =>
      -- a vertex that was reported before would have been visited by now
      have hfresh : v.id ∉ events.filterMap Event.exhausted? := by
        rw [h.mem_exhausted_iff, Portrait.visited, hu]
        simp [hvisited]
      have hnodup := List.Nodup.concat hfresh ih
      rwa [List.concat_eq_append] at hnodup

theorem duplicates (h : Chronicle left right events g) :
    events.countP Event.isDuplicate = g.duplicates := by
  induction h with
  | opening _ _ => rfl
  | beat _ hbeat ih =>
    rw [List.countP_append, ih]
    cases hbeat <;> rfl

end Chronicle

end Joinability
