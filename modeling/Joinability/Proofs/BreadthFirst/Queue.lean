import Joinability.Proofs.Search.Progress

/-!
# The queue of a breadth-first search

Ids are issued in the order of arrival, so a breadth-first frontier hands out the vertices by their
ids, one after the other. `Skeleton.Queued` says what the queue looks like when the ids below `k`
were handed out: consecutive runs of ids for what is left of the current level and for what has
arrived since, with the depths that belong to them. The three ways in which a search uses its
frontier keep it in this form.

When nothing is handed out any more, everything that was not handed out lies deeper than the bound.
-/

namespace Joinability

variable {α τ π : Type}

/-! ## The queue -/

namespace Skeleton

variable {g : Skeleton α τ π} {focus : Option Nat} {q r : BreadthFirst} {k m : Nat}

/-- The queue while levels are counted: ids below `k` were handed out, those from `k` to `m` are
left of the current level, and those from `m` on have arrived for the next one. -/
structure Counted (g : Skeleton α τ π) (q : BreadthFirst) (k m : Nat) : Prop where
  levels : q.levels = .counted
  pos : 1 ≤ k
  le : k ≤ m
  le_size : m ≤ g.vertices.size
  depth_le : q.depth ≤ q.maxDepth
  current : q.current = List.range' k (m - k)
  arrivals : q.arrivals.reverse = List.range' m (g.vertices.size - m)
  level {i : Nat} {v : Vertex α} : g.vertices[i]? = some v → k - 1 ≤ i → i < m → v.depth = q.depth
  next {i : Nat} {v : Vertex α} : g.vertices[i]? = some v → m ≤ i → v.depth = q.depth + 1

/-- What waits in the queue, when the ids below `k` were handed out. -/
inductive Queued (g : Skeleton α τ π) (focus : Option Nat) (q : BreadthFirst) (k : Nat) : Prop
  /-- Nothing was asked for yet, and only the roots wait. -/
  | waiting (hq : q.levels = .waiting) (hk : k = 0) (hdepth : q.depth = 0)
    (hcurrent : q.current = [])
      (harrivals : q.arrivals.reverse = List.range' 0 g.vertices.size)
      (hroots : ∀ (i : Nat) (v : Vertex α), g.vertices[i]? = some v → v.depth = 0)
  /-- Levels are counted. -/
  | counted (m : Nat) (h : g.Counted q k m)
  /-- The queue was closed, and what was not handed out lies too deep. -/
  | closed (hq : q.levels = .closed) (hfocus : focus = none) (hcurrent : q.current = [])
      (harrivals : q.arrivals = [])
      (hdeep : ∀ (i : Nat) (v : Vertex α), g.vertices[i]? = some v → k ≤ i → q.maxDepth < v.depth)

theorem Counted.take (h : g.Counted q k m) {i : Nat} {vs : List Nat} (hvs : q.current = i :: vs) :
    i = k ∧ k < g.vertices.size ∧ g.Counted { q with current := vs } (k + 1) m := by
  have hsize := h.le_size
  rw [h.current, List.range'_eq_cons_iff] at hvs
  obtain ⟨rfl, hpos, rfl⟩ := hvs
  refine ⟨rfl, by omega, ⟨h.levels, by omega, by omega, hsize, h.depth_le, ?_, h.arrivals, ?_,
    h.next⟩⟩
  · rw [Nat.sub_add_eq]
  · intro j v hv hj hlt
    exact h.level hv (by omega) hlt

/-- All ids from `i` on belong to the level that begins with the arrivals `i :: vs`. -/
theorem counted_of_arrivals {i : Nat} {vs : List Nat}
    (hrev : i :: vs = List.range' k (g.vertices.size - k)) (hlevels : r.levels = .counted)
    (hdepth : r.depth ≤ r.maxDepth) (hcurrent : r.current = vs) (harrivals : r.arrivals = [])
    (hlevel : ∀ (j : Nat) (v : Vertex α), g.vertices[j]? = some v → k ≤ j → v.depth = r.depth) :
    i = k ∧ k < g.vertices.size ∧ g.Counted r (k + 1) g.vertices.size := by
  obtain ⟨rfl, hpos, rfl⟩ := List.range'_eq_cons_iff.mp hrev.symm
  refine ⟨rfl, by omega, ⟨hlevels, by omega, by omega, Nat.le_refl _, hdepth, ?_, ?_, ?_, ?_⟩⟩
  · rw [hcurrent, Nat.sub_add_eq]
  · rw [harrivals, Nat.sub_self]
    rfl
  · intro j v hv hj _
    exact hlevel j v hv hj
  · intro j v hv hj
    exact absurd (Array.getElem?_eq_some_iff.mp hv).1 (Nat.not_lt.mpr hj)

/-- What is handed out is the vertex with the next id. -/
theorem Queued.take (h : g.Queued none q k) {i : Nat} (hnext : q.next = (some i, r)) :
    i = k ∧ k < g.vertices.size ∧ r.maxDepth = q.maxDepth ∧ g.Queued (some i) r (k + 1) := by
  rcases BreadthFirst.next_eq_some_cases hnext with ⟨vs, hvs, rfl⟩ | ⟨hc, vs, hrev, hcase⟩
  · rcases h with ⟨-, -, -, hc, -, -⟩ | ⟨m, hm⟩ | ⟨-, -, hc, -, -⟩
    · exact absurd (hvs.symm.trans hc) (by simp)
    · obtain ⟨hi, hlt, hcounted⟩ := hm.take hvs
      exact ⟨hi, hlt, rfl, .counted m hcounted⟩
    · exact absurd (hvs.symm.trans hc) (by simp)
  · rcases h with ⟨hq, rfl, hdepth, -, harr, hroots⟩ | ⟨m, hm⟩ | ⟨-, -, -, harr, -⟩
    · rcases hcase with ⟨hq', -⟩ | ⟨hq', -, -⟩ | ⟨-, rfl⟩
      · exact absurd (hq.symm.trans hq') (by decide)
      · exact absurd (hq.symm.trans hq') (by decide)
      · have hbound : q.depth ≤ q.maxDepth := by
          rw [hdepth]
          exact Nat.zero_le _
        obtain ⟨hi, hlt, hcounted⟩ := counted_of_arrivals
          (r := { q with levels := .counted, current := vs, arrivals := [] })
          (hrev.symm.trans harr) rfl hbound rfl rfl
          fun j v hv _ ↦ (hroots j v hv).trans hdepth.symm
        exact ⟨hi, hlt, rfl, .counted _ hcounted⟩
    · have hlevels := hm.levels
      rw [hm.current, List.range'_eq_nil_iff] at hc
      obtain rfl : m = k := by have := hm.le; omega
      rcases hcase with ⟨hq', -⟩ | ⟨-, hdepth, rfl⟩ | ⟨hq', -⟩
      · exact absurd (hlevels.symm.trans hq') (by decide)
      · -- what had arrived is the level that begins
        obtain ⟨hi, hlt, hcounted⟩ := counted_of_arrivals
          (r := { q with depth := q.depth + 1, current := vs, arrivals := [] })
          (hrev.symm.trans hm.arrivals) hlevels hdepth rfl rfl fun j v hv hj ↦ hm.next hv hj
        exact ⟨hi, hlt, rfl, .counted _ hcounted⟩
      · exact absurd (hlevels.symm.trans hq') (by decide)
    · rw [harr] at hrev
      exact absurd hrev (by simp)

theorem Queued.release (h : g.Queued focus q k) : g.Queued none q k := by
  rcases h with ⟨hq, hk, hdepth, hc, harr, hroots⟩ | ⟨m, hm⟩ | ⟨hq, -, hc, harr, hdeep⟩
  · exact .waiting hq hk hdepth hc harr hroots
  · exact .counted m hm
  · exact .closed hq rfl hc harr hdeep

/-- When nothing is handed out, the queue closes. -/
theorem Queued.dry (h : g.Queued none q k) (hnext : q.next = (none, r)) :
    r.maxDepth = q.maxDepth ∧ r.levels = .closed ∧ g.Queued none r k := by
  obtain ⟨hc', harr', hclosed, hmax⟩ := BreadthFirst.closed_of_next_none hnext
  obtain ⟨hc, hwhy⟩ := BreadthFirst.next_eq_none_cases hnext
  refine ⟨hmax, hclosed, .closed hclosed rfl hc' harr' ?_⟩
  intro i v hv hi
  have hsize : i < g.vertices.size := (Array.getElem?_eq_some_iff.mp hv).1
  rw [hmax]
  rcases h with ⟨hq, rfl, -, -, harr, -⟩ | ⟨m, hm⟩ | ⟨-, -, -, -, hdeep⟩
  · rcases hwhy with ⟨hnil, -⟩ | ⟨-, hq', -⟩
    · rw [hnil, List.reverse_nil, eq_comm, List.range'_eq_nil_iff] at harr
      omega
    · rw [hq] at hq'
      exact absurd hq' (by simp)
  · rw [hm.current, List.range'_eq_nil_iff] at hc
    have hle := hm.le
    rcases hwhy with ⟨hnil, -⟩ | ⟨-, -, hdepth, -⟩
    · have harr := hm.arrivals
      rw [hnil, List.reverse_nil, eq_comm, List.range'_eq_nil_iff] at harr
      omega
    · have hnext := hm.next hv (by omega)
      omega
  · exact hdeep i v hv hi

/-- A child of the vertex in focus arrives for the next level. -/
theorem Queued.grow {p : Vertex α} (h : g.Queued (some p.id) q k) (hp : g.vertices[p.id]? = some p)
    (hk : p.id + 1 = k) {t : Term α} {tokens : List Nat} {use : RuleUse} {recipe : Option τ}
    (hdepth : (g.child p t tokens).depth = p.depth + 1) :
    (g.withChild p t tokens use recipe).Queued (some p.id) (q.enqueue g.vertices.size) k := by
  rcases h with ⟨-, rfl, -⟩ | ⟨m, hm⟩ | ⟨-, hfocus, -⟩
  · exact absurd hk (Nat.succ_ne_zero _)
  · have hle := hm.le
    have hle_size := hm.le_size
    have hgrown : (g.withChild p t tokens use recipe).vertices.size = g.vertices.size + 1 :=
      Array.size_push _
    refine .counted m ⟨hm.levels, hm.pos, hm.le, by omega, hm.depth_le, hm.current, ?_,
      ?_, ?_⟩
    · rw [hgrown, Nat.sub_add_comm hle_size, List.range'_1_concat, BreadthFirst.enqueue,
        List.reverse_cons, hm.arrivals, Nat.add_sub_cancel' hle_size]
    · intro i v hv hj hlt
      rcases of_getElem?_push hv with ⟨rfl, -⟩ | hv
      · omega
      · exact hm.level hv hj hlt
    · intro i v hv hj
      rcases of_getElem?_push hv with ⟨-, rfl⟩ | hv
      · rw [hdepth, hm.level hp (by omega) (by omega)]
        rfl
      · exact hm.next hv hj
  · exact absurd hfocus (by simp)

end Skeleton

end Joinability
