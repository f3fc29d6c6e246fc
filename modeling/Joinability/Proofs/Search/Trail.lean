import Joinability.Graph.Route
import Joinability.Proofs.Search.Move

/-!
# From the root to a vertex

Following parent edges, the library climbs from a vertex to a root, with a bound on the number of
edges that keeps a corrupt graph from holding it for ever. In the forest of a search there is
nothing to guard against: every vertex has a trail, which is as long as the vertex is deep and no
longer than there are vertices, and climbing lists its edges from the root on.
-/

namespace Joinability

variable {α τ π : Type}

namespace Skeleton

/-- The edges of `path` lead from a root to the vertex `v`, by parent edges. -/
inductive Trail (k : Skeleton α τ π) : Vertex α → List Nat → Prop
  | root {v : Vertex α} (hv : k.vertices[v.id]? = some v) (h : v.isRoot = true) : Trail k v []
  | child {e : Edge τ π} {p v : Vertex α} {path : List Nat} (hp : Trail k p path)
      (hv : k.vertices[v.id]? = some v) (h : k.Hangs e p v) : Trail k v (path ++ [e.id])

variable {k : Skeleton α τ π} {v : Vertex α} {path : List Nat}

theorem IsForest.isRoot_iff (h : k.IsForest) {i : Nat} (hv : k.vertices[i]? = some v) :
    v.isRoot = true ↔ i = v.side.root := by
  constructor
  · intro hroot
    by_cases hi : 2 ≤ i
    · obtain ⟨e, p, hp⟩ := h.hangs hv hi
      rw [hp.notRoot] at hroot
      exact absurd hroot (by simp)
    · obtain ⟨s, rfl⟩ := Side.exists_root_eq (Nat.lt_of_not_le hi)
      obtain ⟨w, hw, -, hs, -⟩ := h.root s
      obtain rfl := Option.some.inj (hv.symm.trans hw)
      rw [hs]
  · rintro rfl
    obtain ⟨w, hw, hroot, -⟩ := h.root v.side
    rwa [Option.some.inj (hv.symm.trans hw)]

theorem IsForest.exists_trail (h : k.IsForest) {i : Nat} (hv : k.vertices[i]? = some v) :
    ∃ path, k.Trail v path := by
  induction i using Nat.strongRecOn generalizing v with
  | ind i ih =>
    obtain rfl := h.id_eq hv
    by_cases hi : 2 ≤ v.id
    · obtain ⟨e, p, hp⟩ := h.hangs hv hi
      obtain ⟨path, hpath⟩ := ih p.id hp.older hp.parent
      exact ⟨path ++ [e.id], .child hpath hv hp⟩
    · obtain ⟨s, hs⟩ := Side.exists_root_eq (Nat.lt_of_not_le hi)
      obtain ⟨w, hw, hroot, -⟩ := h.root s
      rw [← hs] at hw
      obtain rfl := Option.some.inj (hv.symm.trans hw)
      exact ⟨[], .root hv hroot⟩

theorem Trail.vertex (ht : k.Trail v path) : k.vertices[v.id]? = some v := by
  cases ht with
  | root hv _ => exact hv
  | child _ hv _ => exact hv

theorem Trail.isRoot_iff (ht : k.Trail v path) : v.isRoot = true ↔ path = [] := by
  cases ht with
  | root _ hroot => exact iff_of_true hroot rfl
  | child _ _ hp => exact iff_of_false (by rw [hp.notRoot]; simp) (by simp)

theorem Trail.length_eq (h : k.IsForest) (ht : k.Trail v path) : path.length = v.depth := by
  induction ht with
  | root hv hroot =>
    obtain ⟨w, hw, -, -, hdepth⟩ := h.root _
    rw [(h.isRoot_iff hv).mp hroot] at hv
    rw [Option.some.inj (hv.symm.trans hw), hdepth]
    rfl
  | child _ _ hp ih => rw [List.length_append, ih, List.length_singleton, hp.depth]

theorem Trail.length_le (ht : k.Trail v path) : path.length ≤ v.id := by
  induction ht with
  | root _ _ => exact Nat.zero_le _
  | child _ _ hp ih =>
    rw [List.length_append, List.length_singleton]
    exact Nat.succ_le_of_lt (Nat.lt_of_le_of_lt ih hp.older)

end Skeleton

/-! ## Climbing -/

theorem climb_root {vs : Vertices α} {es : Edges τ π} {start n cursor : Nat} {side : Side}
    {path : List Nat} {v : Vertex α} (hv : vs.get cursor = .ok v) (hroot : v.isRoot = true)
    (hid : v.id = side.root) : climb vs es start side n cursor path = .ok path := by
  rw [climb.eq_def]
  simp only [hv, hroot, hid, bind, Except.bind, if_true]
  rfl

theorem climb_child {vs : Vertices α} {es : Edges τ π} {start n cursor parent j : Nat} {side : Side}
    {path : List Nat} {v : Vertex α} {e : Edge τ π} (hv : vs.get cursor = .ok v)
    (hroot : v.isRoot = false) (hj : v.parentEdge = some j) (he : es.get j = .ok e)
    (hother : e.otherEnd? cursor = some parent) :
    climb vs es start side (n + 1) cursor path =
      climb vs es start side n parent (e.id :: path) := by
  rw [climb.eq_def]
  simp only [hv, hroot, hj, he, hother, bind, Except.bind, Bool.false_eq_true, if_false]

namespace Exploration

variable {x : Exploration α τ π}

theorem exists_get_of_skeleton {i : Nat} {v : Vertex α}
    (h : x.skeleton.vertices[i]? = some v) : ∃ u, x.vertices.get i = .ok u ∧ u.asBorn = v := by
  obtain ⟨u, hu, hborn⟩ := exists_of_getElem?_skeleton h
  exact ⟨u, Vertices.get_eq_ok_iff.mpr hu, hborn⟩

theorem climb_of_trail (hx : x.skeleton.IsForest) (start : Nat) {v : Vertex α} {path : List Nat}
    (ht : x.skeleton.Trail v path) {n : Nat} (hn : path.length ≤ n) (below : List Nat) :
    climb x.vertices x.edges start v.side n v.id below = .ok (path ++ below) := by
  induction ht generalizing n below with
  | @root v hv hroot =>
    obtain ⟨u, hu, rfl⟩ := exists_get_of_skeleton hv
    exact climb_root hu hroot ((hx.isRoot_iff hv).mp hroot)
  | @child e p v path hp hv h ih =>
    obtain ⟨u, hu, rfl⟩ := exists_get_of_skeleton hv
    obtain ⟨m, rfl⟩ : ∃ m, n = m + 1 := by
      rw [List.length_append, List.length_singleton] at hn
      exact ⟨n - 1, by omega⟩
    have he : x.edges.get e.id = .ok e := Edges.get_eq_ok_iff.mpr h.edge
    have hother : e.otherEnd? u.asBorn.id = some p.id := by
      rw [Arc.otherEnd?, if_neg, if_pos h.target, h.source]
      rw [h.source]
      exact Nat.ne_of_lt h.older
    rw [climb_child hu h.notRoot h.parentEdge he hother, ← h.side, ih, List.append_assoc]
    · rfl
    · rw [List.length_append, List.length_singleton] at hn
      omega

/-- **Climbing from a vertex lists its trail.** -/
theorem pathFromRoot_eq (hx : x.skeleton.IsForest) {v : Vertex α} {path : List Nat}
    (ht : x.skeleton.Trail v path) : pathFromRoot x.vertices x.edges v.id = .ok path := by
  obtain ⟨u, hu, rfl⟩ := exists_get_of_skeleton ht.vertex
  have hlt : u.id < x.vertices.size :=
    (Array.getElem?_eq_some_iff.mp (Vertices.get_eq_ok_iff.mp hu)).1
  have hclimb := climb_of_trail hx u.id ht (n := x.vertices.size)
    (Nat.le_of_lt (Nat.lt_of_le_of_lt ht.length_le hlt)) []
  rw [List.append_nil] at hclimb
  rw [pathFromRoot, hu]
  exact hclimb

theorem exists_get_pathFromRoot (hx : x.skeleton.IsForest) {v : Vertex α} {path : List Nat}
    (ht : x.skeleton.Trail v path) : ∃ u, x.vertices.get v.id = .ok u ∧ u.side = v.side ∧
      pathFromRoot x.vertices x.edges u.id = .ok path := by
  obtain ⟨u, hu, hborn⟩ := exists_get_of_skeleton ht.vertex
  have hid : u.id = v.id := by rw [← hborn, Vertex.id_asBorn]
  have hside : u.side = v.side := by rw [← hborn, Vertex.side_asBorn]
  refine ⟨u, hu, hside, ?_⟩
  rw [hid]
  exact pathFromRoot_eq hx ht

end Exploration

end Joinability
