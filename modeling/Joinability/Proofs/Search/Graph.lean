import Mathlib.Data.List.Nodup
import Joinability.Proofs.Search.Step

/-!
# The graph of a search

What a search knows of its graph is spread over five structures: the vertices, the edges, the lists
of incident edges and of used rules that every vertex keeps, and the index of canonical keys. This
file shows that they always agree, for every engine and every key, in either order of expansion, and
also after the engine has failed: **`Search.stepped_isGraph`**.

## How it is put together

`Skeleton.IsForest` has the two trees from the side of the vertices: each of them hangs by its
parent edge. `Skeleton.Spanned` looks from the side of the edges: each of them is the parent edge of
its target, all but the one at which the sides meet. Both are about the part of an exploration that
is never taken back.

The lists at the vertices do grow. `Exploration.Incident` pins them down as functions of the table
of edges, so that a move which adds no edge has nothing to show, and one that does is a question of
two filters.
-/

namespace Joinability

variable {σ α τ π : Type}

/-! ## Edges and the vertices to which they lead -/

namespace Skeleton

/-- Every edge is the parent edge of its target, except for a last one at which the sides meet;
roots have no parent edge. -/
structure Spanned (k : Skeleton α τ π) : Prop where
  root {i : Nat} {v : Vertex α} : k.vertices[i]? = some v → v.isRoot = true → v.parentEdge = none
  target {j : Nat} {e : Edge τ π} : k.edges[j]? = some e → k.meeting ≠ some j →
    ∃ v, k.vertices[e.target]? = some v ∧ v.parentEdge = some j
  last {m : Nat} : k.meeting = some m → m + 1 = k.edges.size

variable {k : Skeleton α τ π}

namespace Spanned

theorem withChild (h : k.Spanned) (hm : k.meeting = none) (p : Vertex α) (t : Term α)
    (tokens : List Nat) (use : RuleUse) (recipe : Option τ) :
    (k.withChild p t tokens use recipe).Spanned := by
  have hext := extends_withChild k p t tokens use recipe
  refine ⟨?_, ?_, ?_⟩
  · intro i v hv hroot
    rcases of_getElem?_push hv with ⟨-, rfl⟩ | hv
    · exact absurd hroot (by simp [child])
    · exact h.root hv hroot
  · intro j e he hj
    rcases of_getElem?_push he with ⟨rfl, rfl⟩ | he
    · exact ⟨_, Array.getElem?_push_size, rfl⟩
    · obtain ⟨v, hv, hparent⟩ := h.target he hj
      exact ⟨v, hext.vertex hv, hparent⟩
  · intro m hm'
    exact absurd (hm.symm.trans hm') (by simp)

theorem withMeeting (h : k.Spanned) (hm : k.meeting = none) (source target : Nat) (use : RuleUse)
    (recipe : Option τ) : (k.withMeeting source target use recipe).Spanned := by
  refine ⟨h.root, ?_, ?_⟩
  · intro j e he hj
    rcases of_getElem?_push he with ⟨rfl, -⟩ | he
    · exact absurd rfl hj
    · exact h.target he (by rw [hm]; simp)
  · intro m hm'
    obtain rfl := Option.some.inj hm'
    exact (Array.size_push _).symm

end Spanned

/-- A vertex with a parent edge is no root, and hangs by that edge. -/
theorem IsForest.exists_hangs (hk : k.IsForest) (h : k.Spanned) {i j : Nat} {v : Vertex α}
    {e : Edge τ π} (hv : k.vertices[i]? = some v) (hj : v.parentEdge = some j)
    (he : k.edges[j]? = some e) : ∃ p, k.Hangs e p v := by
  have hi : 2 ≤ i := by
    by_contra hlt
    obtain ⟨s, rfl⟩ := Side.exists_root_eq (Nat.lt_of_not_le hlt)
    obtain ⟨r, hr, hroot, -⟩ := hk.root s
    obtain rfl := Option.some.inj (hv.symm.trans hr)
    exact absurd ((h.root hv hroot).symm.trans hj) (by simp)
  obtain ⟨e', p, hp⟩ := hk.hangs hv hi
  obtain rfl : e'.id = j := Option.some.inj (hp.parentEdge.symm.trans hj)
  obtain rfl := Option.some.inj (hp.edge.symm.trans he)
  exact ⟨p, hp⟩

/-- An edge either hangs its target below its source, or the sides meet at it. -/
theorem IsForest.exists_hangs_or_apart (hk : k.IsForest) (h : k.Spanned) {j : Nat} {e : Edge τ π}
    (he : k.edges[j]? = some e) :
    (k.meeting ≠ some j ∧ ∃ p v, k.vertices[v.id]? = some v ∧ k.Hangs e p v) ∨
    (k.meeting = some j ∧ ∃ u w, k.vertices[e.source]? = some u ∧
      k.vertices[e.target]? = some w ∧ w.side ≠ u.side) := by
  by_cases hj : k.meeting = some j
  · obtain ⟨e', u, w, he', hends⟩ := hk.apart hj
    obtain rfl := Option.some.inj (he'.symm.trans he)
    exact Or.inr ⟨hj, u, w, hends⟩
  · obtain ⟨v, hv, hparent⟩ := h.target he hj
    obtain ⟨p, hp⟩ := hk.exists_hangs h hv hparent he
    exact Or.inl ⟨hj, p, v, hp.target ▸ hv, hp⟩

/-- Both ends of an edge are vertices, and they are different from each other. They lie on different
sides only if the sides meet at the edge. -/
theorem IsForest.exists_ends (hk : k.IsForest) (h : k.Spanned) {j : Nat} {e : Edge τ π}
    (he : k.edges[j]? = some e) : ∃ u w, k.vertices[e.source]? = some u ∧
      k.vertices[e.target]? = some w ∧ e.source ≠ e.target ∧
      (w.side ≠ u.side ↔ k.meeting = some j) := by
  rcases hk.exists_hangs_or_apart h he with ⟨hj, p, v, hv, hp⟩ | ⟨hj, u, w, hu, hw, hside⟩
  · refine ⟨p, v, hp.source ▸ hp.parent, hp.target ▸ hv, ?_, ?_⟩
    · rw [hp.source, hp.target]
      exact Nat.ne_of_lt hp.older
    · exact iff_of_false (not_not_intro hp.side.symm) hj
  · refine ⟨u, w, hu, hw, ?_, iff_of_true hside hj⟩
    intro hends
    rw [hends, hw] at hu
    exact hside (congrArg Vertex.side (Option.some.inj hu))

theorem IsForest.parentEdge_ne_meeting (hk : k.IsForest) (h : k.Spanned) {m i : Nat} {v : Vertex α}
    (hm : k.meeting = some m) (hv : k.vertices[i]? = some v) : v.parentEdge ≠ some m := by
  intro hparent
  obtain ⟨e, -, -, he, -⟩ := hk.apart hm
  obtain ⟨p, hp⟩ := hk.exists_hangs h hv hparent he
  have hid : v.id = i := hk.id_eq hv
  apply hk.meeting_ne_of_hangs hp
  · rwa [hid]
  · rw [hm, hk.edge_id_eq he]

theorem IsForest.touches_size (hk : k.IsForest) (h : k.Spanned) {j : Nat} {e : Edge τ π}
    (he : k.edges[j]? = some e) : e.touches k.vertices.size = false := by
  obtain ⟨u, w, hu, hw, -⟩ := hk.exists_ends h he
  have hsource : e.source < k.vertices.size := (Array.getElem?_eq_some_iff.mp hu).1
  have htarget : e.target < k.vertices.size := (Array.getElem?_eq_some_iff.mp hw).1
  rw [Arc.touches, Bool.or_eq_false_iff, beq_eq_false_iff_ne, beq_eq_false_iff_ne]
  exact ⟨Nat.ne_of_lt hsource, Nat.ne_of_lt htarget⟩

end Skeleton

/-! ## The edges at a vertex -/

namespace Edges

/-- The ids of the edges that touch a vertex, in order. -/
def touching (es : Edges τ π) (i : Nat) : List Nat :=
  (es.items.toList.filter fun e ↦ e.touches i).map fun e ↦ e.id

/-- The uses of rules on the edges that leave a vertex, in the order of the edges. -/
def usesFrom (es : Edges τ π) (i : Nat) : List RuleUse :=
  (es.items.toList.filter fun e ↦ e.source == i).map fun e ↦ e.use

variable {es : Edges τ π} {source target i j : Nat} {use : RuleUse} {proof : Deferred τ π}

theorem touching_create : (es.create source target use proof).2.touching i
    = es.touching i ++ if source = i ∨ target = i then [es.size] else [] := by
  rw [touching, create, Array.toList_push, List.filter_append, List.map_append, ← touching]
  by_cases h : source = i ∨ target = i
  · rw [if_pos h, List.filter_cons_of_pos (by simpa [Arc.touches] using h)]
    rfl
  · rw [if_neg h, List.filter_cons_of_neg (by simpa [Arc.touches] using h)]
    rfl

theorem usesFrom_create : (es.create source target use proof).2.usesFrom i
    = es.usesFrom i ++ if source = i then [use] else [] := by
  rw [usesFrom, create, Array.toList_push, List.filter_append, List.map_append, ← usesFrom]
  by_cases h : source = i
  · rw [if_pos h, List.filter_cons_of_pos (by simpa using h)]
    rfl
  · rw [if_neg h, List.filter_cons_of_neg (by simpa using h)]
    rfl

/-- A vertex that no edge touches has nothing to list. -/
theorem eq_nil_of_not_touched (h : ∀ (j : Nat) (e : Edge τ π), es.items[j]? = some e →
    e.touches i = false) : es.touching i = [] ∧ es.usesFrom i = [] := by
  have hmem {e : Edge τ π} (he : e ∈ es.items.toList) : e.touches i = false := by
    obtain ⟨j, hj⟩ := List.mem_iff_getElem?.mp he
    exact h j e (Array.getElem?_toList ▸ hj)
  constructor
  · rw [touching, List.map_eq_nil_iff, List.filter_eq_nil_iff]
    intro e he
    rw [hmem he]
    exact Bool.false_ne_true
  · rw [usesFrom, List.map_eq_nil_iff, List.filter_eq_nil_iff]
    intro e he
    have htouches := hmem he
    rw [Arc.touches, Bool.or_eq_false_iff] at htouches
    rw [htouches.1]
    exact Bool.false_ne_true

theorem mem_touching_iff (hid : ∀ (j : Nat) (e : Edge τ π), es.items[j]? = some e → e.id = j) :
    j ∈ es.touching i ↔ ∃ e, es.items[j]? = some e ∧ e.touches i = true := by
  rw [touching, List.mem_map]
  constructor
  · rintro ⟨e, he, rfl⟩
    obtain ⟨hmem, htouches⟩ := List.mem_filter.mp he
    obtain ⟨j, hj⟩ := List.mem_iff_getElem?.mp hmem
    rw [Array.getElem?_toList] at hj
    exact ⟨e, hid j e hj ▸ hj, htouches⟩
  · rintro ⟨e, he, htouches⟩
    refine ⟨e, List.mem_filter.mpr ⟨List.mem_iff_getElem?.mpr ⟨j, ?_⟩, htouches⟩, hid j e he⟩
    rwa [Array.getElem?_toList]

theorem pairwise_touching (hid : ∀ (j : Nat) (e : Edge τ π), es.items[j]? = some e → e.id = j) :
    (es.touching i).Pairwise (· < ·) := by
  have hrange : (es.items.toList.map fun e ↦ e.id) = List.range es.items.size := by
    refine List.ext_getElem? ?_
    intro j
    rw [List.getElem?_map, Array.getElem?_toList]
    rcases hj : es.items[j]? with _ | e
    · rw [List.getElem?_eq_none (by simpa using hj)]
      rfl
    · rw [List.getElem?_range (Array.getElem?_eq_some_iff.mp hj).1, Option.map_some, hid j e hj]
  have hsub : (es.touching i).Sublist (List.range es.items.size) :=
    hrange ▸ List.filter_sublist.map _
  exact List.pairwise_lt_range.sublist hsub

end Edges

/-! ## The lists that vertices keep -/

namespace Exploration

/-- The edges and the uses of rules that the vertex with an id lists. -/
def listed (x : Exploration α τ π) (i : Nat) : Option (List Nat × List RuleUse) :=
  x.vertices.items[i]?.map fun v ↦ (v.adjacency, v.outgoing)

/-- Every vertex lists the edges that touch it and the uses of rules on the edges that leave it. -/
def Incident (x : Exploration α τ π) : Prop :=
  ∀ ⦃i : Nat⦄ ⦃l : List Nat × List RuleUse⦄, x.listed i = some l →
    l = (x.edges.touching i, x.edges.usesFrom i)

/-- What an edge adds to the lists of the vertex with an id. -/
def withArc (id source target : Nat) (use : RuleUse) (i : Nat) (l : List Nat × List RuleUse) :
    List Nat × List RuleUse :=
  (l.1 ++ if source = i ∨ target = i then [id] else [], l.2 ++ if source = i then [use] else [])

variable {x : Exploration α τ π}

theorem listed_put {u v : Vertex α} (hu : x.vertices.items[v.id]? = some u)
    (hsame : (v.adjacency, v.outgoing) = (u.adjacency, u.outgoing)) :
    (x.put v).listed = x.listed := by
  funext i
  rw [listed, listed, getElem?_put]
  by_cases hi : v.id = i
  · subst hi
    rw [if_pos rfl, hu, Option.map_some, Option.map_some, Option.map_some, hsame]
  · rw [if_neg hi]

theorem listed_link {source target : Nat} (hne : target ≠ source) (use : RuleUse)
    (recipe : Option τ) (i : Nat) : (x.link source target use recipe).2.listed i
      = (x.listed i).map (withArc x.edges.size source target use i) := by
  rw [listed, listed, getElem?_link x hne, Option.map_map]
  by_cases hs : source = i
  · rw [if_pos hs, Option.map_map]
    refine congrArg (Option.map · _) (funext fun v ↦ ?_)
    simp [withArc, Vertex.leave, hs]
  · rw [if_neg hs]
    by_cases ht : target = i
    · rw [if_pos ht, Option.map_map]
      refine congrArg (Option.map · _) (funext fun v ↦ ?_)
      simp [withArc, Vertex.arrive, hs, ht]
    · rw [if_neg ht]
      refine congrArg (Option.map · _) (funext fun v ↦ ?_)
      simp [withArc, hs, ht]

theorem listed_grow {p : Vertex α} (hp : p.id < x.vertices.size) (t : Term α) (use : RuleUse)
    (recipe : Option τ) (i : Nat) : (x.grow p t use recipe).2.2.listed i
      = if i = x.vertices.size then some ([x.edges.size], [])
        else (x.listed i).map (withArc x.edges.size p.id x.vertices.size use i) := by
  rw [listed, getElem?_grow hp]
  by_cases hi : i = x.vertices.size
  · rw [if_pos hi, if_pos hi]
    rfl
  · rw [if_neg hi, if_neg hi, listed, Option.map_map]
    by_cases hs : p.id = i
    · rw [if_pos hs, Option.map_map]
      refine congrArg (Option.map · _) (funext fun v ↦ ?_)
      simp [withArc, Vertex.leave, hs]
    · rw [if_neg hs]
      refine congrArg (Option.map · _) (funext fun v ↦ ?_)
      simp [withArc, hs, Ne.symm hi]

namespace Incident

theorem lists_eq (h : x.Incident) {i : Nat} {v : Vertex α} (hv : x.vertices.items[i]? = some v) :
    v.adjacency = x.edges.touching i ∧ v.outgoing = x.edges.usesFrom i := by
  have hl : x.listed i = some (v.adjacency, v.outgoing) := by rw [listed, hv, Option.map_some]
  exact Prod.mk.inj (h hl)

theorem of_eq {y : Exploration α τ π} (h : x.Incident) (hl : y.listed = x.listed)
    (he : y.edges = x.edges) : y.Incident := by
  intro i l hi
  rw [he]
  exact h (hl ▸ hi)

theorem link (h : x.Incident) {source target : Nat} (hne : target ≠ source) (use : RuleUse)
    (recipe : Option τ) : (x.link source target use recipe).2.Incident := by
  intro i l hi
  rw [listed_link hne] at hi
  obtain ⟨l, hl, rfl⟩ := Option.map_eq_some_iff.mp hi
  have hedges : (x.link source target use recipe).2.edges
      = (x.edges.create source target use (.ofRecipe? recipe)).2 := rfl
  rw [hedges, Edges.touching_create, Edges.usesFrom_create, h hl]
  rfl

/-- A new vertex lists the edge by which it hangs, as no other edge can touch it yet. -/
theorem grow (h : x.Incident) {p : Vertex α} (hp : p.id < x.vertices.size)
    (hfresh : ∀ (j : Nat) (e : Edge τ π), x.edges.items[j]? = some e →
      e.touches x.vertices.size = false)
    (t : Term α) (use : RuleUse) (recipe : Option τ) : (x.grow p t use recipe).2.2.Incident := by
  intro i l hi
  have hedges : (x.grow p t use recipe).2.2.edges
      = (x.edges.create p.id x.vertices.size use (.ofRecipe? recipe)).2 := rfl
  rw [hedges, Edges.touching_create, Edges.usesFrom_create]
  rw [listed_grow hp] at hi
  by_cases hnew : i = x.vertices.size
  · obtain ⟨htouching, huses⟩ := Edges.eq_nil_of_not_touched hfresh
    rw [if_pos hnew] at hi
    rw [hnew, htouching, huses, if_pos (Or.inr rfl), if_neg (Nat.ne_of_lt hp)]
    exact (Option.some.inj hi).symm
  · rw [if_neg hnew] at hi
    obtain ⟨l, hl, rfl⟩ := Option.map_eq_some_iff.mp hi
    rw [h hl]
    rfl

end Incident

/-! ## Along a search -/

variable {e : Engine σ α τ π} {config : Config α} {lhs rhs : Term α} {focus : Option Nat}

theorem parentEdge_of_getElem?_rooted {i : Nat} {v : Vertex α}
    (h : (rooted config lhs rhs : Exploration α τ π).vertices.items[i]? = some v) :
    v.parentEdge = none := by
  have hitems : ∃ left right : Vertex α,
      (rooted config lhs rhs : Exploration α τ π).vertices.items = #[left, right] ∧
      left.parentEdge = none ∧ right.parentEdge = none := ⟨_, _, rfl, rfl, rfl⟩
  obtain ⟨left, right, hitems, hleft, hright⟩ := hitems
  rw [hitems] at h
  match i, h with
  | 0, h => exact Option.some.inj h ▸ hleft
  | 1, h => exact Option.some.inj h ▸ hright
  | i + 2, h => exact absurd h (by simp)

theorem spanned_rooted (config : Config α) (lhs rhs : Term α) :
    (rooted config lhs rhs : Exploration α τ π).skeleton.Spanned := by
  refine ⟨?_, ?_, ?_⟩
  · intro i v hv _
    obtain ⟨u, hu, rfl⟩ := exists_of_getElem?_skeleton hv
    exact (Vertex.parentEdge_asBorn u).trans (parentEdge_of_getElem?_rooted hu)
  · intro j e he
    rw [edges_rooted] at he
    exact absurd he (by simp)
  · intro m hm
    exact absurd hm (by simp [skeleton, rooted, createRoots, ofConfig, addVertex, enqueue])

theorem Reached.spanned (h : Reached e config lhs rhs x focus) : x.skeleton.Spanned := by
  induction h with
  | start => exact spanned_rooted config lhs rhs
  | @move x y _ _ _ hm ih =>
    have hmeet : x.skeleton.meeting = none := hm.isOpen.meeting
    generalize hy : y.skeleton = k
    have hk := hm.growth
    rw [hy] at hk
    cases hk with
    | none => exact ih
    | child _ _ _ _ => exact ih.withChild hmeet _ _ _ _ _
    | meeting _ _ _ _ _ _ => exact ih.withMeeting hmeet _ _ _ _

theorem incident_rooted (config : Config α) (lhs rhs : Term α) :
    (rooted config lhs rhs : Exploration α τ π).Incident := by
  intro i l hl
  obtain ⟨v, hv, rfl⟩ := Option.map_eq_some_iff.mp hl
  obtain ⟨s, -, hroot⟩ := isRootOf_of_getElem?_rooted hv
  rw [← hroot.asBorn]
  rfl

/-- **Every move keeps the lists of the vertices in step with the edges.** -/
theorem Incident.move {x y : Exploration α τ π} {f g : Option Nat} (h : x.Incident)
    (hx : x.Orderly f) (hs : x.skeleton.Spanned) (hm : Move e x f y g) : y.Incident := by
  cases hm with
  | take _ hnext => exact h.of_eq (by rw [(next_eq hnext).2]; rfl) (by rw [(next_eq hnext).2])
  | dry _ hnext => exact h.of_eq (by rw [(next_eq hnext).2]; rfl) (by rw [(next_eq hnext).2])
  | fail _ _ _ => exact h.of_eq rfl rfl
  | @close v s _ hv _ =>
    exact h.of_eq (listed_put (x := x.spend) (v := { v with visited := true }) hv rfl) rfl
  | @grow v s r _ hv _ _ =>
    have hadv : (x.spend.advance v r.next).Incident :=
      h.of_eq (listed_put (x := x.spend) (v := { v with cursor := r.next }) hv rfl) rfl
    have hsize : (x.spend.advance v r.next).vertices.size = x.vertices.size :=
      Vertices.size_update _ _ _
    refine hadv.grow (p := { v with cursor := r.next }) ?_ ?_ _ _ _
    · rw [hsize]
      exact (Array.getElem?_eq_some_iff.mp hv).1
    · intro j e he
      rw [hsize, ← size_vertices_skeleton]
      exact hx.forest.touches_size hs he
  | @discard v _ s r _ hv _ _ _ _ =>
    exact h.of_eq (listed_put (x := x.spend) (v := { v with cursor := r.next }) hv rfl) rfl
  | @meet v w s r _ hv _ _ hw hside =>
    have hadv : (x.spend.advance v r.next).Incident :=
      h.of_eq (listed_put (x := x.spend) (v := { v with cursor := r.next }) hv rfl) rfl
    exact (hadv.link (id_ne_of_side_ne hv hw hside) r.use r.recipe).of_eq rfl rfl

theorem Reached.incident (hne : config.key lhs ≠ config.key rhs)
    (h : Reached e config lhs rhs x focus) : x.Incident := by
  induction h with
  | start => exact incident_rooted config lhs rhs
  | move h hm ih => exact ih.move (h.orderly hne) h.spanned hm

/-! ## The graph as a whole -/

/-- What the vertices, the edges, the lists at the vertices and the index of keys say of each
other. -/
structure IsGraph (x : Exploration α τ π) : Prop where
  id_eq {i : Nat} {v : Vertex α} : x.vertices.items[i]? = some v → v.id = i
  edge_id_eq {j : Nat} {e : Edge τ π} : x.edges.items[j]? = some e → e.id = j
  root (s : Side) : ∃ v, x.vertices.items[s.root]? = some v ∧ v.isRoot = true ∧ v.side = s ∧
    v.depth = 0 ∧ v.parentEdge = none
  eq_root {i : Nat} {v : Vertex α} : x.vertices.items[i]? = some v → v.isRoot = true →
    ∃ s : Side, i = s.root
  /-- Every other vertex hangs below an older one. -/
  parent {i : Nat} {v : Vertex α} : x.vertices.items[i]? = some v → v.isRoot = false →
    ∃ (e : Edge τ π) (p : Vertex α), v.parentEdge = some e.id ∧ x.edges.items[e.id]? = some e ∧
      e.target = i ∧ x.vertices.items[e.source]? = some p ∧ e.source < i ∧ p.side = v.side ∧
      v.depth = p.depth + 1
  child {j : Nat} {e : Edge τ π} : x.edges.items[j]? = some e → x.meeting ≠ some j →
    ∃! i : Nat, ∃ v : Vertex α, x.vertices.items[i]? = some v ∧ v.parentEdge = some j
  /-- The edge at which the sides meet is the last one, and no vertex hangs by it. -/
  meeting {m : Nat} : x.meeting = some m → m + 1 = x.edges.size ∧
    ∀ ⦃i : Nat⦄ ⦃v : Vertex α⦄, x.vertices.items[i]? = some v → v.parentEdge ≠ some m
  ends {j : Nat} {e : Edge τ π} : x.edges.items[j]? = some e → ∃ u w,
    x.vertices.items[e.source]? = some u ∧ x.vertices.items[e.target]? = some w ∧
    e.source ≠ e.target ∧ (w.side ≠ u.side ↔ x.meeting = some j)
  /-- A vertex lists the edges that touch it, each of them once. -/
  adjacency {i : Nat} {v : Vertex α} : x.vertices.items[i]? = some v →
    v.adjacency.Pairwise (· < ·) ∧
    ∀ j, j ∈ v.adjacency ↔ ∃ e, x.edges.items[j]? = some e ∧ e.touches i = true
  outgoing {i : Nat} {v : Vertex α} : x.vertices.items[i]? = some v →
    v.outgoing = x.edges.usesFrom i
  key_injective {i j : Nat} {v w : Vertex α} : x.vertices.items[i]? = some v →
    x.vertices.items[j]? = some w → x.config.key v.term = x.config.key w.term → i = j
  find_iff {t : Term α} {i : Nat} : x.findId? t = some i ↔
    ∃ v, x.vertices.items[i]? = some v ∧ x.config.key v.term = x.config.key t

namespace Orderly

/-- A vertex that is no root hangs by its parent edge. -/
theorem exists_parent (h : x.Orderly focus) {i : Nat} {v : Vertex α}
    (hv : x.vertices.items[i]? = some v) (hroot : v.isRoot = false) :
    ∃ (e : Edge τ π) (p : Vertex α), v.parentEdge = some e.id ∧ x.edges.items[e.id]? = some e ∧
      e.target = i ∧ x.vertices.items[e.source]? = some p ∧ e.source < i ∧ p.side = v.side ∧
      v.depth = p.depth + 1 := by
  have hold : 2 ≤ i := by
    by_contra hlt
    obtain ⟨s, rfl⟩ := Side.exists_root_eq (Nat.lt_of_not_le hlt)
    obtain ⟨r, hr, hr', -⟩ := h.forest.root s
    obtain rfl := Option.some.inj ((getElem?_skeleton_of hv).symm.trans hr)
    exact absurd (hroot.symm.trans hr') (by simp)
  obtain ⟨e, b, hb⟩ := h.forest.hangs (getElem?_skeleton_of hv) hold
  obtain ⟨p, hp, rfl⟩ := exists_of_getElem?_skeleton hb.parent
  have htarget : e.target = i := hb.target.trans (h.forest.id_eq (getElem?_skeleton_of hv))
  refine ⟨e, p, hb.parentEdge, hb.edge, htarget, ?_, ?_, hb.side, hb.depth⟩
  · rw [hb.source]
    exact hp
  · rw [hb.source, ← h.id_eq hv]
    exact hb.older

theorem parentEdge_lt (h : x.Orderly focus) (hs : x.skeleton.Spanned) {i j : Nat} {v : Vertex α}
    (hv : x.vertices.items[i]? = some v) (hj : v.parentEdge = some j) : j < x.edges.size := by
  cases hroot : v.isRoot with
  | true =>
    have hnone : v.asBorn.parentEdge = none := hs.root (getElem?_skeleton_of hv) hroot
    exact absurd (hnone.symm.trans hj) (by simp)
  | false =>
    obtain ⟨e, p, hparent, he, -⟩ := h.exists_parent hv hroot
    obtain rfl := Option.some.inj (hparent.symm.trans hj)
    exact (Array.getElem?_eq_some_iff.mp he).1

theorem existsUnique_child (h : x.Orderly focus) (hs : x.skeleton.Spanned) {j : Nat} {e : Edge τ π}
    (he : x.edges.items[j]? = some e) (hj : x.meeting ≠ some j) :
    ∃! i : Nat, ∃ v : Vertex α, x.vertices.items[i]? = some v ∧ v.parentEdge = some j := by
  obtain ⟨b, hb, hparent⟩ := hs.target he hj
  obtain ⟨v, hv, rfl⟩ := exists_of_getElem?_skeleton hb
  refine ⟨e.target, ⟨v, hv, hparent⟩, ?_⟩
  rintro i ⟨w, hw, hw'⟩
  obtain ⟨p, hp⟩ := h.forest.exists_hangs hs (getElem?_skeleton_of hw) hw' he
  rw [hp.target, Vertex.id_asBorn, h.id_eq hw]

theorem isGraph (h : x.Orderly focus) (hs : x.skeleton.Spanned) (hi : x.Incident) : x.IsGraph where
  id_eq := h.id_eq
  edge_id_eq := h.forest.edge_id_eq
  root s := by
    obtain ⟨b, hb, hroot, hside, hdepth⟩ := h.forest.root s
    obtain ⟨v, hv, rfl⟩ := exists_of_getElem?_skeleton hb
    exact ⟨v, hv, hroot, hside, hdepth, hs.root (v := v.asBorn) hb hroot⟩
  eq_root hv hroot := by
    refine Side.exists_root_eq (Nat.lt_of_not_le fun hold ↦ ?_)
    obtain ⟨e, p, hp⟩ := h.forest.hangs (getElem?_skeleton_of hv) hold
    exact absurd (hroot.symm.trans hp.notRoot) (by simp)
  parent := h.exists_parent
  child := h.existsUnique_child hs
  meeting hm := by
    refine ⟨hs.last hm, ?_⟩
    intro i v hv
    exact h.forest.parentEdge_ne_meeting (v := v.asBorn) hs hm (getElem?_skeleton_of hv)
  ends he := by
    obtain ⟨b, c, hb, hc, hne, hside⟩ := h.forest.exists_ends hs he
    obtain ⟨u, hu, rfl⟩ := exists_of_getElem?_skeleton hb
    obtain ⟨w, hw, rfl⟩ := exists_of_getElem?_skeleton hc
    exact ⟨u, w, hu, hw, hne, hside⟩
  adjacency hv := by
    have hid : ∀ (j : Nat) (e : Edge τ π), x.edges.items[j]? = some e → e.id = j :=
      fun _ _ ↦ h.forest.edge_id_eq
    rw [(hi.lists_eq hv).1]
    exact ⟨Edges.pairwise_touching hid, fun _ ↦ Edges.mem_touching_iff hid⟩
  outgoing hv := (hi.lists_eq hv).2
  key_injective {_ _ v w} hv hw := h.forest.eq_of_key_eq (v := v.asBorn) (w := w.asBorn)
    (getElem?_skeleton_of hv) (getElem?_skeleton_of hw)
  find_iff := by
    refine h.forest.find_iff.trans ⟨?_, ?_⟩
    · rintro ⟨b, hb, hkey⟩
      obtain ⟨v, hv, rfl⟩ := exists_of_getElem?_skeleton hb
      exact ⟨v, hv, hkey⟩
    · rintro ⟨v, hv, hkey⟩
      exact ⟨v.asBorn, getElem?_skeleton_of hv, hkey⟩

end Orderly

end Exploration

namespace Search

/-- **However many steps a search over two different keys has made, also after the engine has
failed, the parts of its graph agree.** -/
theorem stepped_isGraph {e : Engine σ α τ π} {config : Config α} {lhs rhs : Term α}
    {search : Search α τ π} (hne : config.key lhs ≠ config.key rhs)
    (h : Stepped e config lhs rhs search) :
    ∃ x focus, search = .exploring x focus ∧ x.config = config ∧ x.IsGraph := by
  obtain ⟨x, focus, rfl, hx⟩ := h.exists_reached hne
  exact ⟨x, focus, rfl, hx.config_eq, (hx.orderly hne).isGraph hx.spanned (hx.incident hne)⟩

theorem stepped_isGraph_meeting :
    let e : Engine (Option Text) Unit Unit Unit :=
      { tryNext := fun _ cursor s ↦ (match s with
          | none => .error (.engineFailed (utf8 "no reduct at hand"))
          | some t => .ok (some
            { term := { pretty := t }, next := cursor + 1, recipe := none, use := {} }), s)
        prove := fun _ s ↦ (.ok (), s)
        reflexivity := fun _ ↦ .ok ()
        symmetry := fun _ ↦ .ok ()
        transitivity := fun _ _ ↦ .ok () }
    let lhs : Term Unit := { pretty := utf8 "a" }
    let rhs : Term Unit := { pretty := utf8 "b" }
    let failed := ((start {} lhs rhs).1.step e 0 none).search
    let grown := (failed.step e 0 (some (utf8 "c"))).search
    ∃ x focus, (grown.step e 0 (some (utf8 "b"))).search = .exploring x focus ∧
      x.meeting = some 1 ∧ x.vertices.size = 3 ∧ x.IsGraph := by
  intro e lhs rhs failed grown
  have hstepped : Stepped e {} lhs rhs (grown.step e 0 (some (utf8 "b"))).search :=
    ((Stepped.start.step 0 none).step 0 (some (utf8 "c"))).step 0 (some (utf8 "b"))
  obtain ⟨x, focus, hx, -, hgraph⟩ := stepped_isGraph (by decide) hstepped
  have hrun : (grown.step e 0 (some (utf8 "b"))).search.graph?.map
      (fun x ↦ (x.meeting, x.vertices.size)) = some (some 1, 3) := by decide +kernel
  rw [hx] at hrun
  obtain ⟨hmeeting, hsize⟩ := Prod.mk.inj (Option.some.inj hrun)
  exact ⟨x, focus, hx, hmeeting, hsize, hgraph⟩

end Search

end Joinability
