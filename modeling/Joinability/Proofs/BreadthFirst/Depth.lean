import Joinability.Proofs.BreadthFirst.Survey
import Joinability.Proofs.Search.Record

/-!
# Depth is distance

A breadth-first search finds every text by a shortest derivation: the depth of a vertex is the
distance from the root of its side (`Exploration.Surveyed.distance_eq`). This holds at any time,
also while a level is being handed out and after the sides have met. What it takes is that
everything above the parent of a vertex has been visited: a text on a shorter derivation would have
been found there, and no text has two vertices.

Two trees share the frontier, which does not know of sides. It hands out ids one after the other
(`Exploration.Logged.handedOut_eq_range`), and ids are issued in the order of ranks, so at each
depth the left vertices come first.
-/

namespace Joinability

variable {σ α τ π : Type}

theorem pair_sublist_range {i j n : Nat} (hij : i < j) (hj : j < n) :
    [i, j].Sublist (List.range n) := by
  obtain ⟨d, rfl⟩ := Nat.exists_eq_add_of_lt hj
  rw [Nat.add_assoc, List.range_add]
  refine (List.singleton_sublist.mpr (List.mem_range.mpr hij)).append
    (List.singleton_sublist.mpr ?_)
  exact List.mem_map.mpr ⟨0, List.mem_range.mpr (Nat.succ_pos d), rfl⟩

namespace Exploration

section Order

variable {e : Engine σ α τ π} {config : Config α} {lhs rhs : Term α} {x : Exploration α τ π}
  {focus : Option Nat} {r : Record α τ}

theorem Reached.exists_apart (h : Reached e config lhs rhs x focus) : ∃ y g,
    Reached e config lhs rhs y g ∧ y.meeting = none ∧
      x.skeleton.vertices = y.skeleton.vertices := by
  rcases hm : x.meeting with _ | m
  · exact ⟨x, focus, h, hm, rfl⟩
  · obtain ⟨y, v, w, s, r, hy, hapart, -, -, -, -, -, hskel⟩ := h.exists_meet hm
    exact ⟨y, _, hy, hapart, by rw [hskel]; rfl⟩

theorem Reached.rank_mono (hne : config.key lhs ≠ config.key rhs)
    (hbfs : config.strategy = .breadthFirst) (h : Reached e config lhs rhs x focus) {i j : Nat}
    {u v : Vertex α} (hu : x.skeleton.vertices[i]? = some u) (hv : x.skeleton.vertices[j]? = some v)
    (hij : i ≤ j) : u.rank ≤ v.rank := by
  obtain ⟨y, g, hy, hapart, hvertices⟩ := h.exists_apart
  obtain ⟨k, q, hq⟩ := hy.levelled hne hbfs hapart
  rw [hvertices] at hu hv
  exact hq.ranked.mono hu hv hij

/-- A breadth-first search whose sides are apart has handed out as many vertices as it is levelled
for. -/
theorem Logged.levelled (hne : config.key lhs ≠ config.key rhs)
    (hbfs : config.strategy = .breadthFirst) (h : Logged e config lhs rhs x focus r)
    (hapart : x.meeting = none) : ∃ q, x.Levelled focus config.maxDepth r.handedOut.length q := by
  induction h with
  | start => exact levelled_rooted hbfs lhs rhs
  | take h hx hnext ih =>
    obtain ⟨q, hq⟩ := ih hx.meeting
    have hm : Move e _ none _ _ := .take hx hnext
    rw [List.length_append]
    exact hq.effect (h.reached.orderly hne) hx (hm.effect hapart)
  | dry h hx hnext ih =>
    obtain ⟨q, hq⟩ := ih hx.meeting
    have hm : Move e _ none _ none := .dry hx hnext
    exact hq.effect (h.reached.orderly hne) hx (hm.effect hapart)
  | ask h _ hm ih =>
    obtain ⟨q, hq⟩ := ih hm.isOpen.meeting
    exact hq.effect (h.reached.orderly hne) hm.isOpen (hm.effect hapart)

/-- **A breadth-first search hands out the ids one after the other.** -/
theorem Logged.handedOut_eq_range (hne : config.key lhs ≠ config.key rhs)
    (hbfs : config.strategy = .breadthFirst) (h : Logged e config lhs rhs x focus r) :
    r.handedOut = List.range r.handedOut.length := by
  induction h with
  | start => rfl
  | @take _ y i _ r h hx hnext ih =>
    have hapart : y.meeting = none := by
      rw [(next_eq hnext).2]
      exact hx.meeting
    obtain ⟨q, hq⟩ := (h.take hx hnext).levelled hne hbfs hapart
    have hi := hq.inFocus rfl
    rw [List.length_append, List.length_singleton] at hi ⊢
    obtain rfl : i = r.handedOut.length := Nat.succ.inj hi
    rw [List.range_succ, ← ih]
  | dry _ _ _ ih => exact ih
  | ask _ _ _ ih => exact ih

end Order

/-! ## Shortest derivations -/

namespace Surveyed

variable {rules : List Rule} {lhs rhs : Text} {x : Exploration Payload Recipe Evidence}
  {focus : Option Nat} {maxDepth k i : Nat} {q : BreadthFirst} {v : Vertex Payload}

theorem visited_of_succ_lt (h : Surveyed rules lhs rhs x focus maxDepth k q)
    (hv : x.skeleton.vertices[i]? = some v) (hi : i + 1 < k) :
    ∃ c, x.progress i = some (true, c) := by
  obtain ⟨b, c, hc⟩ := exists_progress hv
  rcases h.levelled.handed.visited hc (by omega) with rfl | hf
  · exact ⟨c, hc⟩
  · exact absurd (h.levelled.inFocus hf) (Nat.ne_of_lt hi)

/-- Everything above the parent of a vertex has been visited. -/
theorem visitedBelow_parent (h : Surveyed rules lhs rhs x focus maxDepth k q)
    {e : Edge Recipe Evidence} {p : Vertex Payload} (hp : x.skeleton.Hangs e p v)
    (hv : x.skeleton.vertices[i]? = some v) : x.VisitedBelow p.rank := by
  have hrank : v.rank = p.rank + 2 := by
    rw [Vertex.rank, Vertex.rank, hp.depth, hp.side]
    omega
  intro j u hu hlt
  refine h.visited_of_succ_lt hu ?_
  have hmono {m : Nat} {w : Vertex Payload} (hw : x.skeleton.vertices[m]? = some w)
      (hlt : u.rank < w.rank) : j < m := by
    by_contra hle
    exact absurd hlt (Nat.not_lt.mpr (h.levelled.ranked.mono hw hu (Nat.le_of_not_lt hle)))
  rcases Nat.lt_or_ge p.id k with hk | hk
  · have hj := hmono hp.parent hlt
    omega
  · -- a parent that was not handed out has the rank of the vertex that was handed out last
    have hsize : p.id < x.skeleton.vertices.size := (Array.getElem?_eq_some_iff.mp hp.parent).1
    have hlast : k - 1 < x.skeleton.vertices.size := by omega
    obtain ⟨w, hw⟩ : ∃ w, x.skeleton.vertices[k - 1]? = some w :=
      ⟨_, Array.getElem?_eq_getElem hlast⟩
    have hspan := h.levelled.ranked.span hv hw
    have hj := hmono hw (by omega)
    omega

/-- **The depth of a vertex is the distance of its text from the root of its side.** -/
theorem distance_eq (h : Surveyed rules lhs rhs x focus maxDepth k q)
    (hv : x.skeleton.vertices[i]? = some v) :
    distance rules (v.side.pick lhs rhs) v.pretty = v.depth := by
  refine distance_eq_iff.mpr ⟨h.grown.derives hv, ?_⟩
  intro n hn
  by_contra hlt
  have hi : 2 ≤ i := by
    by_contra hi
    obtain ⟨s, rfl⟩ := Side.exists_root_eq (Nat.lt_of_not_le hi)
    obtain ⟨w, hw, -, -, hdepth⟩ := h.orderly.forest.root s
    obtain rfl := Option.some.inj (hv.symm.trans hw)
    omega
  obtain ⟨e, p, hp⟩ := h.orderly.forest.hangs hv hi
  have hclose : 2 * n + v.side.root < p.rank + 2 := by
    have hdepth := hp.depth
    rw [Vertex.rank, hp.side]
    omega
  -- the text has a vertex that is not as deep, but it has only one vertex
  obtain ⟨j, w, hw, -, hpretty, hdepth⟩ :=
    h.exists_of_derives (h.visitedBelow_parent hp hv) hn hclose
  obtain rfl := h.grown.eq_of_pretty_eq hw hv hpretty
  exact hlt hdepth

end Surveyed

theorem Reached.distance_eq {rules : List Rule} {config : Config Payload}
    (hkey : config.key = Term.pretty) (hbfs : config.strategy = .breadthFirst) {lhs rhs : Text}
    (hne : lhs ≠ rhs) {x : Exploration Payload Recipe Evidence} {focus : Option Nat}
    (h : Reached (.ofRules rules) config (.ofText lhs) (.ofText rhs) x focus) {i : Nat}
    {v : Vertex Payload} (hv : x.skeleton.vertices[i]? = some v) :
    distance rules (v.side.pick lhs rhs) v.pretty = v.depth := by
  obtain ⟨y, g, hy, hapart, hvertices⟩ := h.exists_apart
  obtain ⟨k, q, hq⟩ := hy.surveyed hkey hne hbfs hapart
  exact hq.distance_eq (hvertices ▸ hv)

end Exploration

namespace Search

/-- **A breadth-first search goes by distance.** However many steps it has made, with any rules, any
two different texts and any limits: the depth of a vertex is the least number of steps that lead
from the root of its side to its text. The frontier hands out vertices in the order of their ids,
and when it hands out a right vertex, it has handed out all left vertices of the same depth
before. -/
theorem recorded_depth_eq_distance (rules : List Rule) (config : Config Payload)
    (hkey : config.key = Term.pretty) (hbfs : config.strategy = .breadthFirst) (lhs rhs : Text)
    (hne : lhs ≠ rhs) {search : Search Payload Recipe Evidence} {r : Record Payload Recipe}
    (h : Recorded (.ofRules rules) config (.ofText lhs) (.ofText rhs) search r) :
    ∃ x focus, search = .exploring x focus ∧
      (∀ v ∈ x.vertices.items, distance rules (v.side.pick lhs rhs) v.pretty = v.depth) ∧
      r.handedOut.Pairwise (· < ·) ∧
      ∀ u ∈ x.vertices.items, ∀ v ∈ x.vertices.items, u.side = .left → v.side = .right →
        u.depth = v.depth → v.id ∈ r.handedOut → [u.id, v.id].Sublist r.handedOut := by
  have hkeyne := Config.key_ofText_ne hkey hne
  obtain ⟨x, focus, rfl, hx⟩ := h.exists_logged hkeyne
  have hrange := hx.handedOut_eq_range hkeyne hbfs
  refine ⟨x, focus, rfl, ?_, ?_, ?_⟩
  · intro v hv
    obtain ⟨i, hi⟩ := Array.mem_iff_getElem?.mp hv
    exact hx.reached.distance_eq (v := v.asBorn) hkey hbfs hne (Exploration.getElem?_skeleton_of hi)
  · rw [hrange]
    exact List.pairwise_lt_range
  · intro u hu v hv huside hvside hdepth hmem
    obtain ⟨i, hi⟩ := Array.mem_iff_getElem?.mp hu
    obtain ⟨j, hj⟩ := Array.mem_iff_getElem?.mp hv
    have hord := hx.reached.orderly hkeyne
    obtain rfl := hord.id_eq hi
    obtain rfl := hord.id_eq hj
    have hrank : u.rank < v.rank := by
      rw [Vertex.rank, Vertex.rank, huside, hvside, hdepth]
      exact Nat.lt_succ_self _
    have hlt : u.id < v.id := by
      by_contra hle
      exact absurd hrank (Nat.not_lt.mpr
        (hx.reached.rank_mono (u := v.asBorn) (v := u.asBorn) hkeyne hbfs
          (Exploration.getElem?_skeleton_of hj) (Exploration.getElem?_skeleton_of hi)
          (Nat.le_of_not_lt hle)))
    rw [hrange, List.mem_range] at hmem
    rw [hrange]
    exact pair_sublist_range hlt hmem

/-- The left text has one reduct and the right text none. The first step finds the reduct, the
second one that there are no others, and the third one turns to the right side. -/
theorem recorded_depth_eq_distance_oneRule :
    let rules : List Rule := [{ name := utf8 "ab", lhs := utf8 "a", rhs := utf8 "b" }]
    let step (search : Search Payload Recipe Evidence) := (search.step (.ofRules rules) 0 {}).search
    let third := step (step (step (start {} (.ofText (utf8 "a")) (.ofText (utf8 "c"))).1))
    ∃ x focus r, Recorded (.ofRules rules) {} (.ofText (utf8 "a")) (.ofText (utf8 "c")) third r ∧
      third = .exploring x focus ∧
      x.vertices.items.map (fun v ↦ (v.pretty, v.depth))
        = #[(utf8 "a", 0), (utf8 "c", 0), (utf8 "b", 1)] ∧
      (∀ v ∈ x.vertices.items,
        distance rules (v.side.pick (utf8 "a") (utf8 "c")) v.pretty = v.depth) ∧
      r.handedOut = [0, 1] ∧ r.handedOut.Pairwise (· < ·) := by
  intro rules step third
  have hstart : Recorded (.ofRules rules) {} (.ofText (utf8 "a")) (.ofText (utf8 "c"))
      (start {} (.ofText (utf8 "a")) (.ofText (utf8 "c"))).1 {} := .start
  obtain ⟨r, hr, hhanded⟩ : ∃ r, Recorded (.ofRules rules) {} (.ofText (utf8 "a"))
      (.ofText (utf8 "c")) third r ∧ r.handedOut = [0, 1] :=
    ⟨_, ((hstart.step 0 {}).step 0 {}).step 0 {}, by decide +kernel⟩
  obtain ⟨x, focus, hx, hdistance, hsorted, -⟩ :=
    recorded_depth_eq_distance rules {} rfl rfl (utf8 "a") (utf8 "c") (by decide) hr
  have hgraph : third.graph?.map (fun x ↦ x.vertices.items.map fun v ↦ (v.pretty, v.depth))
      = some #[(utf8 "a", 0), (utf8 "c", 0), (utf8 "b", 1)] := by decide +kernel
  rw [hx] at hgraph
  exact ⟨x, focus, r, hr, hx, Option.some.inj hgraph, hdistance, hhanded, hsorted⟩

end Search

end Joinability
