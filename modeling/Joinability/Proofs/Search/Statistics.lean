import Mathlib.Order.Bounds.Basic
import Joinability.Proofs.Search.Record

/-!
# The statistics balance the graph

A search counts what it does beside the graph that it grows: a step counts itself and the reduct
that it was given, a new vertex or edge is counted where it is added, and a discarded reduct where
it is discarded. `Exploration.Balanced` is what the counts come to, whatever the engine answers.

`Stats.Measures` is the part of it that is about the graph. It looks at nothing but the skeleton, so
only a new child and the edge at which the sides meet can disturb it. The rest is about the steps:
each of them was given a reduct, has closed a vertex, or has found the engine failing. No failure
leaves a trace in the graph, and therefore the balance needs the record of the calls.
-/

namespace Joinability

variable {σ α τ π : Type}

/-! ## What the graph shows -/

namespace Stats

/-- The vertices added on a side. -/
def on (s : Stats) : Side → Nat
  | .left => s.left
  | .right => s.right

/-- The statistics are those of a skeleton: two trees, and perhaps the edge at which they meet. -/
structure Measures (s : Stats) (k : Skeleton α τ π) : Prop where
  side (d : Side) : s.on d = k.vertices.countP (·.side = d)
  edges : s.edges = k.edges.size
  trees : k.edges.size + 2 = k.vertices.size + if k.meeting.isSome then 1 else 0
  maxDepth : IsGreatest {d | d ∈ k.vertices.map Vertex.depth} s.maxDepth

namespace Measures

variable {s : Stats} {k : Skeleton α τ π}

theorem spent (h : s.Measures k) (steps reducts duplicates : Nat) :
    ({ s with steps, reducts, duplicates } : Stats).Measures k :=
  ⟨h.side, h.edges, h.trees, h.maxDepth⟩

/-- A child is counted with its side and its depth. -/
theorem withChild (h : s.Measures k) (p : Vertex α) (t : Term α) (tokens : List Nat) (use : RuleUse)
    (recipe : Option τ) : ({ s.withVertex p.side (depthBelow p.depth) with edges := s.edges + 1 } :
      Stats).Measures (k.withChild p t tokens use recipe) := by
  refine ⟨?_, ?_, ?_, ?_⟩
  · intro d
    show _ = (k.vertices.push (k.child p t tokens)).countP (·.side = d)
    rw [Array.countP_push, ← h.side d]
    have hside : (k.child p t tokens).side = p.side := rfl
    rw [hside]
    cases p.side <;> cases d <;> rfl
  · exact congrArg (· + 1) h.edges |>.trans (Array.size_push _).symm
  · show (k.edges.push _).size + 2 = (k.vertices.push _).size + if k.meeting.isSome then 1 else 0
    rw [Array.size_push, Array.size_push, Nat.add_right_comm, h.trees, Nat.add_right_comm]
  · have hdepths : {d | d ∈ (k.withChild p t tokens use recipe).vertices.map Vertex.depth}
        = insert (depthBelow p.depth) {d | d ∈ k.vertices.map Vertex.depth} := by
      ext d
      show d ∈ (k.vertices.push (k.child p t tokens)).map Vertex.depth ↔ _
      rw [Array.map_push, Array.mem_push, Set.mem_insert_iff, or_comm]
      rfl
    rw [hdepths]
    have hmax : ({ s.withVertex p.side (depthBelow p.depth) with edges := s.edges + 1 } :
        Stats).maxDepth = max (depthBelow p.depth) s.maxDepth := by
      rw [max_comm]
      cases p.side <;> rfl
    rw [hmax]
    exact h.maxDepth.insert _

theorem withMeeting (h : s.Measures k) (hapart : k.meeting = none) (source target : Nat)
    (use : RuleUse) (recipe : Option τ) :
    ({ s with edges := s.edges + 1 } : Stats).Measures
    (k.withMeeting source target use recipe) := by
  refine ⟨h.side, ?_, ?_, h.maxDepth⟩
  · exact congrArg (· + 1) h.edges |>.trans (Array.size_push _).symm
  · have htrees := h.trees
    rw [hapart] at htrees
    show (k.edges.push _).size + 2 = k.vertices.size + 1
    rw [Array.size_push, Nat.add_right_comm, htrees]
    rfl

end Measures

end Stats

/-! ## What the steps were spent on -/

/-- The number of vertices that have been visited. -/
def Vertices.countVisited (vs : Vertices α) : Nat := vs.items.countP (·.visited)

namespace Exploration

theorem countOn_eq (x : Exploration α τ π) (s : Side) :
    x.vertices.countOn s = x.skeleton.vertices.countP (·.side = s) := by
  show _ = (x.vertices.items.map Vertex.asBorn).countP _
  rw [Array.countP_map]
  rfl

theorem mem_depths_iff {x : Exploration α τ π} {d : Nat} :
    d ∈ x.skeleton.vertices.map Vertex.depth ↔ ∃ v ∈ x.vertices.items, v.depth = d := by
  show d ∈ (x.vertices.items.map Vertex.asBorn).map Vertex.depth ↔ _
  rw [Array.map_map, Array.mem_map]
  rfl

theorem countVisited_eq (x : Exploration α τ π) :
    x.vertices.countVisited = (x.vertices.items.map Vertex.visited).countP id := by
  rw [Array.countP_map]
  rfl

theorem countVisited_advance {x : Exploration α τ π} {v : Vertex α}
    (hv : x.vertices.items[v.id]? = some v) (next : Nat) :
    (x.advance v next).vertices.countVisited = x.vertices.countVisited := by
  have hmap : (x.put { v with cursor := next }).vertices.items.map Vertex.visited
      = x.vertices.items.map Vertex.visited := map_put (v := { v with cursor := next }) hv rfl
  rw [countVisited_eq, countVisited_eq]
  exact congrArg (Array.countP id) hmap

theorem countVisited_grow {x : Exploration α τ π} {p : Vertex α} (hp : p.id < x.vertices.size)
    (t : Term α) (use : RuleUse) (recipe : Option τ) :
    (x.grow p t use recipe).2.2.vertices.countVisited = x.vertices.countVisited := by
  rw [countVisited_eq, map_grow hp t use recipe rfl, Array.countP_push, ← countVisited_eq]
  rfl

theorem countVisited_link (x : Exploration α τ π) {source target : Nat} (hne : target ≠ source)
    (use : RuleUse) (recipe : Option τ) :
    (x.link source target use recipe).2.vertices.countVisited = x.vertices.countVisited := by
  rw [countVisited_eq, map_link x hne use recipe rfl rfl, ← countVisited_eq]

theorem countVisited_close {x : Exploration α τ π} {v : Vertex α}
    (hv : x.vertices.items[v.id]? = some v) (hvis : v.visited = false) :
    (x.put { v with visited := true }).vertices.countVisited = x.vertices.countVisited + 1 := by
  obtain ⟨hlt, hget⟩ := Array.getElem?_eq_some_iff.mp hv
  have hset : x.vertices.items.modify v.id (fun _ ↦ { v with visited := true })
      = x.vertices.items.set v.id { v with visited := true } hlt := by
    refine Array.ext_getElem? ?_
    intro i
    rw [Array.getElem?_modify, Array.getElem?_set]
    split
    · next hi => rw [← hi, hv, Option.map_some]
    · rfl
  show (x.vertices.items.modify v.id fun _ ↦ { v with visited := true }).countP (·.visited) = _
  rw [hset, Array.countP_set, hget, hvis]
  rfl

theorem stats_grow (x : Exploration α τ π) (p : Vertex α) (t : Term α) (use : RuleUse)
    (recipe : Option τ) : (x.grow p t use recipe).2.2.stats
      = { x.stats.withVertex p.side (depthBelow p.depth) with edges := x.stats.edges + 1 } := by
  have hedges : x.stats.edges = (x.stats.withVertex p.side (depthBelow p.depth)).edges := by
    cases p.side <;> rfl
  rw [hedges]
  rfl

theorem reducts_grow (x : Exploration α τ π) (p : Vertex α) (t : Term α) (use : RuleUse)
    (recipe : Option τ) : (x.grow p t use recipe).2.2.stats.reducts = x.stats.reducts ∧
      (x.grow p t use recipe).2.2.stats.duplicates = x.stats.duplicates := by
  rw [stats_grow]
  cases p.side <;> exact ⟨rfl, rfl⟩

/-- The statistics balance the graph, in which the engine has failed a number of times. -/
structure Balanced (x : Exploration α τ π) (failures : Nat) : Prop where
  measures : x.stats.Measures x.skeleton
  reducts : x.stats.reducts = x.stats.edges + x.stats.duplicates
  steps : x.stats.steps = x.stats.reducts + x.vertices.countVisited + failures

namespace Balanced

variable {x : Exploration α τ π} {n : Nat} {v w : Vertex α}

theorem rooted (config : Config α) (lhs rhs : Term α) :
    (Exploration.rooted config lhs rhs : Exploration α τ π).Balanced 0 := by
  obtain ⟨left, right, hitems, hl, hr⟩ := items_rooted (τ := τ) (π := π) config lhs rhs
  have hdepths :
      {d | d ∈ (Exploration.rooted config lhs rhs : Exploration α τ π).skeleton.vertices.map
      Vertex.depth} = {0} := by
    ext d
    show d ∈ (Exploration.rooted config lhs rhs : Exploration α τ π).skeleton.vertices.map
      Vertex.depth ↔ d = 0
    rw [mem_depths_iff, hitems]
    simp [hl.depth, hr.depth, eq_comm]
  refine ⟨⟨?_, rfl, ?_, ?_⟩, rfl, rfl⟩
  · intro d
    have hcount : #[left, right].countP (·.side = d) = 1 := by cases d <;> simp [hl.side, hr.side]
    rw [← countOn_eq, Vertices.countOn, hitems, hcount]
    cases d <;> rfl
  · rw [size_vertices_skeleton]
    rfl
  · rw [hdepths]
    exact isGreatest_singleton

theorem fail (h : x.Balanced n) : x.spend.Balanced (n + 1) :=
  ⟨h.measures.spent _ _ _, h.reducts, congrArg (· + 1) h.steps⟩

theorem close (h : x.Balanced n) (hv : x.vertices.items[v.id]? = some v)
    (hvis : v.visited = false) : (x.spend.put { v with visited := true }).Balanced n := by
  refine ⟨?_, h.reducts, ?_⟩
  · rw [skeleton_put (x := x.spend) (v := { v with visited := true }) hv rfl]
    exact h.measures.spent _ _ _
  · rw [countVisited_close (x := x.spend) hv hvis]
    have hsteps := h.steps
    show x.stats.steps + 1 = x.stats.reducts + (x.vertices.countVisited + 1) + n
    omega

/-- A step that was given a reduct keeps the balance if the reduct is counted once more, as an edge
or as a duplicate. -/
theorem of_reduct (h : x.Balanced n) {y : Exploration α τ π}
    (hmeasures : y.stats.Measures y.skeleton) (hsteps : y.stats.steps = x.stats.steps + 1)
    (hreducts : y.stats.reducts = x.stats.reducts + 1)
    (honce : y.stats.edges + y.stats.duplicates = x.stats.edges + x.stats.duplicates + 1)
    (hvisited : y.vertices.countVisited = x.vertices.countVisited) : y.Balanced n := by
  refine ⟨hmeasures, ?_, ?_⟩
  · rw [hreducts, honce, h.reducts]
  · have hold := h.steps
    rw [hsteps, hreducts, hvisited]
    omega

theorem discard (h : x.Balanced n) (hv : x.vertices.items[v.id]? = some v) (next : Nat) :
    (x.spend.advance v next).discard.Balanced n := by
  refine h.of_reduct ?_ rfl rfl rfl (countVisited_advance (x := x.spend) hv next)
  rw [skeleton_discard, skeleton_advance (x := x.spend) hv]
  exact h.measures.spent _ _ _

theorem grow (h : x.Balanced n) (hv : x.vertices.items[v.id]? = some v) {t : Term α}
    (hnew : x.findId? t = none) (next : Nat) (use : RuleUse) (recipe : Option τ) :
    ((x.spend.advance v next).grow { v with cursor := next } t use recipe).2.2.Balanced n := by
  have hlt : v.id < (x.spend.advance v next).vertices.size :=
    (Array.getElem?_eq_some_iff.mp (getElem?_advance_self hv)).1
  obtain ⟨hreducts, hduplicates⟩ :=
    reducts_grow (x.spend.advance v next) { v with cursor := next } t use recipe
  refine h.of_reduct ?_ (steps_grow _ _ _ _ _) hreducts ?_ ?_
  · rw [stats_grow,
      skeleton_grow (x := x.spend.advance v next) (p := { v with cursor := next }) hnew
      hlt, skeleton_advance (x := x.spend) hv]
    exact (h.measures.spent _ _ _).withChild v t _ use recipe
  · rw [hduplicates, stats_grow]
    exact Nat.add_right_comm _ _ _
  · rw [countVisited_grow (p := { v with cursor := next }) hlt]
    exact countVisited_advance (x := x.spend) hv next

theorem meet (h : x.Balanced n) (hapart : x.meeting = none) (hv : x.vertices.items[v.id]? = some v)
    (hw : x.vertices.items[w.id]? = some w) (hside : w.side ≠ v.side) (next : Nat) (use : RuleUse)
    (recipe : Option τ) : (((x.spend.advance v next).link v.id w.id use recipe).2.markMeeting
      x.edges.size).Balanced n := by
  refine h.of_reduct ?_ rfl rfl (Nat.add_right_comm _ _ _) ?_
  · rw [skeleton_meet hv hw hside]
    exact (h.measures.spent _ _ _).withMeeting hapart v.id w.id use recipe
  · exact (countVisited_link _ (id_ne_of_side_ne hv hw hside) use recipe).trans
      (countVisited_advance (x := x.spend) hv next)

/-- **Whatever the engine answers when it is asked, the balance is kept.** -/
theorem ask {e : Engine σ α τ π} {s : σ} {y : Exploration α τ π} {g : Option Nat} (h : x.Balanced n)
    (hord : x.Orderly (some v.id)) (hv : x.vertices.items[v.id]? = some v)
    (hm : Move (e.frozen s) x (some v.id) y g) :
    y.Balanced (n + if (e.tryNext v v.cursor s).1.isOk then 0 else 1) := by
  obtain ⟨u, hu, hvis⟩ := hord.unvisited v.id List.mem_cons_self
  obtain rfl : v = u := Option.some.inj (hv.symm.trans hu)
  have hsame {u : Vertex α} (hf : some v.id = some u.id) (hu : x.vertices.items[u.id]? = some u) :
      u = v := by
    rw [← Option.some.inj hf, hv] at hu
    exact (Option.some.inj hu).symm
  generalize hf : some v.id = f at hm
  cases hm with
  | take _ _ => exact absurd hf (by simp)
  | dry _ _ => exact absurd hf (by simp)
  | fail _ hu htry =>
    obtain rfl := hsame hf hu
    rw [show (e.tryNext _ _ s).1 = _ from htry]
    exact h.fail
  | close _ hu htry =>
    obtain rfl := hsame hf hu
    rw [show (e.tryNext _ _ s).1 = _ from htry]
    exact h.close hv hvis
  | @grow _ _ r _ hu htry hnew =>
    obtain rfl := hsame hf hu
    rw [show (e.tryNext _ _ s).1 = _ from htry]
    exact h.grow hv hnew r.next r.use r.recipe
  | @discard _ _ _ r _ hu htry _ _ _ =>
    obtain rfl := hsame hf hu
    rw [show (e.tryNext _ _ s).1 = _ from htry]
    exact h.discard hv r.next
  | @meet _ w _ r hx hu htry _ hw hside =>
    obtain rfl := hsame hf hu
    rw [show (e.tryNext _ _ s).1 = _ from htry]
    exact h.meet hx.meeting hv hw hside r.next r.use r.recipe

end Balanced

variable {e : Engine σ α τ π} {config : Config α} {lhs rhs : Term α} {x : Exploration α τ π}
  {focus : Option Nat} {r : Record α τ}

theorem Logged.balanced (hne : config.key lhs ≠ config.key rhs)
    (h : Logged e config lhs rhs x focus r) : x.Balanced r.failures := by
  induction h with
  | start => exact .rooted config lhs rhs
  | take _ _ hnext ih =>
    rw [(next_eq hnext).2]
    exact ⟨ih.measures, ih.reducts, ih.steps⟩
  | dry _ _ hnext ih =>
    rw [(next_eq hnext).2]
    exact ⟨ih.measures, ih.reducts, ih.steps⟩
  | ask h hv hm ih =>
    rw [Record.failures_append]
    exact ih.ask (h.reached.orderly hne) hv hm

end Exploration

namespace Search

/-- **The statistics balance the graph.** However many steps a search has made, with any engine,
also one that fails: its statistics count the vertices of each side and the edges, of which there
are two less than vertices, and one more when the sides have met. Every reduct has become an edge or
was discarded. Every step was given a reduct, has visited a vertex, or has found the engine failing.
The greatest depth is that of a vertex. -/
theorem recorded_balanced {e : Engine σ α τ π} {config : Config α} {lhs rhs : Term α}
    {search : Search α τ π} {r : Record α τ} (h : Recorded e config lhs rhs search r)
    {x : Exploration α τ π} (hx : search.graph? = some x) :
    x.stats.left = x.vertices.countOn .left ∧ x.stats.right = x.vertices.countOn .right ∧
      x.stats.edges = x.edges.size ∧
      x.edges.size + 2 = x.vertices.size + (if x.meeting.isSome then 1 else 0) ∧
      x.stats.reducts = x.stats.edges + x.stats.duplicates ∧
      x.stats.steps = x.stats.reducts + x.vertices.countVisited + r.failures ∧
      IsGreatest {d | ∃ v ∈ x.vertices.items, v.depth = d} x.stats.maxDepth := by
  cases search with
  | idle | agreed => exact absurd hx (by simp [graph?])
  | exploring y focus =>
    obtain rfl : y = x := Option.some.inj hx
    obtain ⟨hne, hlogged⟩ := h.logged
    have hbalanced := hlogged.balanced hne
    have hmeasures := hbalanced.measures
    refine ⟨?_, ?_, hmeasures.edges, ?_, hbalanced.reducts, hbalanced.steps, ?_⟩
    · rw [Exploration.countOn_eq, ← hmeasures.side]
      rfl
    · rw [Exploration.countOn_eq, ← hmeasures.side]
      rfl
    · have htrees := hmeasures.trees
      rwa [Exploration.size_vertices_skeleton] at htrees
    · have hdepths : {d | ∃ v ∈ y.vertices.items, v.depth = d}
          = {d | d ∈ y.skeleton.vertices.map Vertex.depth} := by
        ext d
        exact Exploration.mem_depths_iff.symm
      rw [hdepths]
      exact hmeasures.maxDepth

/-- The engine that answers what its state says: that it fails, that there is no reduct left, or a
reduct. -/
def dictated : Engine (Option (Option Text)) Unit Unit Unit where
  tryNext _ cursor s := (match s with
    | none => .error (.engineFailed (utf8 "no answer at hand"))
    | some none => .ok none
    | some (some t) =>
      .ok (some { term := { pretty := t }, next := cursor + 1, recipe := none, use := {} }), s)
  prove _ s := (.ok (), s)
  reflexivity _ := .ok ()
  symmetry _ := .ok ()
  transitivity _ _ := .ok ()

/-- Five steps of which one fails, one finds a new term, one a known term, one has no reduct left,
and one finds a term of the other side. -/
theorem recorded_balanced_dictated :
    let lhs : Term Unit := { pretty := utf8 "a" }
    let rhs : Term Unit := { pretty := utf8 "b" }
    let step (answer : Option (Option Text)) (search : Search Unit Unit Unit) :=
      (search.step dictated 0 answer).search
    let search := step (some (some (utf8 "c"))) (step (some none) (step (some (some (utf8 "a")))
      (step (some (some (utf8 "c"))) (step none (start {} lhs rhs).1))))
    ∃ x r, Recorded dictated {} lhs rhs search r ∧ search.graph? = some x ∧ x.meeting = some 1 ∧
      r.failures = 1 ∧
      x.stats = { steps := 5, reducts := 3, left := 2, right := 1, edges := 2, duplicates := 1,
                  maxDepth := 1 } ∧
      x.edges.size + 2 = x.vertices.size + 1 ∧
      x.stats.steps = x.stats.reducts + x.vertices.countVisited + 1 := by
  intro lhs rhs step search
  have hstart : Recorded dictated {} lhs rhs (start {} lhs rhs).1 {} := .start
  obtain ⟨r, hr, hfailures⟩ : ∃ r, Recorded dictated {} lhs rhs search r ∧ r.failures = 1 :=
    ⟨_, ((((hstart.step 0 none).step 0 (some (some (utf8 "c")))).step 0
      (some (some (utf8 "a")))).step 0 (some none)).step 0 (some (some (utf8 "c"))),
      by decide +kernel⟩
  have hstats : search.graph?.map (fun x ↦ (x.meeting, x.stats)) = some (some 1,
      { steps := 5, reducts := 3, left := 2, right := 1, edges := 2, duplicates := 1,
        maxDepth := 1 }) := by decide +kernel
  obtain ⟨x, hx, hfigures⟩ := Option.map_eq_some_iff.mp hstats
  obtain ⟨hmeeting, hstats⟩ := Prod.mk.inj hfigures
  obtain ⟨-, -, -, htrees, -, hsteps, -⟩ := recorded_balanced hr hx
  rw [hmeeting] at htrees
  rw [hfailures] at hsteps
  exact ⟨x, r, hr, hx, hmeeting, hfailures, hstats, htrees, hsteps⟩

end Search

end Joinability
