import Joinability.Proofs.Search.Forest
import Joinability.Proofs.Search.Frontier

/-!
# The moves of a search

A search that has started is an exploration together with the vertex in focus. `Move` lists
everything that can happen to such a pair, one constructor for each way in which it changes, and
`Reached` is what moves make of the two roots. The engine is arbitrary, and so is its state at every
move: what holds of all reached pairs holds whatever the engine answers, and also when it fails.

A step of the library is not quite a move. It takes a vertex from the frontier and expands it at
once, and it guards against ids that were never issued and against vertices that were visited
before. `Orderly` is the invariant that keeps the guards from ever speaking, and every move
preserves it.

## What is left to do

`Exploration.pending` lists the vertices that still have to be expanded: the one in focus, if any,
and then those that wait. No vertex occurs there twice and none of them has been visited. That is
all the search needs to know of its frontier, so it holds for both orders of expansion.
-/

namespace Joinability

variable {σ α τ π : Type}

theorem nodup_of_subperm {β : Type} {l m : List β} (h : l.Subperm m) (hm : m.Nodup) : l.Nodup := by
  obtain ⟨k, hk, hsub⟩ := h
  exact hk.nodup_iff.mp (hm.sublist hsub)

/-- The engine that is asked for reducts in the state `s`, whatever its state is. -/
def Engine.frozen (e : Engine σ α τ π) (s : σ) : Engine σ α τ π :=
  { e with tryNext := fun v cursor _ ↦ e.tryNext v cursor s }

/-! ## Moves -/

namespace Exploration

/-- The sides have not met, and the budget is not spent. -/
structure IsOpen (x : Exploration α τ π) : Prop where
  meeting : x.meeting = none
  steps : x.stats.steps < x.config.maxSteps

/-- Everything that can happen to an exploration and the vertex in focus. -/
inductive Move (e : Engine σ α τ π) :
    Exploration α τ π → Option Nat → Exploration α τ π → Option Nat → Prop
  /-- The frontier hands out a vertex. -/
  | take {x y : Exploration α τ π} {i : Nat} {entries : List (Entry α)} (hx : x.IsOpen)
      (h : x.next = (some i, y, entries)) : Move e x none y (some i)
  /-- The frontier has nothing to hand out. -/
  | dry {x y : Exploration α τ π} {entries : List (Entry α)} (hx : x.IsOpen)
      (h : x.next = (none, y, entries)) : Move e x none y none
  /-- The engine fails. -/
  | fail {x : Exploration α τ π} {v : Vertex α} {s : σ} {fault : Fault} (hx : x.IsOpen)
      (hv : x.vertices.items[v.id]? = some v) (h : (e.tryNext v v.cursor s).1 = .error fault) :
      Move e x (some v.id) x.spend (some v.id)
  /-- The engine has no reduct left. -/
  | close {x : Exploration α τ π} {v : Vertex α} {s : σ} (hx : x.IsOpen)
      (hv : x.vertices.items[v.id]? = some v) (h : (e.tryNext v v.cursor s).1 = .ok none) :
      Move e x (some v.id) (x.spend.put { v with visited := true }) none
  /-- A reduct becomes a vertex. -/
  | grow {x : Exploration α τ π} {v : Vertex α} {s : σ} {r : Reduct α τ} (hx : x.IsOpen)
      (hv : x.vertices.items[v.id]? = some v) (h : (e.tryNext v v.cursor s).1 = .ok (some r))
      (hnew : x.findId? r.term = none) :
      Move e x (some v.id)
        ((x.spend.advance v r.next).grow { v with cursor := r.next } r.term r.use r.recipe).2.2
        (some v.id)
  /-- A reduct is a vertex of the same side already. -/
  | discard {x : Exploration α τ π} {v w : Vertex α} {s : σ} {r : Reduct α τ} (hx : x.IsOpen)
      (hv : x.vertices.items[v.id]? = some v) (h : (e.tryNext v v.cursor s).1 = .ok (some r))
      (hfind : x.findId? r.term = some w.id) (hw : x.vertices.items[w.id]? = some w)
      (hside : w.side = v.side) :
      Move e x (some v.id) (x.spend.advance v r.next).discard (some v.id)
  /-- A reduct is a vertex of the other side. -/
  | meet {x : Exploration α τ π} {v w : Vertex α} {s : σ} {r : Reduct α τ} (hx : x.IsOpen)
      (hv : x.vertices.items[v.id]? = some v) (h : (e.tryNext v v.cursor s).1 = .ok (some r))
      (hfind : x.findId? r.term = some w.id) (hw : x.vertices.items[w.id]? = some w)
      (hside : w.side ≠ v.side) :
      Move e x (some v.id)
        (((x.spend.advance v r.next).link v.id w.id r.use r.recipe).2.markMeeting x.edges.size)
        none

theorem Move.of_frozen {e : Engine σ α τ π} {s : σ} {x y : Exploration α τ π} {f g : Option Nat}
    (hm : Move (e.frozen s) x f y g) : Move e x f y g := by
  cases hm with
  | take hx h => exact .take hx h
  | dry hx h => exact .dry hx h
  | fail hx hv h => exact .fail (s := s) hx hv h
  | close hx hv h => exact .close (s := s) hx hv h
  | grow hx hv h hnew => exact .grow (s := s) hx hv h hnew
  | discard hx hv h hfind hw hside => exact .discard (s := s) hx hv h hfind hw hside
  | meet hx hv h hfind hw hside => exact .meet (s := s) hx hv h hfind hw hside

/-- What moves make of the two roots. -/
inductive Reached (e : Engine σ α τ π) (config : Config α) (lhs rhs : Term α) :
    Exploration α τ π → Option Nat → Prop
  | start : Reached e config lhs rhs (rooted config lhs rhs) none
  | move {x y : Exploration α τ π} {f g : Option Nat} (h : Reached e config lhs rhs x f)
      (hm : Move e x f y g) : Reached e config lhs rhs y g

/-! ## Order -/

/-- The vertices that still have to be expanded. -/
def pending (x : Exploration α τ π) (focus : Option Nat) : List Nat :=
  focus.toList ++ x.frontier.toList

theorem pending_some (x : Exploration α τ π) (i : Nat) :
    x.pending (some i) = i :: x.frontier.toList := rfl

/-- The vertex with an id was issued, and has not been visited. -/
def Unvisited (x : Exploration α τ π) (i : Nat) : Prop :=
  ∃ v, x.vertices.items[i]? = some v ∧ v.visited = false

/-- What the guards of a step would refuse does not happen. -/
structure Orderly (x : Exploration α τ π) (focus : Option Nat) : Prop where
  forest : x.skeleton.IsForest
  unvisited : ∀ i ∈ x.pending focus, x.Unvisited i
  nodup : (x.pending focus).Nodup
  edges_le : x.edges.size ≤ x.stats.steps

theorem Unvisited.put {x : Exploration α τ π} {v : Vertex α} {i : Nat} (h : x.Unvisited i)
    (hv : v.id = i → v.visited = false) : (x.put v).Unvisited i := by
  obtain ⟨u, hu, hvis⟩ := h
  rw [Unvisited, getElem?_put]
  by_cases hi : v.id = i
  · exact ⟨v, by rw [if_pos hi, hu, Option.map_some], hv hi⟩
  · exact ⟨u, by rw [if_neg hi, hu], hvis⟩

theorem Unvisited.grow {x : Exploration α τ π} {p : Vertex α} (hp : p.id < x.vertices.size)
    {t : Term α} {use : RuleUse} {recipe : Option τ} {i : Nat} (h : x.Unvisited i) :
    (x.grow p t use recipe).2.2.Unvisited i := by
  obtain ⟨u, hu, hvis⟩ := h
  have hi : i ≠ x.vertices.size := Nat.ne_of_lt (Array.getElem?_eq_some_iff.mp hu).1
  rw [Unvisited, getElem?_grow hp, if_neg hi, hu]
  by_cases hpi : p.id = i
  · exact ⟨u.leave x.edges.size use, by rw [if_pos hpi, Option.map_some], hvis⟩
  · exact ⟨u, by rw [if_neg hpi], hvis⟩

theorem Unvisited.link {x : Exploration α τ π} {source target : Nat} (hne : target ≠ source)
    {use : RuleUse} {recipe : Option τ} {i : Nat} (h : x.Unvisited i) :
    (x.link source target use recipe).2.Unvisited i := by
  obtain ⟨u, hu, hvis⟩ := h
  rw [Unvisited, getElem?_link x hne, hu]
  by_cases hs : source = i
  · exact ⟨u.leave x.edges.size use, by rw [if_pos hs, Option.map_some], hvis⟩
  · by_cases ht : target = i
    · exact ⟨u.arrive x.edges.size, by rw [if_neg hs, if_pos ht, Option.map_some], hvis⟩
    · exact ⟨u, by rw [if_neg hs, if_neg ht], hvis⟩

theorem getElem?_advance_self {x : Exploration α τ π} {v : Vertex α} {next : Nat}
    (hv : x.vertices.items[v.id]? = some v) :
    (x.spend.advance v next).vertices.items[v.id]? = some { v with cursor := next } := by
  have h := getElem?_put x.spend { v with cursor := next } v.id
  rw [if_pos rfl] at h
  exact h.trans (by rw [show x.spend.vertices = x.vertices from rfl, hv, Option.map_some])

theorem id_ne_of_side_ne {x : Exploration α τ π} {v w : Vertex α}
    (hv : x.vertices.items[v.id]? = some v) (hw : x.vertices.items[w.id]? = some w)
    (hside : w.side ≠ v.side) : w.id ≠ v.id := by
  intro hid
  rw [hid, hv] at hw
  exact hside (Option.some.inj hw ▸ rfl)

theorem steps_grow (x : Exploration α τ π) (p : Vertex α) (t : Term α) (use : RuleUse)
    (recipe : Option τ) : (x.grow p t use recipe).2.2.stats.steps = x.stats.steps := by
  show (x.stats.withVertex p.side (depthBelow p.depth)).steps = x.stats.steps
  cases p.side <;> rfl

theorem size_edges_grow (x : Exploration α τ π) (p : Vertex α) (t : Term α) (use : RuleUse)
    (recipe : Option τ) : (x.grow p t use recipe).2.2.edges.size = x.edges.size + 1 :=
  Array.size_push _

theorem getElem?_of_advance {x : Exploration α τ π} {v w : Vertex α} {next : Nat}
    (hv : x.vertices.items[v.id]? = some v)
    (hw : (x.spend.advance v next).vertices.items[w.id]? = some w) :
    ∃ u, u.id = w.id ∧ u.side = w.side ∧ x.vertices.items[w.id]? = some u := by
  by_cases hid : v.id = w.id
  · rw [← hid, getElem?_advance_self hv] at hw
    obtain rfl := Option.some.inj hw
    exact ⟨v, rfl, rfl, hv⟩
  · have hput := getElem?_put x.spend { v with cursor := next } w.id
    rw [if_neg hid] at hput
    exact ⟨w, rfl, rfl, hput.symm.trans hw⟩

namespace Orderly

variable {x y : Exploration α τ π} {focus : Option Nat}

theorem id_eq (h : x.Orderly focus) {i : Nat} {v : Vertex α} (hv : x.vertices.items[i]? = some v) :
    v.id = i := by
  have hid := h.forest.id_eq (getElem?_skeleton_of hv)
  rwa [Vertex.id_asBorn] at hid

theorem depth_lt (h : x.Orderly focus) (hx : x.IsOpen) {i : Nat} {v : Vertex α}
    (hv : x.vertices.items[i]? = some v) : v.depth + 1 < UInt64.size := by
  have hdepth : v.asBorn.depth ≤ x.edges.size := h.forest.depth_le (getElem?_skeleton_of hv)
  rw [Vertex.depth_asBorn] at hdepth
  have hedges := h.edges_le
  have hsteps := hx.steps
  have hword := x.config.maxSteps_lt
  omega

theorem rooted {config : Config α} {lhs rhs : Term α} (hne : config.key lhs ≠ config.key rhs) :
    (rooted config lhs rhs : Exploration α τ π).Orderly none := by
  have hempty :
      (Frontier.ofStrategy config.strategy config.maxDepth : Frontier Nat).toList = [] := by
    cases config.strategy <;> rfl
  have hlist : ((Exploration.rooted config lhs rhs : Exploration α τ π).pending none).Subperm
      [1, 0] := by
    refine (Frontier.toList_enqueue_subperm _ _ 1 0).trans ((List.subperm_cons 1).mpr ?_)
    refine (Frontier.toList_enqueue_subperm _ _ 0 0).trans ((List.subperm_cons 0).mpr ?_)
    exact hempty ▸ List.Subperm.refl []
  have hroot (s : Side) : (Exploration.rooted config lhs rhs : Exploration α τ π).Unvisited
      s.root := by
    obtain ⟨v, hv, hv'⟩ := exists_root (τ := τ) (π := π) config lhs rhs s
    exact ⟨v, hv, hv'.asBorn ▸ rfl⟩
  refine ⟨isForest_rooted hne, ?_, nodup_of_subperm hlist (by decide), Nat.le_refl 0⟩
  intro i hi
  rcases List.mem_cons.mp (hlist.subset hi) with rfl | hi
  · exact hroot .right
  · rw [List.mem_singleton] at hi
    subst hi
    exact hroot .left

/-! ### Every move keeps order -/

theorem take (h : x.Orderly none) {i : Nat} {entries : List (Entry α)}
    (hnext : x.next = (some i, y, entries)) : y.Orderly (some i) := by
  obtain ⟨hfront, hy⟩ := next_eq hnext
  have hlist : y.pending (some i) = x.pending none := (Frontier.toList_of_next hfront).symm
  have hvertices : y.vertices = x.vertices := by rw [hy]
  refine ⟨by rw [skeleton_next hnext]; exact h.forest, ?_, ?_, ?_⟩
  · have hsame : y.Unvisited = x.Unvisited := by
      funext j
      rw [Unvisited, Unvisited, hvertices]
    rw [hlist, hsame]
    exact h.unvisited
  · rw [hlist]; exact h.nodup
  · rw [hy]; exact h.edges_le

theorem dry (h : x.Orderly none) {entries : List (Entry α)}
    (hnext : x.next = (none, y, entries)) : y.Orderly none := by
  obtain ⟨hfront, hy⟩ := next_eq hnext
  have hlist : y.pending none = [] := Frontier.toList_of_next_none hfront
  refine ⟨by rw [skeleton_next hnext]; exact h.forest, ?_, ?_, ?_⟩
  · rw [hlist]
    intro i hi
    exact absurd hi List.not_mem_nil
  · rw [hlist]; exact List.nodup_nil
  · rw [hy]; exact h.edges_le

theorem spend (h : x.Orderly focus) : x.spend.Orderly focus :=
  ⟨h.forest, h.unvisited, h.nodup, Nat.le_succ_of_le h.edges_le⟩

theorem discard (h : x.Orderly focus) : x.discard.Orderly focus :=
  ⟨h.forest, h.unvisited, h.nodup, h.edges_le⟩

theorem close {v : Vertex α} (h : x.Orderly (some v.id)) (hv : x.vertices.items[v.id]? = some v) :
    (x.put { v with visited := true }).Orderly none := by
  have hnodup := h.nodup
  rw [pending_some, List.nodup_cons] at hnodup
  refine ⟨?_, ?_, hnodup.2, h.edges_le⟩
  · rw [skeleton_put (v := { v with visited := true }) hv rfl]
    exact h.forest
  · intro i hi
    -- the vertex that becomes visited does not wait any more
    refine (h.unvisited i (List.mem_cons_of_mem _ hi)).put ?_
    intro hid
    exact absurd (hid ▸ hi) hnodup.1

theorem advance {v : Vertex α} (h : x.Orderly (some v.id))
    (hv : x.vertices.items[v.id]? = some v) (next : Nat) :
    (x.advance v next).Orderly (some v.id) := by
  obtain ⟨u, hu, hvis⟩ := h.unvisited v.id List.mem_cons_self
  obtain rfl : v = u := Option.some.inj (hv.symm.trans hu)
  refine ⟨?_, ?_, h.nodup, h.edges_le⟩
  · rw [skeleton_advance hv]
    exact h.forest
  · intro i hi
    exact (h.unvisited i hi).put fun _ ↦ hvis

theorem grow {p : Vertex α} (h : x.Orderly (some p.id)) (hp : x.vertices.items[p.id]? = some p)
    (hdepth : p.depth + 1 < UInt64.size) (hsteps : x.edges.size < x.stats.steps) {t : Term α}
    (hnew : x.findId? t = none) (use : RuleUse) (recipe : Option τ) :
    (x.grow p t use recipe).2.2.Orderly (some p.id) := by
  have hlt : p.id < x.vertices.size := (Array.getElem?_eq_some_iff.mp hp).1
  obtain ⟨score, hfront⟩ := frontier_grow x p t use recipe
  have hfresh : x.vertices.size ∉ x.pending (some p.id) := by
    intro hmem
    obtain ⟨v, hv, -⟩ := h.unvisited _ hmem
    exact Nat.lt_irrefl _ (Array.getElem?_eq_some_iff.mp hv).1
  have hlist : ((x.grow p t use recipe).2.2.pending (some p.id)).Subperm
      (x.vertices.size :: x.pending (some p.id)) := by
    rw [pending, hfront]
    refine List.Subperm.trans ((List.subperm_cons p.id).mpr
      (Frontier.toList_enqueue_subperm x.frontier score x.vertices.size (depthBelow p.depth))) ?_
    exact (List.Perm.swap _ _ _).subperm
  refine ⟨?_, ?_, nodup_of_subperm hlist (List.nodup_cons.mpr ⟨hfresh, h.nodup⟩), ?_⟩
  · rw [skeleton_grow hnew hlt]
    exact h.forest.withChild (p := p.asBorn) (getElem?_skeleton_of hp) hnew hdepth _ use recipe
  · intro i hi
    rcases List.mem_cons.mp (hlist.subset hi) with rfl | hi
    · exact ⟨_, by rw [getElem?_grow hlt, if_pos rfl], rfl⟩
    · exact (h.unvisited i hi).grow hlt
  · rw [steps_grow, size_edges_grow]
    exact hsteps

theorem meet {v w : Vertex α} (h : x.Orderly (some v.id)) (hv : x.vertices.items[v.id]? = some v)
    (hw : x.vertices.items[w.id]? = some w) (hside : w.side ≠ v.side)
    (hsteps : x.edges.size < x.stats.steps) (use : RuleUse) (recipe : Option τ) :
    ((x.link v.id w.id use recipe).2.markMeeting x.edges.size).Orderly none := by
  have hne := id_ne_of_side_ne hv hw hside
  have hnodup := h.nodup
  rw [pending_some, List.nodup_cons] at hnodup
  refine ⟨?_, ?_, hnodup.2, ?_⟩
  · rw [skeleton_link x hne]
    exact h.forest.withMeeting (u := v.asBorn) (w := w.asBorn) (getElem?_skeleton_of hv)
      (getElem?_skeleton_of hw) hside use recipe
  · intro i hi
    exact (h.unvisited i (List.mem_cons_of_mem _ hi)).link hne
  · have hsize : ((x.link v.id w.id use recipe).2.markMeeting x.edges.size).edges.size
        = x.edges.size + 1 := Array.size_push _
    rw [hsize]
    exact hsteps

/-- **Every move keeps order.** -/
theorem move {e : Engine σ α τ π} {f g : Option Nat} (h : x.Orderly f) (hm : Move e x f y g) :
    y.Orderly g := by
  cases hm with
  | take _ hnext => exact h.take hnext
  | dry _ hnext => exact h.dry hnext
  | fail _ _ _ => exact h.spend
  | close _ hv _ => exact h.spend.close hv
  | @grow v s r hx hv _ hnew =>
    refine (h.spend.advance hv r.next).grow (p := { v with cursor := r.next })
      (getElem?_advance_self hv) (h.depth_lt (v := v) hx hv) (Nat.lt_succ_of_le h.edges_le) hnew
      r.use r.recipe
  | @discard v w s r _ hv _ _ _ _ => exact (h.spend.advance hv r.next).discard
  | @meet v w s r _ hv _ _ hw hside =>
    have hne := (id_ne_of_side_ne hv hw hside).symm
    have hw' : (x.spend.advance v r.next).vertices.items[w.id]? = some w := by
      rw [← hw]
      exact (getElem?_put x.spend { v with cursor := r.next } w.id).trans (if_neg hne)
    exact (h.spend.advance hv r.next).meet (v := { v with cursor := r.next })
      (getElem?_advance_self hv) hw' hside (Nat.lt_succ_of_le h.edges_le) r.use r.recipe

end Orderly

theorem Reached.orderly {e : Engine σ α τ π} {config : Config α} {lhs rhs : Term α}
    (hne : config.key lhs ≠ config.key rhs) {x : Exploration α τ π} {focus : Option Nat}
    (h : Reached e config lhs rhs x focus) : x.Orderly focus := by
  induction h with
  | start => exact Orderly.rooted hne
  | move _ hm ih => exact ih.move hm

theorem Move.isOpen {e : Engine σ α τ π} {x y : Exploration α τ π} {f g : Option Nat}
    (hm : Move e x f y g) : x.IsOpen := by
  cases hm <;> assumption

/-! ## What a move adds -/

/-- The skeletons that one move may make of an exploration. -/
inductive Growth (e : Engine σ α τ π) (x : Exploration α τ π) : Skeleton α τ π → Prop
  /-- Nothing is added. -/
  | none : Growth e x x.skeleton
  /-- A reduct of `v` with a new key is added. -/
  | child {v : Vertex α} {s : σ} {r : Reduct α τ} (hv : x.vertices.items[v.id]? = some v)
      (h : (e.tryNext v v.cursor s).1 = .ok (some r)) (hnew : x.findId? r.term = none)
      (tokens : List Nat) : Growth e x (x.skeleton.withChild v.asBorn r.term tokens r.use r.recipe)
  /-- A reduct of `v` is a vertex of the other side. -/
  | meeting {v w : Vertex α} {s : σ} {r : Reduct α τ} (hx : x.meeting = Option.none)
      (hv : x.vertices.items[v.id]? = some v)
      (h : (e.tryNext v v.cursor s).1 = .ok (some r)) (hfind : x.findId? r.term = some w.id)
      (hw : x.vertices.items[w.id]? = some w) (hside : w.side ≠ v.side) :
      Growth e x (x.skeleton.withMeeting v.id w.id r.use r.recipe)

theorem skeleton_meet {x : Exploration α τ π} {v w : Vertex α}
    (hv : x.vertices.items[v.id]? = some v) (hw : x.vertices.items[w.id]? = some w)
    (hside : w.side ≠ v.side) {next : Nat} {use : RuleUse} {recipe : Option τ} :
    (((x.spend.advance v next).link v.id w.id use recipe).2.markMeeting x.edges.size).skeleton
      = x.skeleton.withMeeting v.id w.id use recipe := by
  have hskel := skeleton_link (x.spend.advance v next) (id_ne_of_side_ne hv hw hside) use recipe
  rwa [skeleton_advance (x := x.spend) hv] at hskel

theorem Move.growth {e : Engine σ α τ π} {x y : Exploration α τ π} {f g : Option Nat}
    (hm : Move e x f y g) : Growth e x y.skeleton := by
  cases hm with
  | take _ hnext => rw [skeleton_next hnext]; exact .none
  | dry _ hnext => rw [skeleton_next hnext]; exact .none
  | fail _ _ _ => exact .none
  | @close v _ _ hv _ =>
    rw [skeleton_put (x := x.spend) (v := { v with visited := true }) hv rfl]
    exact .none
  | @grow v s r _ hv htry hnew =>
    have hadv : (x.spend.advance v r.next).skeleton = x.skeleton :=
      skeleton_advance (x := x.spend) hv
    have hlt : v.id < (x.spend.advance v r.next).vertices.size :=
      (Array.getElem?_eq_some_iff.mp (getElem?_advance_self hv)).1
    rw [skeleton_grow (x := x.spend.advance v r.next) (p := { v with cursor := r.next }) hnew hlt,
      hadv]
    exact .child hv htry hnew _
  | @discard v w s r _ hv _ _ _ _ =>
    rw [skeleton_discard, skeleton_advance (x := x.spend) hv]
    exact .none
  | @meet v w s r hx hv htry hfind hw hside =>
    rw [skeleton_meet hv hw hside]
    exact .meeting hx.meeting hv htry hfind hw hside

theorem Growth.extends {e : Engine σ α τ π} {x : Exploration α τ π} {k : Skeleton α τ π}
    (h : Growth e x k) : k.Extends x.skeleton := by
  cases h with
  | none => exact .refl _
  | child _ _ _ _ => exact Skeleton.extends_withChild _ _ _ _ _ _
  | meeting _ _ _ _ _ _ => exact Skeleton.extends_withMeeting _ _ _ _ _

theorem Move.config_eq {e : Engine σ α τ π} {x y : Exploration α τ π} {f g : Option Nat}
    (hm : Move e x f y g) : y.config = x.config := by
  cases hm with
  | take _ hnext => rw [(next_eq hnext).2]
  | dry _ hnext => rw [(next_eq hnext).2]
  | fail | close | grow | discard | meet => rfl

namespace Reached

variable {e : Engine σ α τ π} {config : Config α} {lhs rhs : Term α} {x : Exploration α τ π}
  {focus : Option Nat}

theorem config_eq (h : Reached e config lhs rhs x focus) : x.config = config := by
  induction h with
  | start => rfl
  | move _ hm ih => rw [hm.config_eq, ih]

theorem extends_rooted (h : Reached e config lhs rhs x focus) :
    x.skeleton.Extends (rooted config lhs rhs).skeleton := by
  induction h with
  | start => exact .refl _
  | move _ hm ih => exact hm.growth.extends.trans ih

theorem exists_root (h : Reached e config lhs rhs x focus) (s : Side) :
    ∃ v, x.skeleton.vertices[s.root]? = some v ∧ v.IsRootOf s (s.pick lhs rhs) := by
  obtain ⟨v, hv, hroot⟩ := Exploration.exists_root (τ := τ) (π := π) config lhs rhs s
  exact ⟨v, h.extends_rooted.vertex (hroot.asBorn ▸ getElem?_skeleton_of hv), hroot⟩

/-- The sides have met because a reduct of the vertex in focus was a vertex of the other side. -/
theorem exists_meet (h : Reached e config lhs rhs x focus) {m : Nat} (hm : x.meeting = some m) :
    ∃ (y : Exploration α τ π) (v w : Vertex α) (s : σ) (r : Reduct α τ),
      Reached e config lhs rhs y (some v.id) ∧ y.meeting = none ∧
      y.vertices.items[v.id]? = some v ∧ (e.tryNext v v.cursor s).1 = .ok (some r) ∧
      y.findId? r.term = some w.id ∧ y.vertices.items[w.id]? = some w ∧ w.side ≠ v.side ∧
      x.skeleton = y.skeleton.withMeeting v.id w.id r.use r.recipe := by
  cases h with
  | start => exact absurd hm (by simp [rooted, createRoots, ofConfig, addVertex, enqueue])
  | @move y _ _ _ h hmove =>
    have hy := hmove.isOpen.meeting
    have hapart (hxy : x.meeting = y.meeting) : False := by
      rw [hxy, hy] at hm
      exact absurd hm (by simp)
    cases hmove with
    | take _ hnext => exact (hapart (by rw [(next_eq hnext).2])).elim
    | dry _ hnext => exact (hapart (by rw [(next_eq hnext).2])).elim
    | fail | close | grow | discard => exact (hapart rfl).elim
    | @meet v w s r _ hv htry hfind hw hside =>
      exact ⟨y, v, w, s, r, h, hy, hv, htry, hfind, hw, hside, skeleton_meet hv hw hside⟩

end Reached

end Exploration

end Joinability
