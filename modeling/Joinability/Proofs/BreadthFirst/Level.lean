import Joinability.Proofs.BreadthFirst.Queue

/-!
# Level by level

`Levelled` is the invariant that follows a breadth-first search through its levels, for every
engine. The number `k` of vertices that were handed out separates those that were visited from those
that nothing has happened to yet.

## Ranks

Both trees share one queue, and at each depth the left vertices are handed out before the right
ones. The rank of a vertex, twice its depth and one more on the right, puts both facts into one
number: ids are issued in the order of ranks, and a vertex leads to vertices of the second next
rank. So while a vertex is in focus no vertex has a rank that is higher by more than two.
-/

namespace Joinability

variable {σ α τ π : Type}

/-! ## Ranks -/

/-- The place of a vertex in the order in which levels are handed out. -/
def Vertex.rank (v : Vertex α) : Nat := 2 * v.depth + v.side.root

namespace Skeleton

variable {g : Skeleton α τ π} {k : Nat}

/-- Ids are in the order of ranks, and no rank is higher by more than two than that of the vertex
which was handed out last. -/
structure Ranked (g : Skeleton α τ π) (k : Nat) : Prop where
  mono {i j : Nat} {u v : Vertex α} : g.vertices[i]? = some u → g.vertices[j]? = some v → i ≤ j →
    u.rank ≤ v.rank
  span {i : Nat} {u v : Vertex α} : g.vertices[i]? = some u → g.vertices[k - 1]? = some v →
    u.rank ≤ v.rank + 2

theorem Ranked.take (h : g.Ranked k) (hk : k < g.vertices.size) : g.Ranked (k + 1) := by
  refine ⟨h.mono, ?_⟩
  intro i u v hu hv
  obtain ⟨w, hw⟩ : ∃ w, g.vertices[k - 1]? = some w :=
    ⟨_, Array.getElem?_eq_getElem (Nat.lt_of_le_of_lt (Nat.sub_le k 1) hk)⟩
  calc u.rank ≤ w.rank + 2 := h.span hu hw
    _ ≤ v.rank + 2 := Nat.add_le_add_right (h.mono hw hv (Nat.sub_le k 1)) 2

/-- A child has the second next rank, and so the highest that is possible. -/
theorem Ranked.withChild (h : g.Ranked k) {p : Vertex α} (hp : g.vertices[p.id]? = some p)
    (hk : p.id + 1 = k) {t : Term α} {tokens : List Nat} {use : RuleUse} {recipe : Option τ}
    (hdepth : (g.child p t tokens).depth = p.depth + 1) :
    (g.withChild p t tokens use recipe).Ranked k := by
  have hlast : g.vertices[k - 1]? = some p := by
    have hid : k - 1 = p.id := by omega
    rw [hid, hp]
  have hrank : (g.child p t tokens).rank = p.rank + 2 := by
    rw [Vertex.rank, Vertex.rank, hdepth, Nat.mul_add, Nat.add_right_comm]
    rfl
  constructor
  · intro i j u v hu hv hij
    rcases of_getElem?_push hu with ⟨rfl, rfl⟩ | hu
    · rcases of_getElem?_push hv with ⟨-, rfl⟩ | hv
      · exact Nat.le_refl _
      · exact absurd (Array.getElem?_eq_some_iff.mp hv).1 (Nat.not_lt.mpr hij)
    · rcases of_getElem?_push hv with ⟨-, rfl⟩ | hv
      · rw [hrank]
        exact h.span hu hlast
      · exact h.mono hu hv hij
  · intro i u v hu hv
    rw [Skeleton.withChild, getElem?_push_of_eq_some hlast] at hv
    obtain rfl := Option.some.inj hv
    rcases of_getElem?_push hu with ⟨-, rfl⟩ | hu
    · exact Nat.le_of_eq hrank
    · exact h.span hu hlast

end Skeleton

/-! ## What was handed out -/

/-- The vertices with ids below `k` were handed out: they have been visited, all but the one in
focus, and nothing has happened to the others. The function `p` gives the progress with each
vertex. -/
structure Handed (p : Nat → Option (Bool × Nat)) (focus : Option Nat) (k : Nat) : Prop where
  visited {i c : Nat} {b : Bool} : p i = some (b, c) → i < k → b = true ∨ focus = some i
  fresh {i c : Nat} {b : Bool} : p i = some (b, c) → k ≤ i → b = false ∧ c = 0

namespace Handed

variable {p : Nat → Option (Bool × Nat)} {focus : Option Nat} {i k n : Nat}

theorem take (h : Handed p none k) : Handed p (some k) (k + 1) := by
  constructor
  · intro j c b hp hj
    rcases Nat.lt_succ_iff_lt_or_eq.mp hj with hj | rfl
    · exact Or.inl ((h.visited hp hj).resolve_right (by simp))
    · exact Or.inr rfl
  · intro j c b hp hj
    exact h.fresh hp (Nat.le_of_succ_le hj)

theorem advance (h : Handed p (some i) k) (hi : i < k) (q : Option (Bool × Nat)) :
    Handed (Function.update p i q) (some i) k := by
  constructor
  · intro j c b hp hj
    by_cases hji : j = i
    · exact Or.inr (congrArg some hji.symm)
    · rw [Function.update_of_ne hji] at hp
      exact h.visited hp hj
  · intro j c b hp hj
    rw [Function.update_of_ne (Nat.ne_of_gt (Nat.lt_of_lt_of_le hi hj))] at hp
    exact h.fresh hp hj

theorem close (h : Handed p (some i) k) (hi : i < k) (c : Nat) :
    Handed (Function.update p i (some (true, c))) none k := by
  have hsame := h.advance hi (some (true, c))
  refine ⟨?_, hsame.fresh⟩
  intro j c' b hp hj
  rcases hsame.visited hp hj with hb | hij
  · exact Or.inl hb
  · rw [← Option.some.inj hij, Function.update_self] at hp
    exact Or.inl (congrArg Prod.fst (Option.some.inj hp)).symm

theorem grow (h : Handed p focus k) (hn : k ≤ n) :
    Handed (Function.update p n (some (false, 0))) focus k := by
  constructor
  · intro j c b hp hj
    rw [Function.update_of_ne (Nat.ne_of_lt (Nat.lt_of_lt_of_le hj hn))] at hp
    exact h.visited hp hj
  · intro j c b hp hj
    by_cases hjn : j = n
    · rw [hjn, Function.update_self] at hp
      obtain ⟨hb, hc⟩ := Prod.mk.inj (Option.some.inj hp)
      exact ⟨hb.symm, hc.symm⟩
    · rw [Function.update_of_ne hjn] at hp
      exact h.fresh hp hj

end Handed

/-! ## Along a search -/

namespace Exploration

/-- A breadth-first search that has handed out the vertices with ids below `k`. -/
structure Levelled (x : Exploration α τ π) (focus : Option Nat) (maxDepth k : Nat)
    (q : BreadthFirst) : Prop where
  frontier : x.frontier = .breadthFirst q
  maxDepth : q.maxDepth = maxDepth
  queued : x.skeleton.Queued focus q k
  inFocus {i : Nat} : focus = some i → i + 1 = k
  handed : Handed x.progress focus k
  ranked : x.skeleton.Ranked k

theorem levelled_rooted {config : Config α} (hbfs : config.strategy = .breadthFirst)
    (lhs rhs : Term α) : ∃ q,
    (rooted config lhs rhs : Exploration α τ π).Levelled none config.maxDepth 0 q := by
  have hfront : (rooted config lhs rhs : Exploration α τ π).frontier
      = .breadthFirst { maxDepth := config.maxDepth, arrivals := [1, 0] } := by
    show ((Frontier.ofStrategy config.strategy config.maxDepth).enqueue _ 0 0).enqueue _ 1 0 = _
    rw [hbfs]
    rfl
  have hsize : (rooted config lhs rhs : Exploration α τ π).skeleton.vertices.size = 2 := by
    obtain ⟨left, right, hitems, -⟩ := items_rooted (τ := τ) (π := π) config lhs rhs
    rw [size_vertices_skeleton, Vertices.size, hitems]
    rfl
  have hrank {i : Nat} {v : Vertex α}
      (hv : (rooted config lhs rhs : Exploration α τ π).skeleton.vertices[i]? = some v) :
      v.rank = i ∧ i < 2 ∧ v.depth = 0 := by
    obtain ⟨s, rfl, hroot⟩ := isRootOf_of_skeleton_rooted hv
    rw [Vertex.rank, hroot.side, hroot.depth]
    cases s <;> exact ⟨rfl, by decide, rfl⟩
  refine ⟨_, hfront, rfl, .waiting rfl rfl rfl rfl ?_ ?_, by simp, ⟨?_, ?_⟩, ⟨?_, ?_⟩⟩
  · rw [hsize]
    rfl
  · intro i v hv
    exact (hrank hv).2.2
  · intro i c b _ hi
    exact absurd hi (Nat.not_lt_zero _)
  · intro i c b hp _
    exact progress_rooted hp
  · intro i j u v hu hv hij
    rw [(hrank hu).1, (hrank hv).1]
    exact hij
  · intro i u v hu _
    rw [(hrank hu).1]
    exact Nat.le_of_lt (Nat.lt_of_lt_of_le (hrank hu).2.1 (Nat.le_add_left 2 _))

theorem Levelled.depth_le {x : Exploration α τ π} {v : Vertex α} {maxDepth k : Nat}
    {q : BreadthFirst} (h : x.Levelled (some v.id) maxDepth k q)
    (hv : x.skeleton.vertices[v.id]? = some v) : v.depth ≤ maxDepth := by
  have hk := h.inFocus rfl
  rcases h.queued with ⟨-, rfl, -⟩ | ⟨m, hm⟩ | ⟨-, hfocus, -⟩
  · exact absurd hk (Nat.succ_ne_zero _)
  · have hle := hm.le
    rw [hm.level hv (by omega) (by omega), ← h.maxDepth]
    exact hm.depth_le
  · exact absurd hfocus (by simp)

/-- The number of vertices that a move takes from the frontier, by the focus before and after it. -/
def taken : Option Nat → Option Nat → Nat
  | none, some _ => 1
  | _, _ => 0

/-- **Every move that leaves the sides apart keeps to the levels.** -/
theorem Levelled.effect {e : Engine σ α τ π} {x y : Exploration α τ π} {f g : Option Nat}
    {maxDepth k : Nat} {q : BreadthFirst} (h : x.Levelled f maxDepth k q) (hx : x.Orderly f)
    (hopen : x.IsOpen) (hm : Effect e x f y g) :
    ∃ q', y.Levelled g maxDepth (k + taken f g) q' := by
  cases hm with
  | @take _ i hskel hprog hfront =>
    rw [h.frontier] at hfront
    obtain ⟨r, hnext, hy⟩ := Frontier.exists_next_breadthFirst hfront
    obtain ⟨rfl, hlt, hmax, hq⟩ := h.queued.take hnext
    refine ⟨r, hy, hmax.trans h.maxDepth, hskel ▸ hq, ?_, hprog ▸ h.handed.take,
      hskel ▸ h.ranked.take hlt⟩
    intro j hj
    rw [Option.some.inj hj]
    rfl
  | @dry _ hskel hprog hfront =>
    rw [h.frontier] at hfront
    obtain ⟨r, hnext, hy⟩ := Frontier.exists_next_breadthFirst hfront
    obtain ⟨hmax, -, hq⟩ := h.queued.dry hnext
    exact ⟨r, hy, hmax.trans h.maxDepth, hskel ▸ hq, h.inFocus, hprog ▸ h.handed,
      hskel ▸ h.ranked⟩
  | fail hskel hprog hfront =>
    exact ⟨q, hfront.trans h.frontier, h.maxDepth, hskel ▸ h.queued, h.inFocus,
      hprog ▸ h.handed, hskel ▸ h.ranked⟩
  | @close _ v s hskel hfront hv htry hprog =>
    have hlt : v.id < k := Nat.lt_of_succ_le (Nat.le_of_eq (h.inFocus rfl))
    exact ⟨q, hfront.trans h.frontier, h.maxDepth, hskel ▸ h.queued.release, by simp,
      hprog ▸ h.handed.close hlt v.cursor, hskel ▸ h.ranked⟩
  | @grow _ v s r tokens score hv htry hnew hskel hprog hfront =>
    have hk := h.inFocus rfl
    have hlt : v.id < x.vertices.size := (Array.getElem?_eq_some_iff.mp hv).1
    have hvskel : x.skeleton.vertices[v.id]? = some v.asBorn := getElem?_skeleton_of hv
    -- the depth of the child does not wrap around, since depths stay below the step budget
    have hbelow : depthBelow v.depth = v.depth + 1 := Nat.mod_eq_of_lt (hx.depth_lt hopen hv)
    refine ⟨q.enqueue x.vertices.size, ?_, h.maxDepth, ?_, h.inFocus, ?_, ?_⟩
    · rw [hfront, h.frontier]
      rfl
    · rw [hskel, ← size_vertices_skeleton]
      exact h.queued.grow (p := v.asBorn) hvskel hk hbelow
    · rw [hprog]
      exact (h.handed.advance (by omega) _).grow (by omega)
    · rw [hskel]
      exact h.ranked.withChild (p := v.asBorn) hvskel hk hbelow
  | @discard _ v w s r hv htry hfind hw hside hskel hprog hfront =>
    have hlt : v.id < k := Nat.lt_of_succ_le (Nat.le_of_eq (h.inFocus rfl))
    exact ⟨q, hfront.trans h.frontier, h.maxDepth, hskel ▸ h.queued, h.inFocus,
      hprog ▸ h.handed.advance hlt _, hskel ▸ h.ranked⟩

/-- **A breadth-first search whose sides are apart is levelled.** -/
theorem Reached.levelled {e : Engine σ α τ π} {config : Config α} {lhs rhs : Term α}
    {x : Exploration α τ π} {focus : Option Nat} (hne : config.key lhs ≠ config.key rhs)
    (hbfs : config.strategy = .breadthFirst) (h : Reached e config lhs rhs x focus)
    (hapart : x.meeting = none) : ∃ k q, x.Levelled focus config.maxDepth k q := by
  induction h with
  | start =>
    obtain ⟨q, hq⟩ := levelled_rooted (τ := τ) (π := π) hbfs lhs rhs
    exact ⟨0, q, hq⟩
  | move h hm ih =>
    obtain ⟨k, q, hq⟩ := ih hm.isOpen.meeting
    exact ⟨_, hq.effect (h.orderly hne) hm.isOpen (hm.effect hapart)⟩

end Exploration

end Joinability
