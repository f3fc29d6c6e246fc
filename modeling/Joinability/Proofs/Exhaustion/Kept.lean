import Joinability.Proofs.BreadthFirst.Level

/-!
# What a frontier turns away lies too deep

The two orders of expansion heed the depth bound at different moments. A best-first frontier turns a
vertex away when it arrives; a breadth-first one takes in whatever arrives, and gives up a whole
level when it is asked for a vertex beyond the bound. Both remember that they were cut.

What the two have in common is that nothing else gets lost (`Exploration.Kept`): a vertex that has
not been visited still has to be expanded, or it lies deeper than the bound and the frontier was
cut. The invariant holds for every engine. Its only delicate case is a frontier that has nothing to
hand out; there the breadth-first levels are needed to know how deep the vertices are that it gives
up.
-/

namespace Joinability

variable {σ α τ π : Type}

/-! ## Along a search -/

namespace Exploration

variable {e : Engine σ α τ π} {config : Config α} {lhs rhs : Term α} {x y : Exploration α τ π}
  {f g : Option Nat}

theorem frontier_rooted (config : Config α) (lhs rhs : Term α) : ∃ left right,
    (rooted config lhs rhs : Exploration α τ π).frontier
      = ((Frontier.ofStrategy config.strategy config.maxDepth).enqueue left 0 0).enqueue
          right 1 0 :=
  ⟨_, _, rfl⟩

theorem Effect.settings_frontier (hm : Effect e x f y g) :
    y.frontier.strategy = x.frontier.strategy ∧ y.frontier.maxDepth = x.frontier.maxDepth := by
  cases hm with
  | take _ _ hfront | dry _ _ hfront =>
    obtain ⟨hstrategy, hmax, -⟩ := Frontier.settings_of_next hfront
    exact ⟨hstrategy, hmax⟩
  | fail _ _ hfront | close _ hfront _ _ _ | discard _ _ _ _ _ _ _ hfront =>
    rw [hfront]
    exact ⟨rfl, rfl⟩
  | grow tokens score _ _ _ _ _ hfront =>
    obtain ⟨hstrategy, hmax, -⟩ := Frontier.settings_enqueue x.frontier score x.vertices.size _
    rw [hfront]
    exact ⟨hstrategy, hmax⟩

/-- While the sides are apart, order and bound of the frontier are those of the configuration. -/
theorem Reached.settings_frontier (h : Reached e config lhs rhs x f) (hapart : x.meeting = none) :
    x.frontier.strategy = config.strategy ∧ x.frontier.maxDepth = config.maxDepth := by
  induction h with
  | start =>
    obtain ⟨left, right, hfront⟩ := frontier_rooted (τ := τ) (π := π) config lhs rhs
    obtain ⟨hstrategy, hmax, -⟩ := Frontier.settings_enqueue
      ((Frontier.ofStrategy config.strategy config.maxDepth).enqueue left 0 0) right 1 0
    obtain ⟨hstrategy', hmax', -⟩ := Frontier.settings_enqueue
      (Frontier.ofStrategy config.strategy config.maxDepth) left 0 0
    rw [hfront, hstrategy, hmax, hstrategy', hmax']
    cases config.strategy <;> exact ⟨rfl, rfl⟩
  | move _ hm ih =>
    obtain ⟨hstrategy, hmax⟩ := (hm.effect hapart).settings_frontier
    obtain ⟨hstrategy', hmax'⟩ := ih hm.isOpen.meeting
    exact ⟨hstrategy.trans hstrategy', hmax.trans hmax'⟩

/-- Every vertex that has not been visited still has to be expanded, or it lies too deep and the
frontier was cut. -/
def Kept (x : Exploration α τ π) (focus : Option Nat) : Prop :=
  ∀ ⦃i c : Nat⦄ ⦃v : Vertex α⦄, x.skeleton.vertices[i]? = some v → x.progress i = some (false, c) →
    i ∈ x.pending focus ∨ (x.frontier.isCut = true ∧ x.frontier.maxDepth < v.depth)

/-- The roots are admitted by every bound. -/
theorem kept_rooted (config : Config α) (lhs rhs : Term α) :
    (rooted config lhs rhs : Exploration α τ π).Kept none := by
  intro i c v hv _
  obtain ⟨s, rfl, -⟩ := isRootOf_of_skeleton_rooted hv
  obtain ⟨left, right, hfront⟩ := frontier_rooted (τ := τ) (π := π) config lhs rhs
  refine Or.inl ?_
  rw [pending, hfront, Option.toList_none, List.nil_append]
  cases s with
  | left =>
    refine Frontier.mem_toList_enqueue_of_mem _ _ _ _ ?_
    exact (Frontier.mem_toList_enqueue_self_or _ _ _ _).resolve_right
      fun h ↦ absurd h.2 (Nat.not_lt_zero _)
  | right =>
    exact (Frontier.mem_toList_enqueue_self_or _ _ _ _).resolve_right
      fun h ↦ absurd h.2 (Nat.not_lt_zero _)

namespace Kept

theorem of_update {v : Vertex α} (h : x.Kept (some v.id)) (hskel : y.skeleton = x.skeleton)
    (hfront : y.frontier = x.frontier) {p : Option (Bool × Nat)}
    (hprog : y.progress = Function.update x.progress v.id p) : y.Kept (some v.id) := by
  intro i c w hw hc
  rw [hskel] at hw
  rw [hprog] at hc
  rw [pending_some, hfront]
  by_cases hi : i = v.id
  · exact Or.inl (hi ▸ List.mem_cons_self)
  · rw [Function.update_of_ne hi] at hc
    exact h hw hc

theorem effect (h : x.Kept f) (hm : Effect e x f y g)
    (hdeep : f = none → x.frontier.next = (none, y.frontier) → ∀ ⦃i : Nat⦄ ⦃v : Vertex α⦄,
      x.skeleton.vertices[i]? = some v → i ∈ x.frontier.toList → x.frontier.maxDepth < v.depth) :
    y.Kept g := by
  cases hm with
  | @take _ i hskel hprog hfront =>
    obtain ⟨-, hmax, hcut⟩ := Frontier.settings_of_next hfront
    have hlist : y.pending (some i) = x.pending none := (Frontier.toList_of_next hfront).symm
    intro j c v hv hc
    rw [hlist, hmax]
    exact (h (hskel ▸ hv) (hprog ▸ hc)).imp_right fun hlost ↦ ⟨hcut hlost.1, hlost.2⟩
  | @dry _ hskel hprog hfront =>
    obtain ⟨-, hmax, hcut⟩ := Frontier.settings_of_next hfront
    intro j c v hv hc
    rw [hskel] at hv
    rw [hprog] at hc
    rw [hmax]
    refine Or.inr ?_
    rcases h hv hc with hmem | hlost
    · exact ⟨Frontier.isCut_of_next_none hfront hmem, hdeep rfl hfront hv hmem⟩
    · exact ⟨hcut hlost.1, hlost.2⟩
  | fail hskel hprog hfront =>
    intro j c v hv hc
    rw [pending, hfront]
    exact h (hskel ▸ hv) (hprog ▸ hc)
  | @close _ v _ hskel hfront _ _ hprog =>
    have hsame := h.of_update hskel hfront hprog
    intro j c w hw hc
    -- what is in focus has just been visited, so it is not what is looked for
    refine (hsame hw hc).imp_left fun hmem ↦ (List.mem_cons.mp hmem).resolve_left ?_
    rintro rfl
    rw [hprog, Function.update_self] at hc
    exact absurd hc (by simp)
  | @grow _ v _ r tokens score hv _ _ hskel hprog hfront =>
    obtain ⟨-, hmax, hcut⟩ := Frontier.settings_enqueue x.frontier score x.vertices.size
      (depthBelow v.depth)
    intro j c w hw hc
    rw [hskel] at hw
    rw [hprog] at hc
    rw [pending_some, hfront, hmax]
    rcases of_getElem?_push hw with ⟨rfl, rfl⟩ | hw
    · rw [size_vertices_skeleton]
      exact (Frontier.mem_toList_enqueue_self_or _ _ _ _).imp_left (List.mem_cons_of_mem _)
    · by_cases hj : j = v.id
      · exact Or.inl (hj ▸ List.mem_cons_self)
      · have hsize : j ≠ x.vertices.size := by
          rw [← size_vertices_skeleton]
          exact Nat.ne_of_lt (Array.getElem?_eq_some_iff.mp hw).1
        rw [Function.update_of_ne hsize, Function.update_of_ne hj] at hc
        rcases h hw hc with hmem | hlost
        · refine Or.inl (List.mem_cons_of_mem _ (Frontier.mem_toList_enqueue_of_mem _ _ _ _ ?_))
          exact (List.mem_cons.mp hmem).resolve_left hj
        · exact Or.inr ⟨hcut hlost.1, hlost.2⟩
  | discard hv _ _ _ _ hskel hprog hfront => exact h.of_update hskel hfront hprog

end Kept

/-- What a breadth-first frontier gives up lies too deep. -/
theorem Levelled.lt_depth_of_next_none {maxDepth k : Nat} {q : BreadthFirst}
    (h : x.Levelled none maxDepth k q) (hx : x.Orderly none) {f : Frontier Nat}
    (hnext : x.frontier.next = (none, f)) {i : Nat} {v : Vertex α}
    (hv : x.skeleton.vertices[i]? = some v) (hi : i ∈ x.frontier.toList) : maxDepth < v.depth := by
  rw [h.frontier] at hnext
  obtain ⟨r, hq, -⟩ := Frontier.exists_next_breadthFirst hnext
  obtain ⟨hmax, hclosed, hqueued⟩ := h.queued.dry hq
  have hk : k ≤ i := by
    by_contra hlt
    obtain ⟨u, hu, hvis⟩ := hx.unvisited i hi
    have hvisited :=
      (h.handed.visited (progress_of hu) (Nat.lt_of_not_le hlt)).resolve_right (by simp)
    exact absurd (hvisited.symm.trans hvis) (by simp)
  rw [← h.maxDepth, ← hmax]
  rcases hqueued with ⟨hlevels, -⟩ | ⟨m, hm⟩ | ⟨-, -, -, -, hdeep⟩
  · exact absurd (hlevels.symm.trans hclosed) (by simp)
  · exact absurd (hm.levels.symm.trans hclosed) (by simp)
  · exact hdeep i v hv hk

/-- **While the sides are apart, nothing is lost but what lies too deep.** -/
theorem Reached.kept (hne : config.key lhs ≠ config.key rhs) (h : Reached e config lhs rhs x f)
    (hapart : x.meeting = none) : x.Kept f := by
  induction h with
  | start => exact kept_rooted config lhs rhs
  | @move x y f g h hm ih =>
    have hopen := hm.isOpen.meeting
    refine (ih hopen).effect (hm.effect hapart) ?_
    rintro rfl hnext i v hv hi
    obtain ⟨hstrategy, hmax⟩ := h.settings_frontier hopen
    cases hs : config.strategy with
    | breadthFirst =>
      obtain ⟨k, q, hq⟩ := h.levelled hne hs hopen
      rw [hmax]
      exact hq.lt_depth_of_next_none (h.orderly hne) hnext hv hi
    | bestFirst =>
      exact absurd hi (Frontier.notMem_toList_of_next_none (hstrategy.trans hs) hnext)

end Exploration

end Joinability
