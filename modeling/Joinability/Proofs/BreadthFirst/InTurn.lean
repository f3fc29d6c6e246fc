import Joinability.Proofs.Search.Frontier

/-!
# Level by level, in turn

A breadth-first frontier is told ids and nothing else. That it hands out vertices by their depth is
owed to the way in which it is used: roots come first, and from then on only children of the vertex
that was handed out last, each one level deeper than that vertex. `BreadthFirst.Paced` are the
frontiers that were used in this way, with what has arrived and what was handed out.

While levels are counted, what is left of the current level has the depth of the frontier, and what
has arrived since lies one level deeper (`BreadthFirst.Counted`). An answer keeps this, whether it
continues a level or begins one, and so does the arrival of a child. When nothing is handed out any
more, all that was not handed out lies below the bound.

A breadth-first search is a user of this kind. It issues ids in the order of arrival, and so more
can be said of its queue (`Skeleton.Queued`).
-/

namespace Joinability

namespace BreadthFirst

variable {depthOf : Nat → Nat} {maxDepth : Nat} {last : Option (Option Nat)} {q r : BreadthFirst}
  {arrived taken : List Nat} {v w : Nat}

/-- The frontiers that come from an empty one by adding roots, and then by asking for vertices and
adding children of the vertex that was handed out last. The parameter `last` is the answer to the
last request, if there was one; `arrived` and `taken` are the vertices that were added and those
that were handed out, in order. -/
inductive Paced (depthOf : Nat → Nat) (maxDepth : Nat) :
    Option (Option Nat) → BreadthFirst → List Nat → List Nat → Prop
  | start : Paced depthOf maxDepth none { maxDepth } [] []
  /-- Before the first request roots are added. -/
  | root {q : BreadthFirst} {arrived taken : List Nat} {v : Nat}
    (h : Paced depthOf maxDepth none q arrived taken) (hv : depthOf v = 0) :
    Paced depthOf maxDepth none (q.enqueue v) (arrived ++ [v]) taken
  /-- A vertex is asked for. -/
  | next {last answer : Option _} {q r : BreadthFirst} {arrived taken : List Nat}
    (h : Paced depthOf maxDepth last q arrived taken) (hnext : q.next = (answer, r)) :
    Paced depthOf maxDepth (some answer) r arrived (taken ++ answer.toList)
  /-- After a vertex was handed out its children are added. -/
  | child {q : BreadthFirst} {arrived taken : List Nat} {v w : Nat}
    (h : Paced depthOf maxDepth (some (some v)) q arrived taken) (hw : depthOf w = depthOf v + 1) :
    Paced depthOf maxDepth (some (some v)) (q.enqueue w) (arrived ++ [w]) taken

/-! ## While levels are counted -/

/-- What was handed out lies on the level of the frontier or above, and comes by depth. -/
structure Descends (depthOf : Nat → Nat) (depth : Nat) (taken : List Nat) : Prop where
  sorted : taken.Pairwise fun v w ↦ depthOf v ≤ depthOf w
  le : ∀ w ∈ taken, depthOf w ≤ depth

theorem descends_nil (depthOf : Nat → Nat) (d : Nat) : Descends depthOf d [] :=
  ⟨List.Pairwise.nil, fun _ hw ↦ absurd hw List.not_mem_nil⟩

theorem Descends.mono {d e : Nat} (h : Descends depthOf d taken) (hde : d ≤ e) :
    Descends depthOf e taken :=
  ⟨h.sorted, fun w hw ↦ Nat.le_trans (h.le w hw) hde⟩

theorem Descends.concat {d e : Nat} (h : Descends depthOf d taken) (hde : d ≤ e)
    (hv : depthOf v = e) : Descends depthOf e (taken ++ [v]) := by
  constructor
  · refine List.pairwise_append.mpr ⟨h.sorted, List.pairwise_singleton _ _, ?_⟩
    intro u hu w hw
    rw [List.mem_singleton.mp hw, hv]
    exact Nat.le_trans (h.le u hu) hde
  · intro w hw
    rcases List.mem_append.mp hw with hw | hw
    · exact Nat.le_trans (h.le w hw) hde
    · exact Nat.le_of_eq (by rw [List.mem_singleton.mp hw, hv])

/-- The frontier while levels are counted: what was handed out and what waits is all that has
arrived, and the depths are those of the current level and of the next one. -/
structure Counted (depthOf : Nat → Nat) (maxDepth : Nat) (q : BreadthFirst)
    (arrived taken : List Nat) : Prop where
  levels : q.levels = .counted
  bound : q.maxDepth = maxDepth
  depth_le : q.depth ≤ maxDepth
  cut : q.cut = false
  arrived_eq : arrived = taken ++ q.toList
  descends : Descends depthOf q.depth taken
  current : ∀ w ∈ q.current, depthOf w = q.depth
  arrivals : ∀ w ∈ q.arrivals, depthOf w = q.depth + 1

/-- What is known of a frontier that was used as it should be. -/
inductive InTurn (depthOf : Nat → Nat) (maxDepth : Nat) (last : Option (Option Nat))
    (q : BreadthFirst) (arrived taken : List Nat) : Prop
  /-- Nothing was asked for yet, and only roots wait. -/
  | opening (hlast : last = none) (hq : q = { maxDepth, arrivals := arrived.reverse })
    (htaken : taken = []) (hroots : ∀ w ∈ arrived, depthOf w = 0)
  /-- Levels are counted, and the last answer was a vertex of the current level. -/
  | counted (v : Nat) (hlast : last = some (some v)) (hv : depthOf v = q.depth)
    (h : Counted depthOf maxDepth q arrived taken)
  /-- There was nothing to hand out, and what was not handed out lies too deep. -/
  | closed (hlast : last = some none) (hlevels : q.levels = .closed) (hcurrent : q.current = [])
    (harrivals : q.arrivals = []) (hdescends : Descends depthOf maxDepth taken) (rest : List Nat)
    (harrived : arrived = taken ++ rest) (hdeep : ∀ w ∈ rest, maxDepth < depthOf w)
    (hcut : q.cut = true ↔ rest ≠ [])

theorem Counted.take (h : Counted depthOf maxDepth q arrived taken) {vs : List Nat}
    (hvs : q.current = v :: vs) : depthOf v = q.depth ∧
      Counted depthOf maxDepth { q with current := vs } arrived (taken ++ [v]) := by
  have hv : depthOf v = q.depth := h.current v (hvs ▸ List.mem_cons_self)
  refine ⟨hv, h.levels, h.bound, h.depth_le, h.cut, ?_, h.descends.concat (Nat.le_refl _) hv, ?_,
    h.arrivals⟩
  · rw [h.arrived_eq, toList, hvs, toList, List.append_assoc, List.singleton_append,
      List.cons_append]
  · exact fun w hw ↦ h.current w (hvs ▸ List.mem_cons_of_mem v hw)

/-- The first of the arrivals is handed out, and the others are what is left of its level. -/
theorem counted_of_arrivals {vs : List Nat} {d : Nat} (hdescends : Descends depthOf d taken)
    (hd : d ≤ r.depth) (harrived : arrived = taken ++ v :: vs)
    (hlevel : ∀ w ∈ v :: vs, depthOf w = r.depth) (hlevels : r.levels = .counted)
    (hbound : r.maxDepth = maxDepth) (hdepth : r.depth ≤ maxDepth) (hcut : r.cut = false)
    (hcurrent : r.current = vs) (harrivals : r.arrivals = []) :
    depthOf v = r.depth ∧ Counted depthOf maxDepth r arrived (taken ++ [v]) := by
  have hv : depthOf v = r.depth := hlevel v List.mem_cons_self
  refine ⟨hv, hlevels, hbound, hdepth, hcut, ?_, hdescends.concat hd hv, ?_, ?_⟩
  · rw [harrived, toList, hcurrent, harrivals, List.append_assoc, List.singleton_append,
      List.reverse_nil, List.append_nil]
  · exact fun w hw ↦ hlevel w (List.mem_cons_of_mem v (hcurrent ▸ hw))
  · exact fun w hw ↦ absurd (harrivals ▸ hw) List.not_mem_nil

theorem Counted.enqueue (h : Counted depthOf maxDepth q arrived taken)
    (hw : depthOf w = q.depth + 1) :
    Counted depthOf maxDepth (q.enqueue w) (arrived ++ [w]) taken := by
  refine ⟨h.levels, h.bound, h.depth_le, h.cut, ?_, h.descends, h.current, ?_⟩
  · rw [toList_enqueue, h.arrived_eq, List.append_assoc]
  · intro u hu
    rcases List.mem_cons.mp hu with rfl | hu
    · exact hw
    · exact h.arrivals u hu

/-! ## Requests and answers -/

namespace InTurn

/-- A vertex that is handed out lies on the level of the frontier. -/
theorem take (h : InTurn depthOf maxDepth last q arrived taken) (hnext : q.next = (some v, r)) :
    InTurn depthOf maxDepth (some (some v)) r arrived (taken ++ [v]) := by
  rcases next_eq_some_cases hnext with ⟨vs, hvs, rfl⟩ | ⟨hc, vs, hrev, hcase⟩
  · rcases h with ⟨-, rfl, -, -⟩ | ⟨u, -, -, h⟩ | ⟨-, -, hcurrent, -⟩
    · exact absurd hvs (by simp)
    · obtain ⟨hv, hcounted⟩ := h.take hvs
      exact .counted v rfl hv hcounted
    · exact absurd (hvs.symm.trans hcurrent) (by simp)
  · rcases h with ⟨-, rfl, rfl, hroots⟩ | ⟨u, -, -, h⟩ | ⟨-, -, -, harrivals, -⟩
    · rcases hcase with ⟨hlevels, -⟩ | ⟨hlevels, -, -⟩ | ⟨-, rfl⟩
      · exact absurd hlevels (by simp)
      · exact absurd hlevels (by simp)
      · -- the roots are the first level
        rw [List.reverse_reverse] at hrev
        have hdepth : 0 ≤ maxDepth := Nat.zero_le maxDepth
        obtain ⟨hv, hcounted⟩ := counted_of_arrivals
          (r := { maxDepth, levels := .counted, current := vs }) (d := 0)
          (descends_nil depthOf 0) (Nat.le_refl _)
          (hrev.trans (List.nil_append _).symm) (hrev ▸ hroots) rfl rfl hdepth rfl rfl rfl
        exact .counted v rfl hv hcounted
    · rcases hcase with ⟨hlevels, -⟩ | ⟨-, hdepth, rfl⟩ | ⟨hlevels, -⟩
      · exact absurd (h.levels.symm.trans hlevels) (by simp)
      · -- what had arrived is the level that begins
        have harrived : arrived = taken ++ v :: vs := by
          rw [h.arrived_eq, toList, hc, hrev, List.nil_append]
        obtain ⟨hv, hcounted⟩ := counted_of_arrivals
          (r := { q with depth := q.depth + 1, current := vs, arrivals := [] })
          h.descends (Nat.le_succ _) harrived
          (fun w hw ↦ h.arrivals w (List.mem_reverse.mp (hrev ▸ hw)))
          h.levels h.bound (h.bound ▸ hdepth) h.cut rfl rfl
        exact .counted v rfl hv hcounted
      · exact absurd (h.levels.symm.trans hlevels) (by simp)
    · rw [harrivals] at hrev
      exact absurd hrev (by simp)

/-- When there is nothing to hand out, all that is left lies too deep. -/
theorem dry (h : InTurn depthOf maxDepth last q arrived taken) (hnext : q.next = (none, r)) :
    InTurn depthOf maxDepth (some none) r arrived taken := by
  obtain ⟨hcurrent, harrivals, hlevels, -⟩ := closed_of_next_none hnext
  obtain ⟨hc, hwhy⟩ := next_eq_none_cases hnext
  rcases h with
    ⟨-, rfl, rfl, -⟩ | ⟨u, -, -, h⟩ | ⟨-, -, -, hnil, hdescends, rest, harrived, hdeep, hcut⟩
  · rcases hwhy with ⟨hnil, rfl⟩ | ⟨-, hcounted, -⟩
    · refine .closed rfl hlevels hcurrent harrivals (descends_nil depthOf maxDepth) []
        ?_ ?_ (by simp)
      · exact List.reverse_eq_nil_iff.mp hnil
      · exact fun w hw ↦ absurd hw List.not_mem_nil
    · exact absurd hcounted (by simp)
  · have harrived := h.arrived_eq
    rw [toList, hc, List.nil_append] at harrived
    have hdescends := h.descends.mono h.depth_le
    rcases hwhy with ⟨hnil, rfl⟩ | ⟨hne, -, hdepth, rfl⟩
    · refine .closed rfl hlevels hcurrent harrivals hdescends [] ?_ ?_ (by simp [h.cut])
      · rw [harrived, hnil, List.reverse_nil]
      · exact fun w hw ↦ absurd hw List.not_mem_nil
    · -- the level that would begin is the first one below the bound
      refine .closed rfl hlevels hcurrent harrivals hdescends _ harrived ?_ (by simp [hne])
      intro w hw
      rw [h.arrivals w (List.mem_reverse.mp hw), ← h.bound]
      exact Nat.lt_succ_of_le hdepth
  · rcases hwhy with ⟨-, rfl⟩ | ⟨hne, -⟩
    · exact .closed rfl hlevels hcurrent harrivals hdescends rest harrived hdeep hcut
    · exact absurd hnil hne

end InTurn

/-- Frontiers that are used as they should be serve their vertices in turn. -/
theorem Paced.inTurn (h : Paced depthOf maxDepth last q arrived taken) :
    InTurn depthOf maxDepth last q arrived taken := by
  induction h with
  | start => exact .opening rfl rfl rfl fun w hw ↦ absurd hw List.not_mem_nil
  | root h hv ih =>
    rcases ih with ⟨-, rfl, rfl, hroots⟩ | ⟨u, hlast, -⟩ | ⟨hlast, -⟩
    · refine .opening rfl (by simp [enqueue]) rfl ?_
      intro w hw
      rcases List.mem_append.mp hw with hw | hw
      · exact hroots w hw
      · rwa [List.mem_singleton.mp hw]
    · exact absurd hlast (by simp)
    · exact absurd hlast (by simp)
  | @next last answer q r arrived taken h hnext ih =>
    cases answer with
    | none =>
      rw [Option.toList_none, List.append_nil]
      exact ih.dry hnext
    | some v => exact ih.take hnext
  | child h hw ih =>
    rcases ih with ⟨hlast, -⟩ | ⟨u, hlast, hu, h⟩ | ⟨hlast, -⟩
    · exact absurd hlast (by simp)
    · obtain rfl := Option.some.inj (Option.some.inj hlast)
      exact .counted _ rfl hu (h.enqueue (hu ▸ hw))
    · exact absurd hlast (by simp)

namespace InTurn

theorem exists_rest (h : InTurn depthOf maxDepth last q arrived taken) :
    (∃ rest, arrived = taken ++ rest) ∧ Descends depthOf maxDepth taken := by
  rcases h with ⟨-, -, rfl, -⟩ | ⟨u, -, -, h⟩ | ⟨-, -, -, -, hdescends, rest, harrived, -⟩
  · exact ⟨⟨arrived, rfl⟩, descends_nil depthOf maxDepth⟩
  · exact ⟨⟨_, h.arrived_eq⟩, h.descends.mono h.depth_le⟩
  · exact ⟨⟨rest, harrived⟩, hdescends⟩

/-- There is nothing to hand out exactly when all vertices within the bound were handed out. -/
theorem next_eq_none_iff (h : InTurn depthOf maxDepth last q arrived taken) :
    q.next.1 = none ↔ taken = arrived.filter fun v ↦ depthOf v ≤ maxDepth := by
  have hkeep {vs : List Nat} (hvs : Descends depthOf maxDepth vs) :
      vs.filter (fun v ↦ depthOf v ≤ maxDepth) = vs :=
    List.filter_eq_self.mpr fun v hv ↦ decide_eq_true (hvs.le v hv)
  rcases hnext : q.next with ⟨_ | v, r⟩
  · obtain ⟨hlast, -⟩ | ⟨u, hlast, -⟩ | ⟨-, -, -, -, hdescends, rest, rfl, hdeep, -⟩ := h.dry hnext
    · exact absurd hlast (by simp)
    · exact absurd hlast (by simp)
    · have hrest : rest.filter (fun v ↦ depthOf v ≤ maxDepth) = [] :=
        List.filter_eq_nil_iff.mpr fun v hv ↦ by simpa using hdeep v hv
      rw [List.filter_append, hkeep hdescends, hrest, List.append_nil]
      exact iff_of_true rfl rfl
  · -- the vertex that is handed out is one within the bound that was not handed out before
    obtain ⟨⟨rest, rfl⟩, hdescends⟩ := (h.take hnext).exists_rest
    refine iff_of_false (by simp) fun htaken ↦ ?_
    rw [List.filter_append, hkeep hdescends, List.append_assoc, List.self_eq_append_right] at htaken
    exact absurd htaken (by simp)

/-- Once there was nothing to hand out, nothing waits any more and the next request changes nothing.
The frontier then knows whether a vertex below the bound has arrived. -/
theorem of_ended (h : InTurn depthOf maxDepth (some none) q arrived taken) :
    q.size = 0 ∧ q.next = (none, q) ∧ (q.cut = true ↔ ∃ v ∈ arrived, maxDepth < depthOf v) := by
  obtain ⟨hlast, -⟩ | ⟨u, hlast, -⟩ |
    ⟨-, hlevels, hcurrent, harrivals, hdescends, rest, rfl, hdeep, hcut⟩ := h
  · exact absurd hlast (by simp)
  · exact absurd hlast (by simp)
  · refine ⟨by simp [size, hcurrent, harrivals],
      by simp [next, promote, hlevels, hcurrent, harrivals], ?_⟩
    rw [hcut]
    constructor
    · intro hne
      obtain ⟨v, hv⟩ := List.exists_mem_of_ne_nil rest hne
      exact ⟨v, List.mem_append_right taken hv, hdeep v hv⟩
    · rintro ⟨v, hv, hlt⟩
      rcases List.mem_append.mp hv with hv | hv
      · exact absurd (hdescends.le v hv) (Nat.not_le_of_lt hlt)
      · exact List.ne_nil_of_mem hv

end InTurn

/-- **A breadth-first frontier serves level by level.** However many roots are added to it, and
however many children of the vertex that was handed out last before the next one is asked for:
vertices are handed out in the order in which they arrived, each arrival at most once. The last of
them lies on the level that the frontier is at, depths never decrease, and no vertex below the bound
is handed out. A request is in vain exactly when all arrivals within the bound were handed out. From
then on nothing waits and every request is in vain, and the frontier has been cut exactly if a
vertex below the bound had arrived. -/
theorem paced_serves_levels (h : Paced depthOf maxDepth last q arrived taken) :
    taken <+: arrived ∧ (∀ v, last = some (some v) → depthOf v = q.depth) ∧
      (taken.Pairwise fun v w ↦ depthOf v ≤ depthOf w) ∧ (∀ v ∈ taken, depthOf v ≤ maxDepth) ∧
      (q.next.1 = none ↔ taken = arrived.filter fun v ↦ depthOf v ≤ maxDepth) ∧
      (last = some none → q.size = 0 ∧ q.next = (none, q) ∧
        (q.cut = true ↔ ∃ v ∈ arrived, maxDepth < depthOf v)) := by
  have hturn := h.inTurn
  obtain ⟨⟨rest, harrived⟩, hdescends⟩ := hturn.exists_rest
  refine ⟨⟨rest, harrived.symm⟩, ?_, hdescends.sorted, hdescends.le, hturn.next_eq_none_iff, ?_⟩
  · rintro v rfl
    obtain ⟨hlast, -⟩ | ⟨u, hlast, hu, -⟩ | ⟨hlast, -⟩ := hturn
    · exact absurd hlast (by simp)
    · obtain rfl := Option.some.inj (Option.some.inj hlast)
      exact hu
    · exact absurd hlast (by simp)
  · rintro rfl
    exact hturn.of_ended

/-- Two roots, two children within the bound and one below it, which is given up. -/
theorem paced_serves_levels_cut :
    let depthOf : Nat → Nat := fun v ↦ v / 2
    let q : BreadthFirst := { maxDepth := 1, depth := 1, levels := .closed, cut := true }
    Paced depthOf 1 (some none) q [0, 1, 2, 3, 4] [0, 1, 2, 3] ∧ q.size = 0 ∧ q.next = (none, q) ∧
      [0, 1, 2, 3] = [0, 1, 2, 3, 4].filter (fun v ↦ depthOf v ≤ 1) ∧
      (∃ v ∈ [0, 1, 2, 3, 4], 1 < depthOf v) := by
  intro depthOf q
  have hroots : Paced depthOf 1 none _ [0, 1] [] := .root (.root .start rfl) rfl
  have hfirst : Paced depthOf 1 (some (some 0)) _ [0, 1, 2] [0] := .child (hroots.next rfl) rfl
  have hsecond : Paced depthOf 1 (some (some 1)) _ [0, 1, 2, 3] [0, 1] :=
    .child (hfirst.next rfl) rfl
  have hthird : Paced depthOf 1 (some (some 2)) _ [0, 1, 2, 3, 4] [0, 1, 2] :=
    .child (hsecond.next rfl) rfl
  have hended : Paced depthOf 1 (some none) q [0, 1, 2, 3, 4] [0, 1, 2, 3] :=
    (hthird.next rfl).next rfl
  obtain ⟨-, -, -, -, hall, hend⟩ := paced_serves_levels hended
  obtain ⟨hsize, hnext, hcut⟩ := hend rfl
  exact ⟨hended, hsize, hnext, hall.mp (congrArg Prod.fst hnext), hcut.mp rfl⟩

end BreadthFirst

end Joinability
