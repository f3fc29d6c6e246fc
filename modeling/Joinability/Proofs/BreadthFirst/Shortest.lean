import Joinability.Proofs.BreadthFirst.Crossing
import Joinability.Proofs.BreadthFirst.Discovery

/-!
# When a breadth-first search finds a shortest proof

A breadth-first search ends with the first crossing that it meets, level by level and the left side
before the right one. `meetingText` computes the text of that crossing from the rules alone, and the
proof that the search returns is exactly as long as the two distances to this text together.

So the proof is a shortest one exactly when no text is reached from both sides in fewer steps than
the text of the first crossing. With symmetric rules that is always so. With one-way rules it may
fail: the first crossing may lead to a text that lies further from the other root than that of the
next one on the same level. Even then the proof has at most twice as many steps as it needs.
-/

namespace Joinability

variable {rules : List Rule} {lhs rhs : Text}

/-! ## The first crossing -/

/-- The first target of the texts that are discovered on a side within `n` steps that has been
discovered on the other side by then. The left side is a level ahead when the right side is
expanded. -/
def crossing (rules : List Rule) (lhs rhs : Text) (s : Side) (n : ℕ) : Option Text :=
  ((discovered rules (s.pick lhs rhs) n).flatMap (targets rules)).find? fun t ↦
    t ∈ discovered rules (s.opposite.pick lhs rhs) (n + s.root)

/-- The text at which the sides meet first, if they meet above the depth bound. -/
def meetingText (rules : List Rule) (lhs rhs : Text) (maxDepth : ℕ) : Option Text :=
  if lhs = rhs then some lhs
  else (List.range (maxDepth + 1)).findSome? fun n ↦
    (crossing rules lhs rhs .left n).or (crossing rules lhs rhs .right n)

theorem findSome?_range_eq_some {β : Type} {f : ℕ → Option β} {n m : ℕ} {b : β} (hn : n < m)
    (hb : f n = some b) (hbefore : ∀ i < n, f i = none) : (List.range m).findSome? f = some b := by
  induction m with
  | zero => exact absurd hn (Nat.not_lt_zero n)
  | succ m ih =>
    rw [List.range_succ, List.findSome?_append]
    rcases Nat.lt_succ_iff_lt_or_eq.mp hn with hn | rfl
    · rw [ih hn, Option.some_or]
    · have hnone : (List.range n).findSome? f = none :=
        List.findSome?_eq_none_iff.mpr fun i hi ↦ hbefore i (List.mem_range.mp hi)
      rw [hnone, Option.none_or, List.findSome?_singleton, hb]

namespace Exploration

variable {x : Exploration Payload Recipe Evidence} {focus : Option Nat} {maxDepth k c r : Nat}
  {q : BreadthFirst} {u w : Vertex Payload}

/-- Levels that have been visited have no crossing. -/
theorem Surveyed.crossing_eq_none (h : Surveyed rules lhs rhs x focus maxDepth k q)
    (hr : x.VisitedBelow r) {s : Side} {n : ℕ} (hn : 2 * n + s.root < r) :
    crossing rules lhs rhs s n = none := by
  rw [crossing, List.find?_eq_none]
  intro t ht hother
  rw [decide_eq_true_iff, mem_discovered_iff] at hother
  obtain ⟨m, hm, ho⟩ := hother
  obtain ⟨v, hv, htarget⟩ := List.mem_flatMap.mp ht
  obtain ⟨j, hj, hs⟩ := mem_discovered_iff.mp hv
  have hstep : Derives rules (j + 1) (s.pick lhs rhs) t := ⟨v, hs, mem_targets_iff.mp htarget⟩
  have hroots := s.root_add_root_opposite
  exact h.not_derives hr hstep ho (by omega) (by omega)

namespace Crosses

/-- The target of a crossing lies as deep as its text is far. -/
theorem distance_target (h : Crosses rules x u w c)
    (hs : Surveyed rules lhs rhs x (some u.id) maxDepth k q) :
    distance rules (u.side.opposite.pick lhs rhs) w.pretty = w.depth := by
  have hdepth := h.depth_le hs
  have hrank : u.rank = 2 * u.depth + u.side.root := rfl
  have hroots := u.side.root_add_root_opposite
  obtain ⟨-, hw⟩ := h.derives hs
  rw [h.side_eq] at hw
  refine distance_eq_iff.mpr ⟨hw, ?_⟩
  intro n hn
  by_contra hlt
  obtain ⟨i, v, hv, -, hpretty, hle⟩ :=
    hs.exists_of_derives (hs.visitedBelow_focus h.source) hn (by omega)
  obtain rfl := hs.grown.eq_of_pretty_eq hv h.target hpretty
  exact hlt hle

/-- The text of a crossing is one step further from the root of the source than the source is
deep. -/
theorem distance_source (h : Crosses rules x u w c)
    (hs : Surveyed rules lhs rhs x (some u.id) maxDepth k q) :
    distance rules (u.side.pick lhs rhs) w.pretty = (u.depth + 1 : ℕ) := by
  have hrank : u.rank = 2 * u.depth + u.side.root := rfl
  obtain ⟨hu, -⟩ := h.derives hs
  refine distance_eq_iff.mpr ⟨hu, ?_⟩
  intro n hn
  by_contra hlt
  obtain ⟨i, v, hv, hside, hpretty, -⟩ :=
    hs.exists_of_derives (hs.visitedBelow_focus h.source) hn (by omega)
  obtain rfl := hs.grown.eq_of_pretty_eq hv h.target hpretty
  exact h.side_ne hside

/-- The target of a crossing splits the targets of the level: those before it are texts of the same
side as the source. -/
theorem exists_split (h : Crosses rules x u w c)
    (hs : Surveyed rules lhs rhs x (some u.id) maxDepth k q) : ∃ before after,
      ((x.skeleton.upTo u.side u.depth).map Vertex.pretty).flatMap (targets rules)
        = before ++ w.pretty :: after ∧
      ∀ t ∈ before, ∃ (i : Nat) (v : Vertex Payload), x.skeleton.vertices[i]? = some v ∧
        v.side = u.side ∧ v.pretty = t := by
  obtain ⟨older, younger, hsplit, hold, -⟩ := hs.orderly.forest.exists_split h.source
  have hupTo : x.skeleton.upTo u.side u.depth
      = (older.filter fun v ↦ v.side = u.side).filter (fun v ↦ v.depth ≤ u.depth)
        ++ u :: (younger.filter fun v ↦ v.side = u.side).filter fun v ↦ v.depth ≤ u.depth := by
    rw [Skeleton.upTo, Skeleton.ofSide, hsplit, List.filter_append, List.filter_append,
      List.filter_cons_of_pos (by simp), List.filter_cons_of_pos (by simp)]
  obtain ⟨hc, hget⟩ := List.getElem?_eq_some_iff.mp h.text
  have htargets : targets rules u.pretty
      = (targets rules u.pretty).take c ++ w.pretty :: (targets rules u.pretty).drop (c + 1) := by
    rw [← hget, ← List.drop_eq_getElem_cons, List.take_append_drop]
  refine ⟨((older.filter fun v ↦ v.side = u.side).filter fun v ↦ v.depth ≤ u.depth).flatMap
      (fun v ↦ targets rules v.pretty) ++ (targets rules u.pretty).take c,
    (targets rules u.pretty).drop (c + 1) ++
      ((younger.filter fun v ↦ v.side = u.side).filter fun v ↦ v.depth ≤ u.depth).flatMap
        fun v ↦ targets rules v.pretty, ?_, ?_⟩
  · rw [hupTo, List.flatMap_map, List.flatMap_append, List.flatMap_cons, List.append_assoc,
      ← List.cons_append, ← List.append_assoc ((targets rules u.pretty).take c), ← htargets]
  · intro t ht
    rcases List.mem_append.mp ht with ht | ht
    · -- the older vertices have been visited, so all their targets are there
      obtain ⟨v, hv, htarget⟩ := List.mem_flatMap.mp ht
      have hv := List.mem_filter.mp (List.mem_filter.mp hv).1
      obtain ⟨hget, hlt⟩ := hold v hv.1
      obtain ⟨n, hn⟩ := hs.visited_of_lt hget hlt
      obtain ⟨i, v', hv', hside, hpretty, -⟩ :=
        hs.tried.exists_of_visited hget hn (mem_targets_iff.mp htarget)
      exact ⟨i, v', hv', hside.trans (by simpa using hv.2), hpretty⟩
    · -- the targets of the source below its cursor have been tried
      obtain ⟨j, hj⟩ := List.mem_iff_getElem?.mp ht
      have hjc : j < c := by
        have := (List.getElem?_eq_some_iff.mp hj).1
        rw [List.length_take] at this
        omega
      rw [List.getElem?_take_of_lt hjc] at hj
      obtain ⟨i, v, hv, hside, hpretty, -⟩ := hs.tried.target h.source h.cursor hjc hj
      exact ⟨i, v, hv, hside, hpretty⟩

/-- A crossing is the first one on its level. -/
theorem crossing_eq (h : Crosses rules x u w c)
    (hs : Surveyed rules lhs rhs x (some u.id) maxDepth k q)
    (ho : x.skeleton.InOrder rules lhs rhs x.progress) :
    crossing rules lhs rhs u.side u.depth = some w.pretty := by
  have hvisited := hs.visitedBelow_focus h.source
  have hrank : u.rank = 2 * u.depth + u.side.root := rfl
  have hroots := u.side.root_add_root_opposite
  have hown := hs.map_upTo_eq ho hvisited (s := u.side) (n := u.depth) (by omega)
  -- a text of the own side is not one of the other side
  have hapart {i : Nat} {v : Vertex Payload} (hv : x.skeleton.vertices[i]? = some v)
      (hside : v.side = u.side) : v.pretty ∉ discovered rules (u.side.opposite.pick lhs rhs)
        (u.depth + u.side.root) := by
    intro hmem
    obtain ⟨m, hm, hother⟩ := mem_discovered_iff.mp hmem
    obtain ⟨j, v', hv', hside', hpretty, -⟩ := hs.exists_of_derives hvisited hother (by omega)
    obtain rfl := hs.grown.eq_of_pretty_eq hv' hv hpretty
    exact Side.ne_opposite_iff.mpr rfl (hside.symm.trans hside')
  obtain ⟨before, after, hsplit, hbefore⟩ := h.exists_split hs
  rw [hown] at hsplit
  rw [crossing, List.find?_eq_some_iff_append]
  refine ⟨?_, before, after, hsplit, ?_⟩
  · rw [decide_eq_true_iff, mem_discovered_iff]
    obtain ⟨-, hw⟩ := h.derives hs
    exact ⟨w.depth, h.depth_le hs, h.side_eq ▸ hw⟩
  · intro t ht
    obtain ⟨i, v, hv, hside, rfl⟩ := hbefore t ht
    simpa using hapart hv hside

/-- **A breadth-first search ends with the first crossing.** -/
theorem meetingText_eq (h : Crosses rules x u w c)
    (hs : Surveyed rules lhs rhs x (some u.id) maxDepth k q)
    (ho : x.skeleton.InOrder rules lhs rhs x.progress) (hne : lhs ≠ rhs) :
    meetingText rules lhs rhs maxDepth = some w.pretty := by
  have hvisited := hs.visitedBelow_focus h.source
  have hrank : u.rank = 2 * u.depth + u.side.root := rfl
  rw [meetingText, if_neg hne]
  refine findSome?_range_eq_some (Nat.lt_succ_of_le (hs.depth_le h.source)) ?_ ?_
  · have hcrossing := h.crossing_eq hs ho
    cases hside : u.side with
    | left =>
      rw [hside] at hcrossing
      rw [hcrossing, Option.some_or]
    | right =>
      rw [hside] at hcrossing
      -- the left side of this level was visited before
      have hleft : crossing rules lhs rhs .left u.depth = none := by
        refine hs.crossing_eq_none hvisited ?_
        rw [hrank, hside]
        exact Nat.lt_succ_self _
      rw [hleft, Option.none_or, hcrossing]
  · intro n hn
    have hnone (s : Side) : crossing rules lhs rhs s n = none := by
      have hroots := s.root_add_root_opposite
      exact hs.crossing_eq_none hvisited (by omega)
    rw [hnone, hnone, Option.or_none]

/-- The length of the proof over a crossing. -/
theorem distance_add_distance (h : Crosses rules x u w c)
    (hs : Surveyed rules lhs rhs x (some u.id) maxDepth k q) :
    distance rules lhs w.pretty + distance rules rhs w.pretty = (u.depth + 1 + w.depth : ℕ) := by
  have hsource := h.distance_source hs
  have htarget := h.distance_target hs
  rw [Nat.cast_add]
  cases hside : u.side with
  | left =>
    rw [hside] at hsource htarget
    exact congrArg₂ (· + ·) hsource htarget
  | right =>
    rw [hside] at hsource htarget
    rw [add_comm]
    exact congrArg₂ (· + ·) hsource htarget

/-- With symmetric rules nothing joins the goal texts in fewer steps than a crossing. -/
theorem eq_joinDistance (h : Crosses rules x u w c) (hsym : ∀ r ∈ rules, r.symmetric = true)
    (hs : Surveyed rules lhs rhs x (some u.id) maxDepth k q) :
    ((u.depth + 1 + w.depth : ℕ) : ℕ∞) = joinDistance rules lhs rhs := by
  obtain ⟨-, hdepth⟩ := h.distance_eq hsym hs
  rw [← h.distance_add_distance hs]
  refine eq_joinDistance_iff.mpr ?_
  intro t
  rw [h.distance_add_distance hs]
  refine le_distance_add_distance ?_
  intro i j hl hr
  have hlt := h.rank_lt hsym hs (hl.trans (hr.symm hsym))
  rw [Vertex.rank] at hlt
  omega

/-- Whatever the rules, derivations that meet have at least half as many steps as a crossing. -/
theorem le_two_mul (h : Crosses rules x u w c)
    (hs : Surveyed rules lhs rhs x (some u.id) maxDepth k q) (t : Text) :
    ((u.depth + 1 + w.depth : ℕ) : ℕ∞) ≤ 2 * (distance rules lhs t + distance rules rhs t) := by
  have hdepth := h.depth_le hs
  have hrank : u.rank = 2 * u.depth + u.side.root := rfl
  have hhalf : (((u.depth + 1 + w.depth + 1) / 2 : ℕ) : ℕ∞)
      ≤ distance rules lhs t + distance rules rhs t := by
    refine le_distance_add_distance ?_
    intro i j hl hr
    by_contra hlt
    exact hs.not_derives_both (hs.visitedBelow_focus h.source) hl hr (by omega) (by omega)
  have hround : u.depth + 1 + w.depth ≤ 2 * ((u.depth + 1 + w.depth + 1) / 2) := by omega
  calc ((u.depth + 1 + w.depth : ℕ) : ℕ∞)
      ≤ (2 * ((u.depth + 1 + w.depth + 1) / 2) : ℕ) := by exact_mod_cast hround
    _ = 2 * (((u.depth + 1 + w.depth + 1) / 2 : ℕ) : ℕ∞) := by push_cast; rfl
    _ ≤ 2 * (distance rules lhs t + distance rules rhs t) := by gcongr

/-- The length of the proof over a crossing. -/
theorem proofLength_eq (h : Crosses rules x u w c) {p : Evidence} {left right : ProofUnit Evidence}
    {stats : Stats} (hsource : (u.side.pick left right).steps.length = u.depth + 1)
    (htarget : (w.side.pick left right).steps.length = w.depth) :
    (Result.proved p [left, right] stats).proofLength = u.depth + 1 + w.depth := by
  rw [h.side_eq] at htarget
  rw [Result.proofLength, Result.units, List.flatMap_cons, List.flatMap_singleton,
    List.length_append]
  cases hside : u.side with
  | left =>
    rw [hside] at hsource htarget
    exact congrArg₂ (· + ·) hsource htarget
  | right =>
    rw [hside] at hsource htarget
    rw [Nat.add_comm]
    exact congrArg₂ (· + ·) hsource htarget

end Crosses

end Exploration

/-! ## Searches -/

namespace Search

/-- **When a breadth-first search finds a shortest proof.** The proof that a breadth-first search
returns is as long as the two distances to the text of the first crossing together, and so a
shortest one exactly when no text is closer to the two sides together. It always is when all rules
are symmetric, and it never has more than twice as many steps as it needs. -/
theorem solve_shortest_iff (rules : List Rule) (clock : Nat → Nat) (config : Config Payload)
    (hkey : config.key = Term.pretty) (hbfs : config.strategy = .breadthFirst) (lhs rhs : Text)
    (tally : Tally) :
    ∃ result, (solve (.ofRules rules) clock config (.ofText lhs) (.ofText rhs) tally).answer
        = .ok result ∧
      (result.status = .success → ∃ m, meetingText rules lhs rhs config.maxDepth = some m ∧
        (result.proofLength : ℕ∞) = distance rules lhs m + distance rules rhs m ∧
        ((result.proofLength : ℕ∞) = joinDistance rules lhs rhs ↔
          ∀ t, distance rules lhs m + distance rules rhs m
            ≤ distance rules lhs t + distance rules rhs t) ∧
        ((∀ r ∈ rules, r.symmetric = true) →
          (result.proofLength : ℕ∞) = joinDistance rules lhs rhs) ∧
        ∀ t, (result.proofLength : ℕ∞) ≤ 2 * (distance rules lhs t + distance rules rhs t)) := by
  by_cases hne : lhs = rhs
  · subst hne
    have hzero : distance rules lhs lhs = 0 := distance_eq_iff.mpr ⟨rfl, fun k _ ↦ Nat.zero_le k⟩
    have hsum : ((0 : ℕ) : ℕ∞) = distance rules lhs lhs + distance rules lhs lhs := by
      rw [hzero]
      rfl
    refine ⟨_, solve_self rules clock config lhs tally, fun _ ↦ ⟨lhs, if_pos rfl, hsum, ?_, ?_, ?_⟩⟩
    · exact hsum ▸ eq_joinDistance_iff
    · exact fun _ ↦ hsum.trans (eq_joinDistance_iff.mpr fun t ↦ hsum ▸ zero_le)
    · exact fun t ↦ zero_le
  · obtain ⟨y, g, result, hy, hanswer, hreports⟩ :=
      Exploration.exists_result rules hkey hne clock tally
    refine ⟨result, hanswer, ?_⟩
    intro hsuccess
    rcases result with ⟨p, units, stats⟩ | _ | _
    · obtain ⟨x, k, q, u, w, c, left, right, hx, hapart, hs, hc, rfl, -, -, hsource, htarget⟩ :=
        hy.exists_crosses hkey hne hbfs hreports
      have hsum := hc.distance_add_distance hs
      have hmeeting := hc.meetingText_eq hs (hx.inOrder hkey hne hbfs hapart) hne
      rw [hc.proofLength_eq hsource htarget]
      exact ⟨w.pretty, hmeeting, hsum.symm, hsum ▸ eq_joinDistance_iff,
        fun hsym ↦ hc.eq_joinDistance hsym hs, hc.le_two_mul hs⟩
    · exact absurd hsuccess (by simp [Result.status])
    · exact absurd hsuccess (by simp [Result.status])

/-- One-way rules by which `a` and `d` can be joined at `e` in three steps and at `d` in two, where
the first crossing is the one at `e`. -/
def detour : List Rule :=
  [(utf8 "a", utf8 "b"), (utf8 "a", utf8 "c"), (utf8 "d", utf8 "e"), (utf8 "b", utf8 "e"),
    (utf8 "c", utf8 "d")].map fun sides ↦
      { name := sides.1 ++ sides.2, lhs := sides.1, rhs := sides.2, symmetric := false }

theorem solve_shortest_iff_detour : ∃ result,
    (solve (.ofRules detour) (fun _ ↦ 0) {} (.ofText (utf8 "a")) (.ofText (utf8 "d")) {}).answer
      = .ok result ∧ result.status = .success ∧
    (result.proofLength : ℕ∞)
      = distance detour (utf8 "a") (utf8 "e") + distance detour (utf8 "d") (utf8 "e") := by
  obtain ⟨result, hanswer, hshortest⟩ := solve_shortest_iff detour (fun _ ↦ 0) {} rfl rfl (utf8 "a")
    (utf8 "d") {}
  have hstatus : ((solve (.ofRules detour) (fun _ ↦ 0) {} (.ofText (utf8 "a"))
      (.ofText (utf8 "d")) {}).answer.toOption.map Result.status) = some .success := by
    decide +kernel
  rw [hanswer] at hstatus
  have hsuccess : result.status = .success := Option.some.inj hstatus
  have hmeeting : meetingText detour (utf8 "a") (utf8 "d") 50 = some (utf8 "e") := by
    decide +kernel
  obtain ⟨m, hm, hlength, -⟩ := hshortest hsuccess
  obtain rfl := Option.some.inj (hmeeting.symm.trans hm)
  exact ⟨result, hanswer, hsuccess, hlength⟩

/-- The proof that a breadth-first search finds need not be a shortest one. -/
theorem solve_detour_not_shortest : ∃ result,
    (solve (.ofRules detour) (fun _ ↦ 0) {} (.ofText (utf8 "a")) (.ofText (utf8 "d")) {}).answer
      = .ok result ∧ result.status = .success ∧
    (result.proofLength : ℕ∞) ≠ joinDistance detour (utf8 "a") (utf8 "d") := by
  obtain ⟨-, -, result, -, hanswer, -⟩ := Exploration.exists_result detour
    (rfl : ({} : Config Payload).key = Term.pretty) (show utf8 "a" ≠ utf8 "d" by decide)
    (fun _ ↦ 0) {}
  have hrun : (solve (.ofRules detour) (fun _ ↦ 0) {} (.ofText (utf8 "a"))
      (.ofText (utf8 "d")) {}).answer.toOption.map (fun r ↦ (r.status, r.proofLength))
        = some (.success, 3) := by
    decide +kernel
  rw [hanswer] at hrun
  obtain ⟨hsuccess, hlength⟩ := Prod.mk.inj (Option.some.inj hrun)
  refine ⟨result, hanswer, hsuccess, ?_⟩
  intro heq
  have hfirst : Rewrites detour (utf8 "a") (utf8 "c") := mem_targets_iff.mp (by decide +kernel)
  have hsecond : Rewrites detour (utf8 "c") (utf8 "d") := mem_targets_iff.mp (by decide +kernel)
  have hleft : distance detour (utf8 "a") (utf8 "d") ≤ (2 : ℕ) :=
    distance_le_of_derives ⟨_, ⟨_, rfl, hfirst⟩, hsecond⟩
  have hright : distance detour (utf8 "d") (utf8 "d") ≤ (0 : ℕ) := distance_le_of_derives rfl
  have hle : joinDistance detour (utf8 "a") (utf8 "d") ≤ ((2 + 0 : ℕ) : ℕ∞) :=
    (joinDistance_le _ _ _ _).trans (by rw [Nat.cast_add]; exact add_le_add hleft hright)
  rw [← heq, hlength] at hle
  exact absurd (Nat.cast_le.mp hle) (by decide)

end Search

end Joinability
