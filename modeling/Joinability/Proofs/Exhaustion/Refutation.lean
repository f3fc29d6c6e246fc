import Joinability.Proofs.Exhaustion.Kept
import Joinability.Proofs.Search.Soundness
import Joinability.Proofs.Search.Tried

/-!
# What a failure proves

A search fails when no vertex is left to expand. If its frontier was never cut, every vertex has
then been visited, and a visited vertex leads to vertices of its own side only. Both sides are
therefore closed under rewriting: they hold exactly the texts that can be reached from their roots,
and since no text is on both sides, the goal texts cannot be joined at all (`Search.solve_refutes`).
This goes for both orders of expansion and for every bound.

## How far a closed side reaches

A frontier that was cut proves less, and how much less depends on the vertices that it turned away.
So the closure argument is stated by distance: what can be derived in `n` steps has a vertex,
provided that every vertex closer than that to its root has been visited
(`Explored.exists_of_derives`).
-/

namespace Joinability

variable {rules : List Rule} {lhs rhs : Text} {config : Config Payload}

namespace Exploration

variable {x : Exploration Payload Recipe Evidence} {focus : Option Nat}

/-- Both sides of a search with rules, in either order of expansion, as long as they are apart. -/
structure Explored (rules : List Rule) (lhs rhs : Text) (x : Exploration Payload Recipe Evidence)
    (focus : Option Nat) : Prop where
  grown : x.Grown rules lhs rhs focus
  tried : x.skeleton.Tried rules (fun _ _ ↦ True) x.progress
  kept : x.Kept focus

/-- The vertex with an id has been visited. -/
def Visited (x : Exploration Payload Recipe Evidence) (i : Nat) : Prop :=
  ∃ c, x.progress i = some (true, c)

/-- Every vertex has been visited whose text is fewer than `n` steps away from the root of its
side. -/
def VisitedWithin (rules : List Rule) (lhs rhs : Text) (x : Exploration Payload Recipe Evidence)
    (n : ℕ) : Prop :=
  ∀ ⦃i : Nat⦄ ⦃v : Vertex Payload⦄, x.skeleton.vertices[i]? = some v →
    (∃ m < n, Derives rules m (v.side.pick lhs rhs) v.pretty) → x.Visited i

theorem Reached.tried (hkey : config.key = Term.pretty) (hne : lhs ≠ rhs)
    (h : Reached (.ofRules rules) config (.ofText lhs) (.ofText rhs) x focus)
    (hapart : x.meeting = none) : x.skeleton.Tried rules (fun _ _ ↦ True) x.progress := by
  have hkeyne := Config.key_ofText_ne hkey hne
  induction h with
  | start => exact tried_rooted config (.ofText lhs) (.ofText rhs)
  | move h hm ih =>
    have hopen := hm.isOpen.meeting
    exact (hm.effect hapart).tried (h.orderly hkeyne) (h.labelled hkeyne) (h.config_eq ▸ hkey)
      (ih hopen) (fun _ _ _ _ _ ↦ trivial) (fun _ _ _ _ _ _ _ ↦ trivial)

theorem Reached.explored (hkey : config.key = Term.pretty) (hne : lhs ≠ rhs)
    (h : Reached (.ofRules rules) config (.ofText lhs) (.ofText rhs) x focus)
    (hapart : x.meeting = none) : x.Explored rules lhs rhs focus where
  grown := h.grown hkey hne
  tried := h.tried hkey hne hapart
  kept := h.kept (Config.key_ofText_ne hkey hne) hapart

namespace Explored

/-! ## Closed sides -/

/-- When everything closer to a root has been visited, every text that can be derived from the root
has a vertex on its side. -/
theorem exists_of_derives (h : Explored rules lhs rhs x focus) {n : ℕ}
    (hn : x.VisitedWithin rules lhs rhs n) {s : Side} {m : ℕ} {t : Text} (hm : m ≤ n)
    (ht : Derives rules m (s.pick lhs rhs) t) :
    ∃ (i : Nat) (v : Vertex Payload), x.skeleton.vertices[i]? = some v ∧ v.side = s ∧
      v.pretty = t := by
  induction m generalizing t with
  | zero =>
    obtain ⟨v, hv, hside, hpretty, -⟩ := h.grown.exists_root s
    exact ⟨s.root, v, hv, hside, hpretty.trans (derives_zero.mp ht)⟩
  | succ m ih =>
    obtain ⟨u, hu, hstep⟩ := ht
    obtain ⟨i, v, hv, rfl, rfl⟩ := ih (Nat.le_of_succ_le hm) hu
    obtain ⟨c, hc⟩ := hn hv ⟨m, hm, hu⟩
    obtain ⟨j, w, hw, hside, hpretty, -⟩ := h.tried.exists_of_visited hv hc hstep
    exact ⟨j, w, hw, hside, hpretty⟩

/-- No text is close to both roots, since no text has a vertex on both sides. -/
theorem not_joinableWithin (h : Explored rules lhs rhs x focus) {n : ℕ}
    (hn : x.VisitedWithin rules lhs rhs n) : ¬JoinableWithin rules n lhs rhs := by
  rintro ⟨t, hl, hr⟩
  obtain ⟨i, hi, hl⟩ := distance_le_iff.mp hl
  obtain ⟨j, hj, hr⟩ := distance_le_iff.mp hr
  obtain ⟨_, v, hv, hvside, hvt⟩ := h.exists_of_derives hn (s := .left) hi hl
  obtain ⟨_, w, hw, hwside, hwt⟩ := h.exists_of_derives hn (s := .right) hj hr
  obtain rfl := h.grown.eq_of_pretty_eq hv hw (hvt.trans hwt.symm)
  exact absurd (hvside.symm.trans hwside) (by decide)

/-! ## Exhausted searches -/

/-- When nothing is left to expand, only what lies too deep has not been visited. -/
theorem visited_or (h : Explored rules lhs rhs x none) (hempty : x.frontier.toList = []) {i : Nat}
    {v : Vertex Payload} (hv : x.skeleton.vertices[i]? = some v) :
    x.Visited i ∨ (x.frontier.isCut = true ∧ x.frontier.maxDepth < v.depth) := by
  obtain ⟨b, c, hc⟩ := exists_progress hv
  cases b with
  | true => exact Or.inl ⟨c, hc⟩
  | false =>
    have hpending : x.pending none = [] := hempty
    rcases h.kept hv hc with hmem | hlost
    · rw [hpending] at hmem
      exact absurd hmem List.not_mem_nil
    · exact Or.inr hlost

theorem visitedWithin (h : Explored rules lhs rhs x none) (hempty : x.frontier.toList = [])
    (hcut : x.frontier.isCut = false) (n : ℕ) : x.VisitedWithin rules lhs rhs n := by
  intro i v hv _
  apply (h.visited_or hempty hv).resolve_right
  rintro ⟨hcut', -⟩
  exact absurd (hcut.symm.trans hcut') (by simp)

/-- **When nothing is left to expand and nothing was cut, a side holds exactly the texts that can be
reached from its root.** -/
theorem exists_iff_reflTransGen (h : Explored rules lhs rhs x none)
    (hempty : x.frontier.toList = []) (hcut : x.frontier.isCut = false) (s : Side) (t : Text) :
    (∃ v ∈ x.vertices.items, v.side = s ∧ v.pretty = t) ↔
      Relation.ReflTransGen (Rewrites rules) (s.pick lhs rhs) t := by
  rw [reflTransGen_rewrites_iff]
  constructor
  · rintro ⟨v, hv, rfl, rfl⟩
    obtain ⟨i, hi⟩ := Array.mem_iff_getElem?.mp hv
    exact ⟨v.depth, h.grown.derives (v := v.asBorn) (getElem?_skeleton_of hi)⟩
  · rintro ⟨n, hn⟩
    obtain ⟨i, b, hb, hside, hpretty⟩ :=
      h.exists_of_derives (h.visitedWithin hempty hcut n) (Nat.le_refl n) hn
    obtain ⟨v, hv, rfl⟩ := exists_of_getElem?_skeleton hb
    exact ⟨v, Array.mem_of_getElem? hv, hside, hpretty⟩

theorem not_join (h : Explored rules lhs rhs x none) (hempty : x.frontier.toList = [])
    (hcut : x.frontier.isCut = false) :
    ¬Relation.Join (Relation.ReflTransGen (Rewrites rules)) lhs rhs := by
  rintro ⟨t, hl, hr⟩
  obtain ⟨i, hl⟩ := reflTransGen_rewrites_iff.mp hl
  obtain ⟨j, hr⟩ := reflTransGen_rewrites_iff.mp hr
  apply h.not_joinableWithin (h.visitedWithin hempty hcut (max i j))
  exact ⟨t, distance_le_iff.mpr ⟨i, Nat.le_max_left i j, hl⟩,
    distance_le_iff.mpr ⟨j, Nat.le_max_right i j, hr⟩⟩

end Explored

theorem Reached.explored_of_failure (hkey : config.key = Term.pretty) (hne : lhs ≠ rhs)
    (h : Reached (.ofRules rules) config (.ofText lhs) (.ofText rhs) x focus)
    {result : Result Evidence} (hreports : Reports rules x focus lhs rhs result)
    (hfailure : result.status = .failure) :
    x.Explored rules lhs rhs none ∧ x.frontier.toList = [] := by
  rcases result with ⟨p, units, stats⟩ | stats | stats
  · exact absurd hfailure (by simp [Result.status])
  · obtain ⟨hapart, rfl, y, entries, hnext⟩ := hreports
    exact ⟨h.explored hkey hne hapart, Frontier.toList_of_next_none (next_eq hnext).1⟩
  · exact absurd hfailure (by simp [Result.status])

end Exploration

namespace Search

/-- **A failure without a cut is a refutation.** When a search fails and its frontier was not cut,
no text can be reached from both goal texts, and the texts of the vertices on each side are exactly
those that can be reached from the goal text of this side. -/
theorem solve_refutes (rules : List Rule) (clock : Nat → Nat) (config : Config Payload)
    (hkey : config.key = Term.pretty) (lhs rhs : Text) (tally : Tally) :
    ∃ result, (solve (.ofRules rules) clock config (.ofText lhs) (.ofText rhs) tally).answer
        = .ok result ∧
      (result.status = .failure → ∃ x focus,
        (solve (.ofRules rules) clock config (.ofText lhs) (.ofText rhs) tally).search
          = .exploring x focus ∧
        (x.frontier.isCut = false →
          ¬Relation.Join (Relation.ReflTransGen (Rewrites rules)) lhs rhs ∧
          ∀ s t, (∃ v ∈ x.vertices.items, v.side = s ∧ v.pretty = t) ↔
            Relation.ReflTransGen (Rewrites rules) (s.pick lhs rhs) t)) := by
  by_cases hne : lhs = rhs
  · subst hne
    exact ⟨_, solve_self rules clock config lhs tally, fun h ↦ absurd h (by simp [Result.status])⟩
  · obtain ⟨y, g, result, edges, hy, hanswer, hsearch, hreports⟩ :=
      Exploration.exists_result_search rules hkey hne clock tally
    refine ⟨result, hanswer, ?_⟩
    intro hfailure
    obtain ⟨hexplored, hempty⟩ := hy.explored_of_failure hkey hne hreports hfailure
    refine ⟨_, g, hsearch, ?_⟩
    intro hcut
    exact ⟨hexplored.not_join hempty hcut, hexplored.exists_iff_reflTransGen hempty hcut⟩

theorem solve_refutes_disjoint :
    let rules : List Rule := [
      { name := utf8 "r1", lhs := utf8 "a", rhs := utf8 "b", symmetric := false },
      { name := utf8 "r2", lhs := utf8 "c", rhs := utf8 "d" }]
    ∃ x focus, (solve (.ofRules rules) (fun _ ↦ 0) { strategy := .bestFirst } (.ofText (utf8 "a"))
        (.ofText (utf8 "c")) {}).search = .exploring x focus ∧
      ¬Relation.Join (Relation.ReflTransGen (Rewrites rules)) (utf8 "a") (utf8 "c") ∧
      ∀ s t, (∃ v ∈ x.vertices.items, v.side = s ∧ v.pretty = t) ↔
        Relation.ReflTransGen (Rewrites rules) (s.pick (utf8 "a") (utf8 "c")) t := by
  intro rules
  obtain ⟨result, hanswer, hrefutes⟩ := solve_refutes rules (fun _ ↦ 0) { strategy := .bestFirst }
    rfl (utf8 "a") (utf8 "c") {}
  have hfailure : ((solve (.ofRules rules) (fun _ ↦ 0) { strategy := .bestFirst }
      (.ofText (utf8 "a")) (.ofText (utf8 "c")) {}).answer.toOption.map Result.status)
        = some .failure := by decide +kernel
  have hcut : ((solve (.ofRules rules) (fun _ ↦ 0) { strategy := .bestFirst }
      (.ofText (utf8 "a")) (.ofText (utf8 "c")) {}).search.graph?.map fun x ↦ x.frontier.isCut)
        = some false := by decide +kernel
  rw [hanswer] at hfailure
  obtain ⟨x, focus, hsearch, hclosed⟩ := hrefutes (Option.some.inj hfailure)
  rw [hsearch] at hcut
  exact ⟨x, focus, hsearch, hclosed (Option.some.inj hcut)⟩

end Search

end Joinability
